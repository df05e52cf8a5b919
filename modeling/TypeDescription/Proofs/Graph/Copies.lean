import TypeDescription.Proofs.Graph.Isomorphism
import TypeDescription.Proofs.Graph.Comparison

/-!
# A copy is equal to its original

Where one graph is another with its containers renamed, the comparison of the two goes the
way of a depth-first walk of the first alone: it comes to a container together with its
new name only, and enters the pair when the walk enters the container.

* `Heap.Explores` is that walk, with the levels that it may nest; map keys and exempt
  values are entered.  `Heap.Renames` says that one value is another with its containers
  renamed.
* `Parallel` ties the containers that the walk has entered to the pairs that the
  comparison has taken as equal.  A container that keeps its name is equal to itself at
  once; what is below it keeps its name too (`rename_eq_self_of_below`), so there is
  nothing that the comparison misses.
* `structurallyEqual_copy` is the conclusion.  A boxed NaN is the one scalar that is not
  equal to itself (`not_structurallyEqual_copy`).
-/

namespace TypeDescription

variable {X : Type}

/-! ## Equality with itself -/

theorem Primitive.Equals.refl (p : Primitive) : p.Equals p := by
  cases p with
  | number x => exact .number (.inl rfl)
  | _ => constructor

theorem Value.equals_self {v : Value X} (hv : v.isContainer = false) (hplain : v.exempt? = none) :
    v.Equals v := by
  cases v with
  | number x => exact .number (.inl rfl)
  | date x => exact .date (.inl rfl)
  | boxed p => exact .boxed (.refl p)
  | node r => cases hv
  | exempt inner => cases hplain
  | _ => constructor

theorem Value.rename_of_scalar (f : Ref → Ref) {v : Value X} (hv : v.isContainer = false)
    (hplain : v.exempt? = none) : v.rename f = v := by
  cases v with
  | node r => cases hv
  | exempt inner => cases hplain
  | _ => rfl

theorem Value.rename_id (v : Value X) : v.rename id = v := by
  induction v with
  | exempt inner ih => rw [Value.rename, ih]
  | _ => rfl

theorem mem_zip_self {α : Type} {a : α} {l : List α} (ha : a ∈ l) : (a, a) ∈ l.zip l := by
  obtain ⟨i, hi⟩ := List.getElem?_of_mem ha
  exact List.mem_of_getElem? (List.getElem?_zip_eq_some.2 ⟨hi, hi⟩)

/-- A value in a container faces itself. -/
theorem Cell.facing_self {c : Cell X} {v : Value X} (hv : v ∈ c.contents) : c.Facing c v v := by
  cases c with
  | array items => exact .array (mem_zip_self hv)
  | set items => exact .set (mem_zip_self hv)
  | object properties =>
    obtain ⟨e, he, rfl⟩ := List.mem_map.1 hv
    have hget := (properties.get?_eq_some_iff).2 he
    exact .object hget hget
  | map entries =>
    obtain ⟨e, he, hv⟩ := List.mem_flatMap.1 hv
    simp only [List.mem_cons, List.not_mem_nil, or_false] at hv
    rcases hv with rfl | rfl
    · exact .mapKey (mem_zip_self he)
    · exact .mapValue (mem_zip_self he)

/-- To compare in order goes on after a thing that agrees. -/
theorem Comparison.run_all_cons {α : Type} {agree : α → Comparison} {a : α} {rest : List α}
    {s s' : Assumed} (hhead : (agree a).run s = (true, s')) :
    (all agree (a :: rest)).run s = (all agree rest).run s' := by
  rw [all, run_andThen, hhead, if_pos rfl]

namespace Heap

/-! ## The walk of one graph -/

/-- A depth-first walk of values, one after the other, that enters no container twice and
nests no more than `room` containers: what was entered before it and after it. -/
inductive Explores (h : Heap X) : Nat → List Ref → List (Value X) → List Ref → Prop
  | done {room : Nat} {met : List Ref} : Explores h room met [] met
  | scalar {room : Nat} {met met' : List Ref} {v : Value X} {rest : List (Value X)} :
      v.isContainer = false → v.exempt? = none → Explores h room met rest met' →
        Explores h room met (v :: rest) met'
  | marked {room : Nat} {met met' : List Ref} {v : Value X} {rest : List (Value X)} :
      Explores h room met (v :: rest) met' → Explores h room met (.exempt v :: rest) met'
  | again {room : Nat} {met met' : List Ref} {r : Ref} {rest : List (Value X)} : r ∈ met →
      Explores h room met rest met' → Explores h room met (.node r :: rest) met'
  | enter {room : Nat} {met met₁ met' : List Ref} {r : Ref} {c : Cell X} {rest : List (Value X)} :
      r ∉ met → h.cell? r = some c → Explores h room (r :: met) c.contents met₁ →
        Explores h (room + 1) met₁ rest met' → Explores h (room + 1) met (.node r :: rest) met'

/-- The depth-first walk of a value nests no more than `room` containers. -/
def FitsIn (h : Heap X) (room : Nat) (x : Value X) : Prop :=
  ∃ met, h.Explores room [] [x] met

theorem Explores.subset {h : Heap X} {room : Nat} {met met' : List Ref} {vs : List (Value X)}
    (E : h.Explores room met vs met') : met ⊆ met' := by
  induction E with
  | done => exact List.Subset.refl _
  | enter _ _ _ _ ih ih' =>
    exact fun r hr => ih' (ih (List.mem_cons_of_mem _ hr))
  | _ => assumption

/-- What a walk enters is a container below one of the values. -/
theorem below_of_explores {h : Heap X} {room : Nat} {met met' : List Ref} {vs : List (Value X)}
    (E : h.Explores room met vs met') {r : Ref} (hr : r ∈ met') :
    r ∈ met ∨ (∃ c, h.cell? r = some c) ∧ ∃ v ∈ vs, h.Below v (.node r) := by
  induction E with
  | done => exact .inl hr
  | scalar _ _ _ ih =>
    refine (ih hr).imp_right fun hnew => ⟨hnew.1, ?_⟩
    obtain ⟨v, hv, hbelow⟩ := hnew.2
    exact ⟨v, List.mem_cons_of_mem _ hv, hbelow⟩
  | marked _ ih =>
    refine (ih hr).imp_right fun hnew => ⟨hnew.1, ?_⟩
    obtain ⟨v, hv, hbelow⟩ := hnew.2
    rcases List.mem_cons.1 hv with rfl | hv
    · exact ⟨_, List.mem_cons_self, (Below.marked .root).trans hbelow⟩
    · exact ⟨v, List.mem_cons_of_mem _ hv, hbelow⟩
  | again _ _ ih =>
    refine (ih hr).imp_right fun hnew => ⟨hnew.1, ?_⟩
    obtain ⟨v, hv, hbelow⟩ := hnew.2
    exact ⟨v, List.mem_cons_of_mem _ hv, hbelow⟩
  | @enter room met met₁ met' s c rest _ hc _ _ ih ih' =>
    rcases ih' hr with hr | ⟨hcell, v, hv, hbelow⟩
    · rcases ih hr with hr | ⟨hcell, v, hv, hbelow⟩
      · rcases List.mem_cons.1 hr with rfl | hr
        · exact .inr ⟨⟨c, hc⟩, _, List.mem_cons_self, .root⟩
        · exact .inl hr
      · exact .inr ⟨hcell, _, List.mem_cons_self, (Below.content .root hc hv).trans hbelow⟩
    · exact .inr ⟨hcell, v, List.mem_cons_of_mem _ hv, hbelow⟩

/-! ## Renamed graphs -/

/-- A value is another with its containers renamed: a renamed container holds the same
scalars in the same places, and the renamed containers. -/
structure Renames (h : Heap X) (f : Ref → Ref) (x y : Value X) : Prop where
  root : y = x.rename f
  content : ∀ r c, h.Below x (.node r) → h.cell? r = some c →
    ∃ d, h.cell? (f r) = some d ∧ c.Related (fun v w => w = v.rename f) d

section Renames

variable {h : Heap X} {f : Ref → Ref} {x y : Value X}

theorem Renames.of_below (hxy : h.Renames f x y) {v : Value X} (hv : h.Below x v) :
    h.Renames f v (v.rename f) where
  root := rfl
  content r c hr hc := hxy.content r c (hv.trans hr) hc

/-- What is below a container that keeps its name keeps its name. -/
theorem rename_eq_self_of_below {r : Ref} (hxy : h.Renames f (.node r) (.node r)) {v : Value X}
    (hv : h.Below (.node r) v) : v.rename f = v := by
  induction hv with
  | root => exact hxy.root.symm
  | marked _ ih => exact Value.exempt.inj ih
  | @content s c v hs hc hmem ih =>
    obtain ⟨d, hd, hrel⟩ := hxy.content s c hs hc
    rw [Value.node.inj ih] at hd
    obtain rfl := Option.some.inj (hc.symm.trans hd)
    exact (hrel.of_facing (Cell.facing_self hmem)).symm

/-! ## The comparison beside the walk -/

/-- The containers that the walk has entered are the ones that the comparison has taken as equal
to their new names, or that kept their names. -/
structure Parallel (h : Heap X) (f : Ref → Ref) (met : List Ref) (s : Assumed) : Prop where
  taken : ∀ r ∈ met, r = f r ∨ (r, f r) ∈ s
  entered : ∀ r, (r, f r) ∈ s → r ∈ met
  there : ∀ r ∈ met, ∃ c, h.cell? r = some c

/-- To enter a container that keeps its name leads to containers that keep theirs. -/
theorem Parallel.explored {met met' : List Ref} {s : Assumed} {r : Ref} {room : Nat}
    (P : h.Parallel f met s) (E : h.Explores room met [.node r] met')
    (hr : h.Renames f (.node r) (.node r)) : h.Parallel f met' s where
  taken q hq := by
    rcases below_of_explores E hq with hq | ⟨_, v, hv, hbelow⟩
    · exact P.taken q hq
    · obtain rfl := List.mem_singleton.1 hv
      exact .inl (Value.node.inj (rename_eq_self_of_below hr hbelow)).symm
  entered q hq := E.subset (P.entered q hq)
  there q hq := by
    rcases below_of_explores E hq with hq | ⟨hcell, _⟩
    · exact P.there q hq
    · exact hcell

theorem Parallel.entering {met : List Ref} {s : Assumed} {r : Ref} {c : Cell X}
    (P : h.Parallel f met s) (hc : h.cell? r = some c) :
    h.Parallel f (r :: met) ((r, f r) :: s) where
  taken := List.forall_mem_cons.2 ⟨.inr List.mem_cons_self, fun q hq =>
    (P.taken q hq).imp_right (List.mem_cons_of_mem _)⟩
  entered q hq := by
    rcases List.mem_cons.1 hq with heq | hq
    · exact List.mem_cons.2 (.inl (Prod.mk.inj heq).1)
    · exact List.mem_cons_of_mem _ (P.entered q hq)
  there := List.forall_mem_cons.2 ⟨⟨c, hc⟩, P.there⟩

/-- The comparison of a container with its new name, where the walk has been there. -/
theorem Parallel.run_again [DecidableEq X] {met : List Ref} {s : Assumed} {r : Ref} {room : Nat}
    (P : h.Parallel f met s) (hr : r ∈ met) (hxy : h.Renames f (.node r) (.node (f r))) :
    (h.nodesAgree room r (f r)).run s = (true, s) := by
  obtain ⟨c, hc⟩ := P.there r hr
  obtain ⟨d, hd, hrel⟩ := hxy.content r c .root hc
  rw [run_nodesAgree]
  simp only [hc, hd, sameKind_of_related hrel, Bool.true_eq_false, if_false, if_pos (P.taken r hr)]

/-- Compare a value with its renaming. -/
def agreeRenamed [DecidableEq X] (h : Heap X) (f : Ref → Ref) (room : Nat) (v : Value X) :
    Comparison :=
  v.agree (h.nodesAgree room) (v.rename f)

/-- To compare a container with a renamed one is to compare each value in it with its renaming. -/
theorem cellsAgree_rename {c d : Cell X} (hrel : c.Related (fun v w => w = v.rename f) d)
    (agree : Value X → Value X → Comparison) :
    cellsAgree agree c d = Comparison.all (fun v => agree v (v.rename f)) c.contents := by
  obtain ⟨pairs, hfst, hface, heq⟩ := exists_facing hrel
  rw [heq, ← hfst, Comparison.all_map]
  exact Comparison.all_congr fun p hp => by rw [hrel.of_facing (hface p hp)]

/-- Values and their renamings compare equal one after the other, if the walk of the values nests
within the room. -/
theorem Explores.run_all [DecidableEq X] {room : Nat} {met met' : List Ref} {vs : List (Value X)}
    (E : h.Explores room met vs met')
    (hboxed : ∀ v ∈ vs, ∀ y, h.Below v (.boxed (.number y)) → y.isNaN = false)
    (hnames : ∀ v ∈ vs, h.Renames f v (v.rename f)) {s : Assumed} (P : h.Parallel f met s) :
    ∃ s', (Comparison.all (h.agreeRenamed f room) vs).run s = (true, s') ∧
      h.Parallel f met' s' := by
  induction E generalizing s with
  | done => exact ⟨s, rfl, P⟩
  | @scalar room met met' v rest hv hplain _ ih =>
    obtain ⟨hnan, hboxed⟩ := List.forall_mem_cons.1 hboxed
    have hhead : (h.agreeRenamed f room v).run s = (true, s) := by
      rw [agreeRenamed, Value.rename_of_scalar f hv hplain,
        Value.agree_of_equals _ (Value.equals_self hv hplain) fun y hy => hnan y (hy ▸ .root)]
      rfl
    rw [Comparison.run_all_cons hhead]
    exact ih hboxed (List.forall_mem_cons.1 hnames).2 P
  | @marked room met met' v rest _ ih =>
    obtain ⟨hnan, hboxed⟩ := List.forall_mem_cons.1 hboxed
    obtain ⟨hname, hnames⟩ := List.forall_mem_cons.1 hnames
    have hin : h.Below (.exempt v) v := .marked .root
    exact ih (List.forall_mem_cons.2 ⟨fun y hy => hnan y (hin.trans hy), hboxed⟩)
      (List.forall_mem_cons.2 ⟨hname.of_below hin, hnames⟩) P
  | @again room met met' r rest hr _ ih =>
    obtain ⟨hname, hnames⟩ := List.forall_mem_cons.1 hnames
    have hhead : (h.agreeRenamed f room (.node r)).run s = (true, s) := P.run_again hr hname
    rw [Comparison.run_all_cons hhead]
    exact ih (List.forall_mem_cons.1 hboxed).2 hnames P
  | @enter room met met₁ met' r c rest hr hc E _ ih ih' =>
    obtain ⟨hnan, hboxed⟩ := List.forall_mem_cons.1 hboxed
    obtain ⟨hname, hnames⟩ := List.forall_mem_cons.1 hnames
    suffices hhead : ∃ s₁, (h.agreeRenamed f (room + 1) (.node r)).run s = (true, s₁) ∧
        h.Parallel f met₁ s₁ by
      obtain ⟨s₁, hhead, P₁⟩ := hhead
      rw [Comparison.run_all_cons hhead]
      exact ih' hboxed hnames P₁
    obtain ⟨d, hd, hrel⟩ := hname.content r c .root hc
    show ∃ s₁, (h.nodesAgree (room + 1) r (f r)).run s = (true, s₁) ∧ _
    rw [run_nodesAgree]
    simp only [hc, hd, sameKind_of_related hrel, Bool.true_eq_false, if_false]
    by_cases hsame : r = f r
    · rw [if_pos (.inl hsame)]
      have hkept : h.Renames f (.node r) (.node r) := by
        have heq : (Value.node r : Value X).rename f = .node r := congrArg Value.node hsame.symm
        rwa [heq] at hname
      exact ⟨s, rfl, P.explored (.enter hr hc E .done) hkept⟩
    · rw [if_neg (not_or.2 ⟨hsame, fun hmem => hr (P.entered r hmem)⟩), cellsAgree_rename hrel]
      exact ih (fun v hv y hy => hnan y ((Below.content .root hc hv).trans hy))
        (fun v hv => hname.of_below (.content .root hc hv)) (P.entering hc)

/-! ## A copy is equal -/

/-- A value whose depth-first walk nests within the limit, and that has no boxed NaN in it, is
equal to each value that is the same with its containers renamed, and so to itself. -/
theorem structurallyEqual_copy [DecidableEq X] (hfits : h.FitsIn 1024 x)
    (hboxed : ∀ y, h.Below x (.boxed (.number y)) → y.isNaN = false) :
    (∀ f y, h.Renames f x y → h.structurallyEqual x y = true) ∧
      h.structurallyEqual x x = true := by
  have hcopy : ∀ f y, h.Renames f x y → h.structurallyEqual x y = true := by
    intro f y hxy
    obtain ⟨met, E⟩ := hfits
    obtain rfl := hxy.root
    have P : h.Parallel f [] [] := ⟨nofun, nofun, nofun⟩
    obtain ⟨s', hrun, _⟩ := E.run_all (List.forall_mem_singleton.2 hboxed)
      (List.forall_mem_singleton.2 hxy) P
    have hfst := Comparison.fst_run_all_singleton (h.agreeRenamed f 1024) x []
    rw [hrun] at hfst
    exact hfst.symm
  refine ⟨hcopy, hcopy id x ⟨(Value.rename_id x).symm, fun r c _ hc => ⟨c, hc, ?_⟩⟩⟩
  exact .of_self fun v _ => (Value.rename_id v).symm

end Renames

/-- An object that contains itself, in an undated map with a set of a NaN as its key, and a copy
of the three containers behind them. -/
def keepsakes : Heap Unit :=
  ⟨#[.object (Table.ofList [("self", .node 0), ("when", .date .nan), ("kept", .node 1)]),
    .map [(.node 2, .exempt (.node 0))], .set [.number .nan],
    .object (Table.ofList [("self", .node 3), ("when", .date .nan), ("kept", .node 4)]),
    .map [(.node 5, .exempt (.node 3))], .set [.number .nan]]⟩

/-- All that is in the original. -/
def keepsakeValues : List (Value Unit) :=
  [.node 0, .node 1, .node 2, .exempt (.node 0), .date .nan, .number .nan]

theorem mem_keepsakeValues_of_below {v : Value Unit} (hv : keepsakes.Below (.node 0) v) :
    v ∈ keepsakeValues := by
  have hclosed : ∀ v ∈ keepsakeValues, ∀ u ∈ keepsakes.parts v, u ∈ keepsakeValues := by
    decide +kernel
  exact hv.mem_of_closed hclosed (by simp [keepsakeValues])

theorem fitsIn_keepsakes : keepsakes.FitsIn 1024 (.node 0) := by
  have hset : keepsakes.Explores 1021 [2, 1, 0] [.number .nan] [2, 1, 0] :=
    .scalar rfl rfl .done
  have hmap : keepsakes.Explores 1022 [1, 0] [.node 2, .exempt (.node 0)] [2, 1, 0] :=
    .enter (by decide) rfl hset (.marked (.again (by decide) .done))
  have hroot : keepsakes.Explores 1023 [0] [.node 0, .date .nan, .node 1] [2, 1, 0] :=
    .again (by decide) (.scalar rfl rfl (.enter (by decide) rfl hmap .done))
  exact ⟨_, .enter (by decide) rfl hroot .done⟩

theorem renames_keepsakes : keepsakes.Renames (· + 3) (.node 0) (.node 3) where
  root := rfl
  content r c hr hc := by
    have hr := mem_keepsakeValues_of_below hr
    simp only [keepsakeValues, List.mem_cons, List.not_mem_nil, reduceCtorEq, or_false,
      Value.node.injEq] at hr
    rcases hr with rfl | rfl | rfl <;> obtain rfl := Option.some.inj hc
    · refine ⟨_, rfl, .object fun key => rel_find?_of_forall₂ ?_ key⟩
      exact .cons ⟨rfl, rfl⟩ (.cons ⟨rfl, rfl⟩ (.cons ⟨rfl, rfl⟩ .nil))
    · exact ⟨_, rfl, .map (.cons ⟨rfl, rfl⟩ .nil)⟩
    · exact ⟨_, rfl, .set (.cons rfl .nil)⟩

theorem structurallyEqual_copy_keepsakes :
    keepsakes.FitsIn 1024 (.node 0) ∧
      (∀ y, keepsakes.Below (.node 0) (.boxed (.number y)) → y.isNaN = false) ∧
      keepsakes.Renames (· + 3) (.node 0) (.node 3) ∧
      keepsakes.structurallyEqual (.node 0) (.node 3) = true := by
  have hboxed : ∀ y, keepsakes.Below (.node 0) (.boxed (.number y)) → y.isNaN = false := by
    intro y hy
    have hmem := mem_keepsakeValues_of_below hy
    simp [keepsakeValues] at hmem
  have hcopy := structurallyEqual_copy fitsIn_keepsakes hboxed
  exact ⟨fitsIn_keepsakes, hboxed, renames_keepsakes, hcopy.1 _ _ renames_keepsakes⟩

/-- Two arrays with a boxed NaN in each. -/
def boxes : Heap Unit :=
  ⟨#[.array [.boxed (.number .nan)], .array [.boxed (.number .nan)]]⟩

/-- A boxed NaN is the same scalar and yet not equal to itself, while a NaN that is not boxed is,
and so is the array that the boxed one is in. -/
theorem not_structurallyEqual_copy :
    boxes.FitsIn 1024 (.node 0) ∧ boxes.Renames (· + 1) (.node 0) (.node 1) ∧
      boxes.structurallyEqual (.node 0) (.node 1) = false ∧
      boxes.structurallyEqual (.boxed (.number .nan)) (.boxed (.number .nan)) = false ∧
      boxes.structurallyEqual (.number .nan) (.number .nan) = true ∧
      boxes.structurallyEqual (.node 0) (.node 0) = true := by
  have hclosed : ∀ v ∈ [.node 0, .boxed (.number .nan)], ∀ u ∈ boxes.parts v,
      u ∈ [.node 0, .boxed (.number .nan)] := by
    decide +kernel
  refine ⟨⟨_, .enter (by decide) rfl (.scalar rfl rfl .done) .done⟩, ⟨rfl, fun r c hr hc => ?_⟩,
    by decide +kernel, by decide +kernel, by decide +kernel, by decide +kernel⟩
  obtain rfl : r = 0 := by simpa using hr.mem_of_closed hclosed (by simp)
  obtain rfl := Option.some.inj hc
  exact ⟨_, rfl, .array (.cons rfl .nil)⟩

end Heap

end TypeDescription
