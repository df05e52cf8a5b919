import Mathlib.Data.Set.Card
import TypeDescription.Proofs.Graph.Bisimilarity
import TypeDescription.Proofs.Graph.Heap
import TypeDescription.Proofs.Run

/-!
# Comparison decides bisimilarity

The comparison takes a pair of containers as equal when it first comes to it and
never takes that back.

* Soundness.  A comparison that says yes has looked into every pair that it took as
  equal, and found the values inside equal under the assumptions that it ends with.
  So these assumptions are a bisimulation (`Justifies`, `justifies_nodesAgree`).
* To compare two containers of one shape is to compare what they hold place by place
  (`exists_facing`), so a comparison says yes if all the comparisons in it do (`Affirms`).
* Completeness.  A level is entered only with a new assumption, and assumptions are
  pairs of a container below the one value and a container below the other.  So the
  room lasts where there are no more such pairs than levels (`Settles`,
  `settles_nodesAgree`).
-/

namespace TypeDescription

variable {X : Type}

/-! ## How comparisons run -/

namespace Comparison

@[simp] theorem run_return (b : Bool) (s : Assumed) : StateT.run (pure b : Comparison) s = (b, s) :=
  rfl

theorem run_andThen (first second : Comparison) (s : Assumed) :
    (andThen first second).run s =
      if (first.run s).1 then second.run (first.run s).2 else (false, (first.run s).2) := by
  unfold andThen
  rw [StateT.run_bind]
  show StateT.run (if (first.run s).1 = true then second else pure false) (first.run s).2 = _
  split <;> rfl

end Comparison

/-! ## What a comparison that says yes has found -/

/-- Values that are equal if the containers in the pairs are. -/
inductive Value.EqualUnder (s : Assumed) : Value X → Value X → Prop
  | scalar {v w : Value X} : v.Equals w → EqualUnder s v w
  | exempt {v w : Value X} : EqualUnder s v w → EqualUnder s (.exempt v) (.exempt w)
  | node {a b : Ref} : a = b ∨ (a, b) ∈ s → EqualUnder s (.node a) (.node b)

namespace Heap

/-- More assumptions, where each new pair matches under all of them. -/
structure Grounded (h : Heap X) (s t : Assumed) : Prop where
  subset : s ⊆ t
  matches_of_mem : ∀ a b, (a, b) ∈ t →
    (a, b) ∈ s ∨ h.Matches (Value.EqualUnder t) (.node a) (.node b)

/-- If the comparison says yes, `Q` holds of the assumptions it ends with, and it has
looked into each of the new ones. -/
def Justifies (h : Heap X) (Q : Assumed → Prop) (m : Comparison) : Prop :=
  ∀ s, (m.run s).1 = true → h.Grounded s (m.run s).2 ∧ Q (m.run s).2

end Heap

theorem Value.EqualUnder.refl (s : Assumed) (v : Value X) : v.EqualUnder s v := by
  induction v with
  | undefined => exact .scalar .undefined
  | null => exact .scalar .null
  | bool b => exact .scalar (.bool b)
  | number x => exact .scalar (.number (.inl rfl))
  | bigInt digits => exact .scalar (.bigInt digits)
  | string s => exact .scalar (.string s)
  | boxed p =>
    cases p with
    | bool b => exact .scalar (.boxed (.bool b))
    | number x => exact .scalar (.boxed (.number (.inl rfl)))
    | string s => exact .scalar (.boxed (.string s))
  | date ms => exact .scalar (.date (.inl rfl))
  | regExp source flags => exact .scalar (.regExp source flags)
  | node r => exact .node (.inl rfl)
  | exempt inner ih => exact .exempt ih
  | foreign payload => exact .scalar (.foreign payload)

theorem Value.EqualUnder.mono {s t : Assumed} (hst : s ⊆ t) {v w : Value X}
    (h : v.EqualUnder s w) : v.EqualUnder t w := by
  induction h with
  | scalar heq => exact .scalar heq
  | exempt _ ih => exact .exempt ih
  | node hab => exact .node (hab.imp_right fun hmem => hst hmem)

namespace Heap

section Soundness

variable {h : Heap X} {s t u : Assumed}

theorem Grounded.refl (h : Heap X) (s : Assumed) : h.Grounded s s :=
  ⟨List.Subset.refl s, fun _ _ hmem => .inl hmem⟩

theorem Grounded.trans (hst : h.Grounded s t) (htu : h.Grounded t u) : h.Grounded s u where
  subset := List.Subset.trans hst.subset htu.subset
  matches_of_mem a b hmem := by
    rcases htu.matches_of_mem a b hmem with hmem | hm
    · rcases hst.matches_of_mem a b hmem with hmem | hm
      · exact .inl hmem
      · exact .inr (hm.imp fun _ _ _ _ heq => heq.mono htu.subset)
    · exact .inr hm

theorem justifies_return {Q : Assumed → Prop} {b : Bool} (hQ : b = true → ∀ s, Q s) :
    h.Justifies Q (return b) := by
  intro s hb
  exact ⟨.refl h s, hQ hb s⟩

theorem Justifies.imp {Q Q' : Assumed → Prop} {m : Comparison} (hQ : ∀ t, Q t → Q' t)
    (hm : h.Justifies Q m) : h.Justifies Q' m := by
  intro s hyes
  obtain ⟨hst, hend⟩ := hm s hyes
  exact ⟨hst, hQ _ hend⟩

theorem justifies_andThen {Q Q' : Assumed → Prop} {m n : Comparison}
    (hmono : ∀ s t, s ⊆ t → Q s → Q t) (hm : h.Justifies Q m) (hn : h.Justifies Q' n) :
    h.Justifies (fun t => Q t ∧ Q' t) (Comparison.andThen m n) := by
  intro s hyes
  rw [Comparison.run_andThen] at hyes ⊢
  by_cases hfirst : (m.run s).1 = true
  · rw [if_pos hfirst] at hyes ⊢
    obtain ⟨hst, hQ⟩ := hm s hfirst
    obtain ⟨htu, hQ'⟩ := hn _ hyes
    exact ⟨hst.trans htu, hmono _ _ htu.subset hQ, hQ'⟩
  · simp [hfirst] at hyes

theorem justifies_all {α : Type} {agree : α → Comparison} {Q : α → Assumed → Prop} {l : List α}
    (hmono : ∀ a s t, s ⊆ t → Q a s → Q a t) (hall : ∀ a ∈ l, h.Justifies (Q a) (agree a)) :
    h.Justifies (fun t => ∀ a ∈ l, Q a t) (Comparison.all agree l) := by
  induction l with
  | nil => exact justifies_return fun _ _ _ hmem => absurd hmem List.not_mem_nil
  | cons a rest ih =>
    obtain ⟨hhead, hrest⟩ := List.forall_mem_cons.1 hall
    have hboth := justifies_andThen (hmono a) hhead (ih hrest)
    exact hboth.imp fun _ hQ => List.forall_mem_cons.2 hQ

/-- What two comparisons of lists find is found of the lists. -/
theorem justifies_listsAgree {agree : Value X → Value X → Comparison}
    (hagree : ∀ v w, h.Justifies (fun t => v.EqualUnder t w) (agree v w)) (as bs : List (Value X)) :
    h.Justifies (fun t => List.Forall₂ (Value.EqualUnder t) as bs)
      (cellsAgree.listsAgree agree as bs) := by
  unfold cellsAgree.listsAgree
  split
  · next hlen =>
    refine (justifies_all (fun _ _ _ hst heq => heq.mono hst)
      fun pair _ => hagree pair.1 pair.2).imp fun t hall => ?_
    exact List.forall₂_iff_zip.2 ⟨hlen, fun {v w} hmem => hall (v, w) hmem⟩
  · exact justifies_return nofun

theorem justifies_cellsAgree {agree : Value X → Value X → Comparison}
    (hagree : ∀ v w, h.Justifies (fun t => v.EqualUnder t w) (agree v w)) (c d : Cell X) :
    h.Justifies (fun t => c.Related (Value.EqualUnder t) d) (cellsAgree agree c d) := by
  unfold cellsAgree
  split
  · next as bs => exact (justifies_listsAgree hagree as bs).imp fun _ hitems => .array hitems
  · next as bs => exact (justifies_listsAgree hagree as bs).imp fun _ hitems => .set hitems
  · next as bs =>
    split
    · next hsize =>
      let Found (e : String × Value X) (t : Assumed) : Prop :=
        ∃ w, bs.get? e.1 = some w ∧ e.2.EqualUnder t w
      have hmono : ∀ e s t, s ⊆ t → Found e s → Found e t := fun _ _ _ hst hfound =>
        hfound.imp fun _ hw => ⟨hw.1, hw.2.mono hst⟩
      refine (justifies_all hmono fun e _ => ?_).imp fun _ hall =>
        .object (Table.rel_get?_of_size_eq hsize hall)
      split
      · next w hw => exact (hagree e.2 w).imp fun _ heq => ⟨w, hw, heq⟩
      · exact justifies_return nofun
    · exact justifies_return nofun
  · next as bs =>
    split
    · next hlen =>
      refine (justifies_all (fun _ _ _ hst heq => ⟨heq.1.mono hst, heq.2.mono hst⟩) fun pair _ =>
        justifies_andThen (fun _ _ hst heq => heq.mono hst)
          (hagree pair.1.1 pair.2.1) (hagree pair.1.2 pair.2.2)).imp fun t hall => ?_
      exact .map (List.forall₂_iff_zip.2 ⟨hlen, fun {e f} hmem => hall (e, f) hmem⟩)
    · exact justifies_return nofun
  · exact justifies_return nofun

theorem justifies_scalar {v w : Value X} {b : Bool} (heq : b = true → v.Equals w) :
    h.Justifies (fun t => v.EqualUnder t w) (return b) :=
  justifies_return fun hb _ => .scalar (heq hb)

theorem justifies_agree [DecidableEq X] {nodes : Ref → Ref → Comparison}
    (hnodes : ∀ a b, h.Justifies (fun t => a = b ∨ (a, b) ∈ t) (nodes a b)) (v w : Value X) :
    h.Justifies (fun t => v.EqualUnder t w) (v.agree nodes w) := by
  fun_induction Value.agree nodes v w with
  | case1 => exact justifies_scalar fun _ => .undefined
  | case2 => exact justifies_scalar fun _ => .null
  | case3 a b => exact justifies_scalar fun heq => eq_of_beq heq ▸ .bool a
  | case4 a b => exact justifies_scalar fun heq => .number ((Double.same_iff a b).1 heq)
  | case5 a b => exact justifies_scalar fun heq => eq_of_beq heq ▸ .bigInt a
  | case6 a b => exact justifies_scalar fun heq => eq_of_beq heq ▸ .string a
  | case7 p q => exact justifies_scalar fun heq => .boxed (Primitive.equals_of_agree heq)
  | case8 a b => exact justifies_scalar fun heq => .date ((Double.same_iff a b).1 heq)
  | case9 a f b g =>
    refine justifies_scalar fun heq => ?_
    obtain ⟨rfl, rfl⟩ : a = b ∧ f = g := by simpa using heq
    exact .regExp a f
  | case10 a b ih => exact ih.imp fun _ heq => .exempt heq
  | case11 a b => exact justifies_scalar fun heq => eq_of_beq heq ▸ .foreign a
  | case12 a b => exact (hnodes a b).imp fun _ hab => .node hab
  | case13 => exact justifies_scalar nofun

end Soundness

/-- How two containers are compared: by their kinds, then by the assumptions, then, if
there is room, by their contents under one more assumption. -/
theorem run_nodesAgree [DecidableEq X] (h : Heap X) (room : Nat) (a b : Ref) (s : Assumed) :
    (h.nodesAgree room a b).run s =
      match h.cell? a, h.cell? b with
      | some c, some d =>
          if sameKind c d = false then (false, s)
          else if a = b ∨ (a, b) ∈ s then (true, s)
          else
            match room with
            | 0 => (false, (a, b) :: s)
            | room + 1 => (cellsAgree (Value.agree (h.nodesAgree room)) c d).run ((a, b) :: s)
      | _, _ => (false, s) := by
  unfold nodesAgree
  cases h.cell? a with
  | none => rfl
  | some c =>
    cases h.cell? b with
    | none => rfl
    | some d =>
      by_cases hkind : sameKind c d = true
      · by_cases hab : a = b
        · simp [hkind, hab]
          rfl
        · by_cases hmem : (a, b) ∈ s
          · simp [hkind, hab, hmem]
            rfl
          · cases room with
            | zero =>
              simp [hkind, hab, hmem]
              rfl
            | succ room => simp [hkind, hab, hmem]
      · simp [hkind]
        rfl

/-- Containers that compare equal were taken as equal before, or there was room to
compare their contents. -/
theorem met_or_entered_of_run_nodesAgree [DecidableEq X] {h : Heap X} {room : Nat} {a b : Ref}
    {s : Assumed} (hyes : ((h.nodesAgree room a b).run s).1 = true) :
    (((h.nodesAgree room a b).run s).2 = s ∧ (a = b ∨ (a, b) ∈ s)) ∨
      ∃ left c d, room = left + 1 ∧ h.cell? a = some c ∧ h.cell? b = some d ∧
        (h.nodesAgree room a b).run s =
          (cellsAgree (Value.agree (h.nodesAgree left)) c d).run ((a, b) :: s) := by
  rw [run_nodesAgree] at hyes ⊢
  cases hc : h.cell? a with
  | none => simp [hc] at hyes
  | some c =>
    cases hd : h.cell? b with
    | none => simp [hc, hd] at hyes
    | some d =>
      simp only [hc, hd] at hyes ⊢
      split_ifs at hyes ⊢ with hkind hmet
      · exact .inl ⟨rfl, hmet⟩
      · cases room with
        | zero => simp at hyes
        | succ left => exact .inr ⟨left, c, d, rfl, rfl, rfl, rfl⟩

/-! ### Soundness -/

theorem justifies_nodesAgree [DecidableEq X] (h : Heap X) (room : Nat) (a b : Ref) :
    h.Justifies (fun t => a = b ∨ (a, b) ∈ t) (h.nodesAgree room a b) := by
  induction room using Nat.strong_induction_on generalizing a b with
  | _ room ih =>
    intro s hyes
    rcases met_or_entered_of_run_nodesAgree hyes with
      ⟨hrun, hmet⟩ | ⟨left, c, d, rfl, hc, hd, hrun⟩
    · rw [hrun]
      exact ⟨.refl h s, hmet⟩
    · rw [hrun] at hyes ⊢
      have hcells := justifies_cellsAgree (justifies_agree (ih left (Nat.lt_succ_self left))) c d
      obtain ⟨hgrown, hrel⟩ := hcells _ hyes
      have hmem := hgrown.subset List.mem_cons_self
      refine ⟨⟨fun _ hp => hgrown.subset (List.mem_cons_of_mem _ hp), ?_⟩, .inr hmem⟩
      -- the new pair matches because its contents were compared
      intro a' b' hpair
      rcases hgrown.matches_of_mem a' b' hpair with hpair | hm
      · rcases List.mem_cons.1 hpair with heq | hpair
        · obtain ⟨rfl, rfl⟩ := Prod.mk.inj heq
          exact .inr (.node hc hd hrel)
        · exact .inl hpair
      · exact .inr hm

/-- The assumptions that a comparison ends with, together with identity, are a
bisimulation on what is below the two values. -/
theorem bisimilar_of_grounded {h : Heap X} {x y : Value X} {t : Assumed} (hx : h.Comparable x)
    (ht : h.Grounded [] t) (hxy : x.EqualUnder t y) : h.Bisimilar x y := by
  refine ⟨fun v w => h.Below x v ∧ h.Below y w ∧ v.EqualUnder t w, ?_, .root, .root, hxy⟩
  intro v w hrel
  obtain ⟨hv, hw, heq⟩ := hrel
  cases heq with
  | scalar heq => exact .scalar heq
  | exempt heq => exact .exempt ⟨.marked hv, .marked hw, heq⟩
  | @node a b hab =>
    have hmatch : h.Matches (Value.EqualUnder t) (.node a) (.node b) := by
      rcases hab with rfl | hmem
      · obtain ⟨c, hc⟩ := hx.closed a hv
        exact .node hc hc (.of_self fun v _ => .refl t v)
      · exact (ht.matches_of_mem a b hmem).resolve_left List.not_mem_nil
    exact hmatch.imp fun v' w' hv' hw' heq => ⟨hv.trans hv', hw.trans hw', heq⟩

/-! ## Comparing place by place -/

end Heap

namespace Comparison

theorem andThen_assoc (first second third : Comparison) :
    andThen (andThen first second) third = andThen first (andThen second third) := by
  refine StateT.ext fun s => ?_
  simp only [run_andThen]
  split_ifs <;> simp_all

/-- To compare one thing only, in order, is to compare it. -/
theorem fst_run_all_singleton {α : Type} (agree : α → Comparison) (a : α) (s : Assumed) :
    ((all agree [a]).run s).1 = ((agree a).run s).1 := by
  simp only [all, run_andThen]
  split
  · next hyes => exact hyes.symm
  · next hno => exact (Bool.eq_false_iff.2 hno).symm

/-- To compare in order after a change of the things is to compare what they are changed to. -/
theorem all_map {α β : Type} (agree : β → Comparison) (f : α → β) (l : List α) :
    all agree (l.map f) = all (fun a => agree (f a)) l := by
  induction l with
  | nil => rfl
  | cons a rest ih => simp only [List.map_cons, all, ih]

theorem all_congr {α : Type} {agree agree' : α → Comparison} {l : List α}
    (h : ∀ a ∈ l, agree a = agree' a) : all agree l = all agree' l := by
  induction l with
  | nil => rfl
  | cons a rest ih =>
    obtain ⟨hhead, hrest⟩ := List.forall_mem_cons.1 h
    simp only [all, hhead, ih hrest]

/-- Two comparisons for each thing, in order, are a comparison of twice as many things. -/
theorem all_flatMap_pair {α β : Type} (agree : β → Comparison) (f g : α → β) (l : List α) :
    all agree (l.flatMap fun a => [f a, g a]) =
      all (fun a => andThen (agree (f a)) (agree (g a))) l := by
  induction l with
  | nil => rfl
  | cons a rest ih =>
    simp only [List.flatMap_cons, List.cons_append, List.nil_append, all, ih, andThen_assoc]

end Comparison

/-- Two values at the same place in two containers of one kind. -/
inductive Cell.Facing : Cell X → Cell X → Value X → Value X → Prop
  | array {as bs : List (Value X)} {v w : Value X} : (v, w) ∈ as.zip bs →
      Facing (.array as) (.array bs) v w
  | set {as bs : List (Value X)} {v w : Value X} : (v, w) ∈ as.zip bs →
      Facing (.set as) (.set bs) v w
  | object {as bs : Table (Value X)} {name : String} {v w : Value X} : as.get? name = some v →
      bs.get? name = some w → Facing (.object as) (.object bs) v w
  | mapKey {as bs : List (Value X × Value X)} {e f : Value X × Value X} :
      (e, f) ∈ as.zip bs → Facing (.map as) (.map bs) e.1 f.1
  | mapValue {as bs : List (Value X × Value X)} {e f : Value X × Value X} :
      (e, f) ∈ as.zip bs → Facing (.map as) (.map bs) e.2 f.2

theorem Cell.Related.of_facing {R : Value X → Value X → Prop} {c d : Cell X} {v w : Value X}
    (hrel : c.Related R d) (hface : c.Facing d v w) : R v w := by
  cases hface with
  | array hmem =>
    cases hrel with
    | array hitems => exact (List.forall₂_iff_zip.1 hitems).2 hmem
  | set hmem =>
    cases hrel with
    | set hitems => exact (List.forall₂_iff_zip.1 hitems).2 hmem
  | @object as bs name _ _ hv hw =>
    cases hrel with
    | object hnamed =>
      have hname := hnamed name
      rw [hv, hw] at hname
      cases hname
      assumption
  | mapKey hmem =>
    cases hrel with
    | map hentries => exact ((List.forall₂_iff_zip.1 hentries).2 hmem).1
  | mapValue hmem =>
    cases hrel with
    | map hentries => exact ((List.forall₂_iff_zip.1 hentries).2 hmem).2

namespace Heap

/-- To compare two containers of one shape is to compare what they hold, place by place, in the
order of the first. -/
theorem exists_facing {R : Value X → Value X → Prop} {c d : Cell X} (hrel : c.Related R d) :
    ∃ pairs : List (Value X × Value X), pairs.map Prod.fst = c.contents ∧
      (∀ p ∈ pairs, c.Facing d p.1 p.2) ∧
      ∀ agree, cellsAgree agree c d = Comparison.all (fun p => agree p.1 p.2) pairs := by
  cases hrel with
  | @array as bs hitems =>
    have hlen := hitems.length_eq
    refine ⟨as.zip bs, List.map_fst_zip (Nat.le_of_eq hlen), fun p hp => .array hp, fun agree => ?_⟩
    simp [cellsAgree, cellsAgree.listsAgree, hlen]
  | @set as bs hitems =>
    have hlen := hitems.length_eq
    refine ⟨as.zip bs, List.map_fst_zip (Nat.le_of_eq hlen), fun p hp => .set hp, fun agree => ?_⟩
    simp [cellsAgree, cellsAgree.listsAgree, hlen]
  | @object as bs hnamed =>
    have hfound : ∀ e ∈ as.entries, ∃ w, bs.get? e.1 = some w := by
      intro e he
      have hname := hnamed e.1
      rw [(as.get?_eq_some_iff).2 he] at hname
      cases hw : bs.get? e.1 with
      | none =>
        rw [hw] at hname
        cases hname
      | some w => exact ⟨w, rfl⟩
    refine ⟨as.entries.map fun e => (e.2, (bs.get? e.1).getD e.2), ?_, ?_, fun agree => ?_⟩
    · simp [Cell.contents, Cell.slots, Table.values, Function.comp_def]
    · intro p hp
      obtain ⟨e, he, rfl⟩ := List.mem_map.1 hp
      obtain ⟨w, hw⟩ := hfound e he
      refine .object ((as.get?_eq_some_iff).2 he) ?_
      rw [hw, Option.getD_some]
    · simp only [cellsAgree, if_pos (Table.size_eq_of_rel_get? hnamed), Comparison.all_map]
      refine Comparison.all_congr fun e he => ?_
      obtain ⟨w, hw⟩ := hfound e he
      simp only [hw, Option.getD_some]
  | @map as bs hentries =>
    have hlen := hentries.length_eq
    refine ⟨(as.zip bs).flatMap fun p => [(p.1.1, p.2.1), (p.1.2, p.2.2)], ?_, ?_, fun agree => ?_⟩
    · rw [List.map_flatMap, Cell.contents]
      conv_rhs => rw [← List.map_fst_zip (Nat.le_of_eq hlen), List.flatMap_map]
      rfl
    · intro p hp
      obtain ⟨q, hq, hp⟩ := List.mem_flatMap.1 hp
      simp only [List.mem_cons, List.not_mem_nil, or_false] at hp
      rcases hp with rfl | rfl
      · exact .mapKey (e := q.1) (f := q.2) hq
      · exact .mapValue (e := q.1) (f := q.2) hq
    · simp only [cellsAgree, if_pos hlen]
      exact (Comparison.all_flatMap_pair (fun p : Value X × Value X => agree p.1 p.2)
        (fun q : (Value X × Value X) × Value X × Value X => (q.1.1, q.2.1))
        (fun q => (q.1.2, q.2.2)) _).symm

theorem sameKind_of_related {R : Value X → Value X → Prop} {c d : Cell X} (hrel : c.Related R d) :
    sameKind c d = true := by
  cases hrel <;> rfl

/-! ## Comparisons that say yes -/

/-- Under assumptions of a kind the comparison says yes and takes no assumption back. -/
def Affirms (P : Assumed → Prop) (m : Comparison) : Prop :=
  ∀ s, P s → (m.run s).1 = true ∧ s ⊆ (m.run s).2

section Affirms

variable {h : Heap X} {R : Value X → Value X → Prop} {P Q : Assumed → Prop}

theorem affirms_return {b : Bool} (hb : b = true) : Affirms P (return b) := by
  intro s _
  exact ⟨hb, List.Subset.refl s⟩

theorem affirms_andThen {m n : Comparison} (hP : ∀ s t, s ⊆ t → P s → P t) (hm : Affirms P m)
    (hn : Affirms P n) : Affirms P (Comparison.andThen m n) := by
  intro s hs
  obtain ⟨hyes, hst⟩ := hm s hs
  obtain ⟨hyes', htu⟩ := hn _ (hP _ _ hst hs)
  rw [Comparison.run_andThen, if_pos hyes]
  exact ⟨hyes', List.Subset.trans hst htu⟩

theorem affirms_all {α : Type} {agree : α → Comparison} {l : List α}
    (hP : ∀ s t, s ⊆ t → P s → P t) (hall : ∀ a ∈ l, Affirms P (agree a)) :
    Affirms P (Comparison.all agree l) := by
  induction l with
  | nil => exact affirms_return rfl
  | cons a rest ih =>
    obtain ⟨hhead, hrest⟩ := List.forall_mem_cons.1 hall
    exact affirms_andThen hP hhead (ih hrest)

theorem affirms_cellsAgree {agree : Value X → Value X → Comparison} {c d : Cell X}
    (hP : ∀ s t, s ⊆ t → P s → P t) (hrel : c.Related R d)
    (hagree : ∀ v w, c.Facing d v w → R v w → Affirms P (agree v w)) :
    Affirms P (cellsAgree agree c d) := by
  obtain ⟨pairs, _, hface, heq⟩ := exists_facing hrel
  rw [heq]
  refine affirms_all hP fun p hp => hagree _ _ (hface p hp) (hrel.of_facing (hface p hp))

/-- Related values compare equal if the containers do that they lead to through exempt
markers; `D` tells which these are. -/
theorem affirms_agree [DecidableEq X] {nodes : Ref → Ref → Comparison}
    {D : Value X → Value X → Prop} (hR : h.Bisimulation R)
    (hboxed : ∀ y w, R (.boxed (.number y)) w → y.isNaN = false)
    (hD : ∀ v w, D (.exempt v) (.exempt w) → D v w)
    (hnodes : ∀ a b, D (.node a) (.node b) → R (.node a) (.node b) → Affirms P (nodes a b))
    (v w : Value X) (hvw : D v w) (hrel : R v w) : Affirms P (v.agree nodes w) := by
  induction v generalizing w with
  | exempt inner ih =>
    cases hR _ _ hrel with
    | scalar heq => cases heq
    | exempt hinner => exact ih _ (hD _ _ hvw) hinner
  | node a =>
    cases hR _ _ hrel with
    | scalar heq => cases heq
    | node hc hd _ => exact hnodes a _ hvw hrel
  | _ =>
    cases hR _ _ hrel with
    | scalar heq =>
      rw [Value.agree_of_equals nodes heq fun y hy => hboxed y w (hy ▸ hrel)]
      exact affirms_return rfl

/-- Containers of one kind compare equal if they were met, or there is room to compare what is
in them. -/
theorem affirms_nodesAgree [DecidableEq X] {room : Nat} {a b : Ref} {c d : Cell X}
    (hc : h.cell? a = some c) (hd : h.cell? b = some d) (hkind : sameKind c d = true)
    (henter : ∀ s, P s → ¬ (a = b ∨ (a, b) ∈ s) → ∃ left, room = left + 1 ∧ Q ((a, b) :: s) ∧
      Affirms Q (cellsAgree (Value.agree (h.nodesAgree left)) c d)) :
    Affirms P (h.nodesAgree room a b) := by
  intro s hs
  rw [run_nodesAgree]
  simp only [hc, hd, hkind, Bool.true_eq_false, if_false]
  by_cases hmet : a = b ∨ (a, b) ∈ s
  · rw [if_pos hmet]
    exact ⟨rfl, List.Subset.refl s⟩
  · obtain ⟨left, rfl, hs', hcells⟩ := henter s hs hmet
    rw [if_neg hmet]
    obtain ⟨hyes, hsub⟩ := hcells _ hs'
    exact ⟨hyes, List.Subset.trans (List.subset_cons_self _ _) hsub⟩

end Affirms

/-! ## Why the room lasts -/

/-- The pairs that are not yet taken as equal. -/
def fresh (pairs : Finset (Ref × Ref)) (s : Assumed) : Finset (Ref × Ref) :=
  pairs.filter fun p => p ∉ s

/-- If there are no more fresh pairs than room, the comparison says yes and takes no
assumption back. -/
def Settles (pairs : Finset (Ref × Ref)) (room : Nat) (m : Comparison) : Prop :=
  ∀ s, (fresh pairs s).card ≤ room → (m.run s).1 = true ∧ s ⊆ (m.run s).2

section Completeness

variable {R : Value X → Value X → Prop} {pairs : Finset (Ref × Ref)} {room : Nat}

theorem settles_agree [DecidableEq X] {h : Heap X} {nodes : Ref → Ref → Comparison}
    (hR : h.Bisimulation R) (hboxed : ∀ y w, R (.boxed (.number y)) w → y.isNaN = false)
    (hnodes : ∀ a b, R (.node a) (.node b) → Settles pairs room (nodes a b)) (v w : Value X)
    (hvw : R v w) : Settles pairs room (v.agree nodes w) :=
  affirms_agree (D := fun _ _ => True) hR hboxed (fun _ _ _ => trivial)
    (fun a b _ hab => hnodes a b hab) v w trivial hvw

/-- Each level that the comparison enters makes one pair less fresh. -/
theorem settles_nodesAgree [DecidableEq X] {h : Heap X} (hR : h.Bisimulation R)
    (hboxed : ∀ y w, R (.boxed (.number y)) w → y.isNaN = false)
    (hpairs : ∀ a b, R (.node a) (.node b) → (a, b) ∈ pairs) (room : Nat) (a b : Ref)
    (hab : R (.node a) (.node b)) : Settles pairs room (h.nodesAgree room a b) := by
  induction room generalizing a b with
  | zero =>
    cases hR _ _ hab with
    | scalar heq => cases heq
    | node hc hd hrel =>
      refine affirms_nodesAgree (Q := fun _ => True) hc hd (sameKind_of_related hrel)
        fun s hs hnot => ?_
      have hlt := card_notMem_cons_lt (hpairs a b hab) fun hmem => hnot (.inr hmem)
      simp only [fresh] at hs
      omega
  | succ room ih =>
    cases hR _ _ hab with
    | scalar heq => cases heq
    | node hc hd hrel =>
      refine affirms_nodesAgree (Q := fun s => (fresh pairs s).card ≤ room) hc hd
        (sameKind_of_related hrel) fun s hs hnot => ⟨room, rfl, ?_, ?_⟩
      · have hlt := card_notMem_cons_lt (hpairs a b hab) fun hmem => hnot (.inr hmem)
        simp only [fresh] at hs ⊢
        omega
      · exact affirms_cellsAgree (fun _ _ hst => Nat.le_trans (card_notMem_le pairs hst)) hrel
          fun v w _ hvw => settles_agree hR hboxed ih v w hvw

end Completeness

/-! ## The comparison -/

theorem Comparable.finite {h : Heap X} {x : Value X} (hx : h.Comparable x) :
    {r | h.Below x (.node r)}.Finite := by
  apply (Set.finite_lt_nat h.size).subset
  intro r hr
  obtain ⟨c, hc⟩ := hx.closed r hr
  exact lt_size_of_cell? hc

/-- The comparison says yes to bisimilar values only; and it says yes to bisimilar
values if there are no more than 1024 pairs of a container below the one and a
container below the other. -/
theorem structurallyEqual_decides [DecidableEq X] (h : Heap X) (x y : Value X)
    (hx : h.Comparable x) (hy : h.Comparable y) :
    (h.structurallyEqual x y = true → h.Bisimilar x y) ∧
      (h.Bisimilar x y →
        {r | h.Below x (.node r)}.ncard * {r | h.Below y (.node r)}.ncard ≤ 1024 →
          h.structurallyEqual x y = true) := by
  constructor
  · intro hyes
    obtain ⟨hgrown, heq⟩ := justifies_agree (justifies_nodesAgree h _) x y [] hyes
    exact bisimilar_of_grounded hx hgrown heq
  · intro hxy hcard
    obtain ⟨R, hR, hxy⟩ := hxy
    let pairs := hx.finite.toFinset ×ˢ hy.finite.toFinset
    have hpairs : pairs.card ≤ 1024 := by
      rw [Finset.card_product, ← Set.ncard_eq_toFinset_card _ hx.finite,
        ← Set.ncard_eq_toFinset_card _ hy.finite]
      exact hcard
    have hpair : ∀ a b, h.Below x (.node a) ∧ h.Below y (.node b) ∧ R (.node a) (.node b) →
        (a, b) ∈ pairs := fun a b hab => by simp [pairs, hab.1, hab.2.1]
    have hnodes := settles_nodesAgree (hR.below x y) (fun z w hz => hx.boxed z hz.1) hpair 1024
    have hsettles := settles_agree (hR.below x y) (fun z w hz => hx.boxed z hz.1) hnodes x y
      ⟨.root, .root, hxy⟩
    exact (hsettles [] (Nat.le_trans (Finset.card_filter_le _ _) hpairs)).1

/-- A ring of one object, and beside it a ring of two that says the same. -/
def rings : Heap Unit :=
  ⟨#[.object (Table.ofList [("next", .node 0), ("turns", .number ⟨0⟩)]),
    .object (Table.ofList [("turns", .number (Double.neg ⟨0⟩)), ("next", .node 2)]),
    .object (Table.ofList [("next", .node 1), ("turns", .number ⟨0⟩)])]⟩

/-- All that is in `rings`. -/
def ringValues : List (Value Unit) :=
  [.node 0, .node 1, .node 2, .number ⟨0⟩, .number (Double.neg ⟨0⟩)]

theorem mem_ringValues_of_below {x v : Value Unit} (hx : x ∈ ringValues)
    (hv : rings.Below x v) : v ∈ ringValues := by
  have hclosed : ∀ v ∈ ringValues, ∀ u ∈ rings.parts v, u ∈ ringValues := by decide +kernel
  exact hv.mem_of_closed hclosed hx

theorem comparable_rings {x : Value Unit} (hx : x ∈ ringValues) : rings.Comparable x where
  closed r hr := by
    have hlt : r < rings.cells.size := by
      have hmem := mem_ringValues_of_below hx hr
      simp only [ringValues, List.mem_cons, Value.node.injEq, reduceCtorEq, List.not_mem_nil,
        or_false] at hmem
      rcases hmem with rfl | rfl | rfl <;> decide
    exact ⟨_, Array.getElem?_eq_getElem hlt⟩
  boxed y hy := by
    have hmem := mem_ringValues_of_below hx hy
    simp [ringValues] at hmem

theorem ncard_rings_le {x : Value Unit} (hx : x ∈ ringValues) :
    {r | rings.Below x (.node r)}.ncard ≤ 3 := by
  have hsub : {r | rings.Below x (.node r)} ⊆ Finset.range 3 := by
    intro r hr
    obtain ⟨c, hc⟩ := (comparable_rings hx).closed r hr
    exact Finset.mem_coe.2 (Finset.mem_range.2 (lt_size_of_cell? hc))
  have hcard := Set.ncard_le_ncard hsub (Finset.finite_toSet _)
  rwa [Set.ncard_coe_finset, Finset.card_range] at hcard

theorem structurallyEqual_decides_rings :
    rings.Comparable (.node 0) ∧ rings.Comparable (.node 1) ∧
      rings.Bisimilar (.node 0) (.node 1) ∧
      {r | rings.Below (.node 0) (.node r)}.ncard * {r | rings.Below (.node 1) (.node r)}.ncard ≤
        1024 ∧
      rings.structurallyEqual (.node 0) (.node 1) = true := by
  have hx : Value.node 0 ∈ ringValues := by simp [ringValues]
  have hy : Value.node 1 ∈ ringValues := by simp [ringValues]
  have hdecides := structurallyEqual_decides rings (.node 0) (.node 1) (comparable_rings hx)
    (comparable_rings hy)
  have hbisimilar := hdecides.1 (by decide +kernel)
  have hcard := Nat.le_trans (Nat.mul_le_mul (ncard_rings_le hx) (ncard_rings_le hy))
    (show 3 * 3 ≤ 1024 by omega)
  exact ⟨comparable_rings hx, comparable_rings hy, hbisimilar, hcard, hdecides.2 hbisimilar hcard⟩

end Heap

end TypeDescription
