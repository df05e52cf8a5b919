import TypeDescription.Proofs.Graph.Coercion
import TypeDescription.Proofs.Graph.EqualJson

/-!
# Keys as joins

The key of an array is the join of the keys of its elements, and this is said without levels and
without state.

* `Heap.Nests n v`: arrays, sets and exempt markers lie at most `n` deep in one another in `v`, so
  that none of them contains itself.  Such an array has as its key the join of the keys of its
  elements, however often an element occurs elsewhere (`propertyKey_of_nests`), and values with the
  same content have the same key (`propertyKey_of_bisimilar`).
* `Heap.JoinsTo` is the join on cyclic graphs: an array inside its own join adds nothing.  Where
  joins and markers stack at most as deep as the codec goes (`Heap.Stacks`), the key is this join
  (`propertyKey_joins`).  It is not enough that the joins do: a coercion takes a level for each
  marker too, and loses what is behind too many of them (`not_joinsTo_propertyKey_wrapped`).
-/

namespace TypeDescription

variable {X : Type}

/-- What an element adds to a join: nothing if it is null or undefined, else its text. -/
def Value.share : Value X → String → String
  | .undefined, _ => ""
  | .null, _ => ""
  | _, text => text

namespace Heap

variable {h : Heap X} {n room : Nat} {refs : List Ref} {r : Ref} {items : List (Value X)}
  {v w : Value X}

/-- A value that is no exempt marker, no array and no set: its key is not that of something in
it. -/
def IsAtomic (h : Heap X) : Value X → Prop
  | .exempt _ => False
  | .node r => h.joined? r = none
  | _ => True

/-- Arrays, sets and exempt markers lie at most so many deep in one another. -/
inductive Nests (h : Heap X) : Nat → Value X → Prop
  | atomic {n : Nat} {v : Value X} (hv : h.IsAtomic v) : Nests h n v
  | exempt {n : Nat} {v : Value X} (hv : Nests h n v) : Nests h (n + 1) (.exempt v)
  | join {n : Nat} {r : Ref} {items : List (Value X)} (hitems : h.joined? r = some items)
      (hall : ∀ item ∈ items, Nests h n item) : Nests h (n + 1) (.node r)

/-- Inside the joins of some containers, at most so many levels stack up before a container is
inside its own join.  A further join takes one level, an exempt marker takes `marker` levels. -/
inductive Stacks (h : Heap X) (marker : Nat) : Nat → List Ref → Value X → Prop
  | atomic {n : Nat} {refs : List Ref} {v : Value X} (hv : h.IsAtomic v) : Stacks h marker n refs v
  | exempt {n : Nat} {refs : List Ref} {v : Value X} (hv : Stacks h marker n refs v) :
      Stacks h marker (n + marker) refs (.exempt v)
  | again {n : Nat} {refs : List Ref} {r : Ref} (hr : r ∈ refs) : Stacks h marker n refs (.node r)
  | join {n : Nat} {refs : List Ref} {r : Ref} {items : List (Value X)}
      (hitems : h.joined? r = some items)
      (hall : ∀ item ∈ items, Stacks h marker n (r :: refs) item) :
      Stacks h marker (n + 1) refs (.node r)

/-- The key of a value inside the joins of some containers. -/
inductive JoinsTo (h : Heap X) : List Ref → Value X → String → Prop
  | atomic {refs : List Ref} {v : Value X} (hv : h.IsAtomic v) : JoinsTo h refs v (h.propertyKey v)
  | exempt {refs : List Ref} {v : Value X} {text : String} (hv : JoinsTo h refs v text) :
      JoinsTo h refs (.exempt v) text
  /-- An array inside its own join adds nothing. -/
  | again {refs : List Ref} {r : Ref} {items : List (Value X)} (hitems : h.joined? r = some items)
      (hr : r ∈ refs) : JoinsTo h refs (.node r) ""
  | join {refs : List Ref} {r : Ref} {items : List (Value X)} (hitems : h.joined? r = some items)
      (hr : r ∉ refs) (text : Value X → String)
      (htext : ∀ item ∈ items, JoinsTo h (r :: refs) item (text item)) :
      JoinsTo h refs (.node r) (",".intercalate (items.map fun item => item.share (text item)))

/-! ## One level -/

theorem not_isAtomic_node (hitems : h.joined? r = some items) : ¬ h.IsAtomic (.node r) := by
  intro hatomic
  have hnone : h.joined? r = none := hatomic
  rw [hitems] at hnone
  cases hnone

theorem keyText_atomic (hv : h.IsAtomic v) (room room' : Nat) (refs refs' : List Ref) :
    h.keyText room refs v = h.keyText room' refs' v := by
  cases v with
  | exempt inner => exact absurd hv id
  | node r =>
    have hr : h.joined? r = none := hv
    simp only [keyText, hr]
  | _ => simp only [keyText]

theorem keyText_eq_propertyKey (hv : h.IsAtomic v) (room : Nat) (refs : List Ref) :
    h.keyText room refs v = h.propertyKey v := by
  rw [propertyKey_eq]
  exact keyText_atomic hv _ _ _ _

theorem keyText_exempt (h : Heap X) (room : Nat) (refs : List Ref) (v : Value X) :
    h.keyText (room + 1) refs (.exempt v) = h.keyText room refs v := by
  simp only [keyText]

theorem keyText_again (hitems : h.joined? r = some items) (hr : r ∈ refs) (room : Nat) :
    h.keyText room refs (.node r) = "" := by
  unfold keyText
  rw [hitems]
  exact if_pos (List.contains_iff_mem.2 hr)

theorem keyText_join (hitems : h.joined? r = some items) (hr : r ∉ refs) (room : Nat) :
    h.keyText (room + 1) refs (.node r) =
      ",".intercalate (items.map fun item => item.share (h.keyText room (r :: refs) item)) := by
  rw [keyText, hitems]
  dsimp only
  rw [if_neg (by simpa using hr)]
  refine congrArg _ (List.map_congr_left fun item _ => ?_)
  cases item <;> rfl

/-! ## Nesting -/

theorem Nests.of_le {m : Nat} (hv : h.Nests n v) (hle : n ≤ m) : h.Nests m v := by
  induction hv generalizing m with
  | atomic hv => exact .atomic hv
  | exempt _ ih =>
    cases m with
    | zero => omega
    | succ m => exact .exempt (ih (by omega))
  | join hitems _ ih =>
    cases m with
    | zero => omega
    | succ m => exact .join hitems fun item hitem => ih item hitem (by omega)

theorem Nests.of_join (hitems : h.joined? r = some items) (hr : h.Nests (n + 1) (.node r)) :
    ∀ item ∈ items, h.Nests n item := by
  cases hr with
  | atomic hatomic => exact absurd hatomic (not_isAtomic_node hitems)
  | join hitems' hall =>
    obtain rfl := Option.some.inj (hitems.symm.trans hitems')
    exact hall

/-- Where nothing is inside itself, as much stacks up as nests. -/
theorem Nests.stacks (hv : h.Nests n v) (refs : List Ref) : h.Stacks 1 n refs v := by
  induction hv generalizing refs with
  | atomic hatomic => exact .atomic hatomic
  | exempt _ ih => exact .exempt (ih refs)
  | @join n r items hitems _ ih => exact .join hitems fun item hmem => ih item hmem (r :: refs)

/-- An array nests so many levels deep and no fewer. -/
theorem Nests.exists_least (hitems : h.joined? r = some items) (hr : h.Nests n (.node r)) :
    ∃ m, m + 1 ≤ n ∧ h.Nests (m + 1) (.node r) ∧ ¬ h.Nests m (.node r) := by
  induction n with
  | zero =>
    cases hr with
    | atomic hatomic => exact absurd hatomic (not_isAtomic_node hitems)
  | succ n ih =>
    by_cases hless : h.Nests n (.node r)
    · obtain ⟨m, hm, hleast⟩ := ih hless
      exact ⟨m, by omega, hleast⟩
    · exact ⟨n, by omega, hr, hless⟩

/-- What nests too shallow to hold any of the containers around it has its text whatever is around
it, in as many levels as it takes. -/
theorem Nests.keyText_eq (hv : h.Nests n v) (hrefs : ∀ r ∈ refs, ¬ h.Nests n (.node r))
    (hroom : n ≤ room) : h.keyText room refs v = h.keyText n [] v := by
  induction n generalizing v refs room with
  | zero =>
    cases hv with
    | atomic hv => exact keyText_atomic hv _ _ _ _
  | succ n ih =>
    have hless : ∀ r ∈ refs, ¬ h.Nests n (.node r) :=
      fun r hr hn => hrefs r hr (hn.of_le (Nat.le_succ n))
    by_cases hsmall : h.Nests n v
    · rw [ih hsmall hless (by omega), ih hsmall (by simp) (Nat.le_succ n)]
    · obtain ⟨room, rfl⟩ : ∃ k, room = k + 1 := ⟨room - 1, by omega⟩
      cases hv with
      | atomic hv => exact absurd (.atomic hv) hsmall
      | exempt hv =>
        rw [keyText_exempt, keyText_exempt]
        exact ih hv hless (by omega)
      | @join _ r items hitems hall =>
        have hr : r ∉ refs := fun hr => hrefs r hr (.join hitems hall)
        -- no element holds the array, which nests deeper than each of them
        have hitem : ∀ item ∈ items, ∀ refs' : List Ref, (∀ r' ∈ refs', ¬ h.Nests n (.node r')) →
            ∀ k, n ≤ k → h.keyText k (r :: refs') item = h.keyText n [] item := by
          intro item hmem refs' hrefs' k hk
          refine ih (hall item hmem) (fun r' hr' => ?_) hk
          rcases List.mem_cons.1 hr' with rfl | hr'
          · exact hsmall
          · exact hrefs' r' hr'
        rw [keyText_join hitems hr, keyText_join hitems (by simp)]
        refine congrArg _ (List.map_congr_left fun item hmem => congrArg _ ?_)
        rw [hitem item hmem refs hless room (by omega),
          hitem item hmem [] (by simp) n (Nat.le_refl n)]

/-- What nests within the levels that are left has its text in more levels too. -/
theorem Nests.keyText_room (hv : h.Nests n v) (hroom : n ≤ room) :
    h.keyText room [] v = h.keyText n [] v :=
  hv.keyText_eq (by simp) hroom

/-- An array that nests within the levels that are left is the join of its elements, each on its
own. -/
theorem Nests.keyText_node (hitems : h.joined? r = some items) (hr : h.Nests n (.node r)) :
    h.keyText n [] (.node r) =
      ",".intercalate (items.map fun item => item.share (h.keyText n [] item)) := by
  obtain ⟨m, hm, hleast, hless⟩ := Nests.exists_least hitems hr
  obtain ⟨k, rfl⟩ : ∃ k, n = k + 1 := ⟨n - 1, by omega⟩
  rw [keyText_join hitems (by simp)]
  refine congrArg _ (List.map_congr_left fun item hmem => congrArg _ ?_)
  have hitem : h.Nests m item := hleast.of_join hitems item hmem
  have halone : ∀ r' ∈ [r], ¬ h.Nests m (.node r') := by simpa using hless
  exact (hitem.keyText_eq halone (by omega)).trans (hitem.keyText_room (by omega)).symm

/-- A marker that nests within the levels that are left has the text of what it marks. -/
theorem Nests.keyText_marked (hv : h.Nests n (.exempt v)) :
    h.keyText n [] (.exempt v) = h.keyText n [] v := by
  cases hv with
  | atomic hatomic => exact absurd hatomic id
  | exempt hv => rw [keyText_exempt, hv.keyText_room (Nat.le_succ _)]

/-! ## Content -/

section Content

variable {R : Value X → Value X → Prop} {a b : Ref}

/-- Of two related containers none is joined, or both are and their elements are related. -/
theorem joined?_related {c d : Cell X} (ha : h.cell? a = some c) (hb : h.cell? b = some d)
    (hrel : c.Related R d) :
    (h.joined? a = none ∧ h.joined? b = none) ∨
      ∃ items items', h.joined? a = some items ∧ h.joined? b = some items' ∧
        List.Forall₂ R items items' := by
  unfold joined?
  rw [ha, hb]
  cases hrel with
  | array hitems => exact .inr ⟨_, _, rfl, rfl, hitems⟩
  | set hitems => exact .inr ⟨_, _, rfl, rfl, hitems⟩
  | object _ => exact .inl ⟨rfl, rfl⟩
  | map _ => exact .inl ⟨rfl, rfl⟩

theorem share_eq_of_matches (hmatch : h.Matches R v w) (text : String) :
    v.share text = w.share text := by
  cases hmatch with
  | scalar heq => cases heq <;> rfl
  | exempt _ => rfl
  | node _ _ _ => rfl

theorem keyText_of_equals (heq : v.Equals w) (room : Nat) (refs : List Ref) :
    h.keyText room refs v = h.keyText room refs w := by
  refine keyText_of_equalUnder (t := []) (.scalar heq) ?_ room refs
  cases heq <;> rfl

/-- An array nests as deep as another one and has its text, if this holds of their elements. -/
theorem Nests.node_of_related (hR : h.Bisimulation R) {items items' : List (Value X)}
    (ha : h.joined? a = some items) (hb : h.joined? b = some items')
    (hall : ∀ item ∈ items, h.Nests n item) (hitems : List.Forall₂ R items items')
    (hrel : ∀ item ∈ items, ∀ w, R item w → h.Nests n w ∧ h.keyText n [] item = h.keyText n [] w) :
    h.Nests (n + 1) (.node b) ∧
      h.keyText (n + 1) [] (.node a) = h.keyText (n + 1) [] (.node b) := by
  have hboth : List.Forall₂ (fun w v => h.Nests n w ∧
      v.share (h.keyText (n + 1) [] v) = w.share (h.keyText (n + 1) [] w)) items' items := by
    refine List.Forall₂.flip (forall₂_imp_of_mem hitems fun v hv w _ hvw => ?_)
    obtain ⟨hw, htext⟩ := hrel v hv w hvw
    refine ⟨hw, ?_⟩
    rw [share_eq_of_matches (hR v w hvw), (hall v hv).keyText_room (Nat.le_succ n),
      hw.keyText_room (Nat.le_succ n), htext]
  obtain ⟨hall', htexts⟩ := (List.forall₂_and_left _ _).1 hboth
  have hnode : h.Nests (n + 1) (.node b) := .join hb hall'
  refine ⟨hnode, ?_⟩
  rw [(Nests.join ha hall).keyText_node ha, hnode.keyText_node hb]
  refine congrArg _ (List.forall₂_eq_eq_eq ▸ ?_)
  exact List.forall₂_map_left_iff.2 (List.forall₂_map_right_iff.2 htexts.flip)

/-- Related values nest equally deep and have one text. -/
theorem Nests.keyText_of_related (hR : h.Bisimulation R) (hv : h.Nests n v) (hvw : R v w) :
    h.Nests n w ∧ h.keyText n [] v = h.keyText n [] w := by
  induction hv generalizing w with
  | @atomic n v hatomic =>
    cases hR v w hvw with
    | scalar heq =>
      refine ⟨.atomic ?_, keyText_of_equals heq n []⟩
      cases heq <;> trivial
    | exempt _ => exact absurd hatomic id
    | @node a b c d ha hb hrel =>
      rcases joined?_related ha hb hrel with ⟨hnone, hnone'⟩ | ⟨_, _, hsome, _⟩
      · refine ⟨.atomic hnone', ?_⟩
        simp only [keyText, hnone, hnone']
      · exact absurd hatomic (not_isAtomic_node hsome)
  | exempt hv ih =>
    cases hR _ w hvw with
    | scalar heq => cases heq
    | exempt hinner =>
      obtain ⟨hw, htext⟩ := ih hinner
      refine ⟨.exempt hw, ?_⟩
      rw [keyText_exempt, keyText_exempt, htext]
  | @join n a items hitems hall ih =>
    cases hR _ w hvw with
    | scalar heq => cases heq
    | @node _ b c d ha hb hrel =>
      rcases joined?_related ha hb hrel with ⟨hnone, _⟩ | ⟨_, items', hsome, hb', hrelated⟩
      · simp [hitems] at hnone
      · obtain rfl := Option.some.inj (hitems.symm.trans hsome)
        exact Nests.node_of_related hR hitems hb' hall hrelated fun item hmem _ => ih item hmem

end Content

/-! ## Cycles -/

/-- Where joins and markers stack within the levels that are left, the text is the join. -/
theorem Stacks.joinsTo (hv : h.Stacks 1 n refs v) (hroom : n ≤ room) :
    h.JoinsTo refs v (h.keyText room refs v) := by
  induction hv generalizing room with
  | @atomic n refs v hatomic =>
    rw [keyText_eq_propertyKey hatomic]
    exact .atomic hatomic
  | exempt _ ih =>
    obtain ⟨room, rfl⟩ : ∃ k, room = k + 1 := ⟨room - 1, by omega⟩
    rw [keyText_exempt]
    exact .exempt (ih (by omega))
  | @again n refs r hr =>
    cases hitems : h.joined? r with
    | none =>
      have hatomic : h.IsAtomic (.node r) := hitems
      rw [keyText_eq_propertyKey hatomic]
      exact .atomic hatomic
    | some items =>
      rw [keyText_again hitems hr]
      exact .again hitems hr
  | @join n refs r items hitems _ ih =>
    by_cases hr : r ∈ refs
    · rw [keyText_again hitems hr]
      exact .again hitems hr
    · obtain ⟨room, rfl⟩ : ∃ k, room = k + 1 := ⟨room - 1, by omega⟩
      rw [keyText_join hitems hr]
      exact .join hitems hr _ fun item hmem => ih item hmem (by omega)

/-- A value joins to one text. -/
theorem JoinsTo.unique {text text' : String} (hv : h.JoinsTo refs v text)
    (hv' : h.JoinsTo refs v text') : text = text' := by
  induction hv generalizing text' with
  | @atomic refs v hatomic =>
    cases hv' with
    | atomic _ => rfl
    | exempt _ => exact absurd hatomic id
    | again hitems _ => exact absurd hatomic (not_isAtomic_node hitems)
    | join hitems _ _ _ => exact absurd hatomic (not_isAtomic_node hitems)
  | exempt _ ih =>
    cases hv' with
    | atomic hatomic => exact absurd hatomic id
    | exempt hinner => exact ih hinner
  | again hitems hr =>
    cases hv' with
    | atomic hatomic => exact absurd hatomic (not_isAtomic_node hitems)
    | again _ _ => rfl
    | join _ hr' _ _ => exact absurd hr hr'
  | @join refs r items hitems hr text _ ih =>
    cases hv' with
    | atomic hatomic => exact absurd hatomic (not_isAtomic_node hitems)
    | again _ hr' => exact absurd hr' hr
    | @join _ _ items' hitems' _ text' htext' =>
      obtain rfl := Option.some.inj (hitems.symm.trans hitems')
      refine congrArg _ (List.map_congr_left fun item hmem => congrArg _ ?_)
      exact ih item hmem (htext' item hmem)

/-! ## Keys -/

theorem joined?_eq_some_iff :
    h.joined? r = some items ↔ h.cell? r = some (.array items) ∨ h.cell? r = some (.set items) := by
  unfold joined?
  rcases h.cell? r with _ | _ | _ | _ | _ <;> simp

theorem propertyKey_of_nests (hitems : h.joined? r = some items) (hr : h.Nests 1024 (.node r)) :
    h.propertyKey (.node r) =
      ",".intercalate (items.map fun item => item.share (h.propertyKey item)) := by
  simp only [propertyKey_eq]
  exact hr.keyText_node hitems

theorem propertyKey_exempt (hv : h.Nests 1024 (.exempt v)) :
    h.propertyKey (.exempt v) = h.propertyKey v := by
  rw [propertyKey_eq, propertyKey_eq]
  exact hv.keyText_marked

theorem propertyKey_of_bisimilar (hv : h.Nests 1024 v) (hvw : h.Bisimilar v w) :
    h.propertyKey v = h.propertyKey w := by
  obtain ⟨R, hR, hrel⟩ := hvw
  rw [propertyKey_eq, propertyKey_eq]
  exact (hv.keyText_of_related hR hrel).2

theorem propertyKey_keyed (hcell : (∃ properties, h.cell? r = some (.object properties)) ∨
    ∃ entries, h.cell? r = some (.map entries)) : h.propertyKey (.node r) = "[object Object]" := by
  rw [propertyKey_eq]
  rcases hcell with ⟨_, hcell⟩ | ⟨_, hcell⟩
  · simp only [keyText, joined?, hcell]
  · simp only [keyText, joined?, hcell]

/-- The key of a value is a join, and depends on what is in the value only.

* A coercion ends, however often it may recurse, with no level entered and nothing open.
* The key of an array or a set that nests at most 1024 deep is the join of the keys of its elements.
  Null and undefined add nothing, a marker adds what it marks, and an object or a map has one text
  for all.
* Values with the same content have the same key, if they nest at most 1024 deep.
* On cyclic graphs, where joins and markers stack at most 1024 deep, the key is the join in which an
  array inside its own join adds nothing. -/
theorem propertyKey_joins (h : Heap X) :
    (∀ v room, DepthProfile.codec.limit.toNat ≤ room → ∃ met,
      (h.coerce room v).run ⟨.ofLimit DepthProfile.codec.limit, []⟩ =
        (h.propertyKey v, ⟨⟨DepthProfile.codec.limit, 0, met⟩, []⟩)) ∧
    (∀ r items, h.cell? r = some (.array items) ∨ h.cell? r = some (.set items) →
      h.Nests 1024 (.node r) → h.propertyKey (.node r) =
        ",".intercalate (items.map fun item => item.share (h.propertyKey item))) ∧
    (∀ v, h.Nests 1024 (.exempt v) → h.propertyKey (.exempt v) = h.propertyKey v) ∧
    (∀ r, ((∃ properties, h.cell? r = some (.object properties)) ∨
        ∃ entries, h.cell? r = some (.map entries)) →
      h.propertyKey (.node r) = "[object Object]") ∧
    (∀ v w, h.Nests 1024 v → h.Bisimilar v w → h.propertyKey v = h.propertyKey w) ∧
    ∀ v, h.Stacks 1 1024 [] v → ∀ text, h.JoinsTo [] v text ↔ text = h.propertyKey v := by
  refine ⟨fun v room hroom => ?_, fun r items hcell hr => ?_, fun v hv => propertyKey_exempt hv,
    fun r hcell => propertyKey_keyed hcell, fun v w hv hvw => propertyKey_of_bisimilar hv hvw,
    fun v hv text => ?_⟩
  · rw [propertyKey_eq]
    exact h.run_coerce v hroom
  · exact propertyKey_of_nests (joined?_eq_some_iff.2 hcell) hr
  · have hjoins : h.JoinsTo [] v (h.propertyKey v) := by
      rw [propertyKey_eq]
      exact hv.joinsTo (Nat.le_refl _)
    constructor
    · intro htext
      exact htext.unique hjoins
    · intro htext
      rw [htext]
      exact hjoins

/-- A row that holds a set twice and itself.  The set holds an object twice, where its copy holds
two objects. -/
def row : Heap Unit :=
  ⟨#[.array [.bool true, .node 1, .undefined, .exempt (.node 1), .node 0],
    .set [.null, .exempt .null, .node 2, .node 2], .object .empty,
    .set [.null, .exempt .null, .node 4, .node 2], .object .empty]⟩

theorem propertyKey_joins_row :
    row.Nests 1024 (.node 1) ∧ row.Bisimilar (.node 1) (.node 3) ∧ row.Stacks 1 1024 [] (.node 0) ∧
      row.propertyKey (.node 3) = ",null,[object Object],[object Object]" ∧
      row.JoinsTo [] (.node 0)
        "true,,null,[object Object],[object Object],,,null,[object Object],[object Object]," := by
  have hset : row.Nests 2 (.node 1) := by
    refine .join rfl ?_
    simp only [List.forall_mem_cons, List.not_mem_nil, false_imp_iff, implies_true, and_true]
    exact ⟨.atomic trivial, .exempt (.atomic trivial), .atomic rfl, .atomic rfl⟩
  have hset' : row.Nests 1024 (.node 1) := hset.of_le (by omega)
  have hrow : row.Stacks 1 1024 [] (.node 0) := by
    have hinner : row.Stacks 1 1022 [0] (.node 1) := (hset.of_le (by omega)).stacks [0]
    have hitem : row.Stacks 1 1023 [0] (.node 1) := (hset.of_le (by omega)).stacks [0]
    refine .join rfl ?_
    simp only [List.forall_mem_cons, List.not_mem_nil, false_imp_iff, implies_true, and_true]
    exact ⟨.atomic trivial, hitem, .atomic trivial, .exempt hinner, .again List.mem_cons_self⟩
  have hcopy : row.Bisimilar (.node 1) (.node 3) := by
    refine ⟨fun v w => (v, w) ∈ [(.node 1, .node 3), (.null, .null),
      (.exempt .null, .exempt .null), (.node 2, .node 4), (.node 2, .node 2)], ?_, by simp⟩
    intro v w hmem
    simp only [List.mem_cons, Prod.mk.injEq, List.not_mem_nil, or_false] at hmem
    rcases hmem with ⟨rfl, rfl⟩ | ⟨rfl, rfl⟩ | ⟨rfl, rfl⟩ | ⟨rfl, rfl⟩ | ⟨rfl, rfl⟩
    · exact .node rfl rfl (.set (by simp))
    · exact .scalar .null
    · exact .exempt (by simp)
    · exact .node rfl rfl (.object fun _ => .none)
    · exact .node rfl rfl (.object fun _ => .none)
  obtain ⟨_, hjoin, _, _, hcontent, hcycle⟩ := propertyKey_joins row
  refine ⟨hset', hcopy, hrow, ?_, (hcycle _ hrow _).2 (by decide +kernel)⟩
  rw [← hcontent _ _ hset' hcopy, hjoin 1 _ (.inr rfl) hset']
  decide +kernel

/-! ## Markers -/

/-- No text is left of what is behind more markers than there are levels. -/
theorem keyText_iterate_exempt (h : Heap X) (room : Nat) (refs : List Ref) (v : Value X) :
    h.keyText room refs (Value.exempt^[room + 1] v) = "" := by
  induction room with
  | zero =>
    show h.keyText 0 refs (.exempt v) = ""
    simp only [keyText]
  | succ room ih => rw [Function.iterate_succ_apply', keyText_exempt, ih]

/-- An array that holds itself, and a text behind so many markers. -/
def wrapped (count : Nat) : Heap Unit :=
  ⟨#[.array [.node 0, Value.exempt^[count] (.string "x")]]⟩

/-- One join stacks up in the array, but the markers in it take more levels than the join leaves. -/
theorem not_joinsTo_propertyKey_wrapped :
    (wrapped 1024).Stacks 0 1024 [] (.node 0) ∧ (wrapped 1024).JoinsTo [] (.node 0) ",x" ∧
      (wrapped 1024).propertyKey (.node 0) = "," ∧
      ¬ (wrapped 1024).JoinsTo [] (.node 0) ((wrapped 1024).propertyKey (.node 0)) := by
  have hitems : (wrapped 1024).joined? 0 =
      some [.node 0, .exempt (Value.exempt^[1023] (.string "x"))] := by
    rw [← Function.iterate_succ_apply' Value.exempt 1023]
    rfl
  have htext : (wrapped 1024).IsAtomic (.string "x") := trivial
  have hstacks : (wrapped 1024).Stacks 0 1024 [] (.node 0) := by
    refine .join hitems (List.forall_mem_cons.2 ⟨.again List.mem_cons_self, ?_⟩)
    have hmarked : (wrapped 1024).Stacks 0 1023 [0] (Value.exempt^[1023] (.string "x")) :=
      Function.Iterate.rec ((wrapped 1024).Stacks 0 1023 [0]) (.atomic htext)
        (fun _ => Stacks.exempt) 1023
    exact List.forall_mem_singleton.2 (.exempt hmarked)
  have hjoin : (wrapped 1024).JoinsTo [] (.node 0) ",x" := by
    have hmarked : (wrapped 1024).JoinsTo [0] (Value.exempt^[1023] (.string "x")) "x" :=
      Function.Iterate.rec (fun v => (wrapped 1024).JoinsTo [0] v "x") (.atomic htext)
        (fun _ => JoinsTo.exempt) 1023
    have hself : (wrapped 1024).JoinsTo [0] (.node 0) "" := .again hitems List.mem_cons_self
    exact .join hitems List.not_mem_nil (fun item => if item.isContainer then "" else "x")
      (List.forall_mem_cons.2 ⟨hself, List.forall_mem_singleton.2 (.exempt hmarked)⟩)
  have hkey : (wrapped 1024).propertyKey (.node 0) = "," := by
    have hlost : (wrapped 1024).keyText 1023 [0] (.exempt (Value.exempt^[1023] (.string "x"))) =
        "" := by
      rw [← Function.iterate_succ_apply' Value.exempt]
      exact keyText_iterate_exempt _ 1023 [0] _
    rw [propertyKey_eq, show DepthProfile.codec.limit.toNat = 1023 + 1 from rfl,
      keyText_join hitems List.not_mem_nil, List.map_cons, List.map_singleton,
      keyText_again hitems List.mem_cons_self, hlost]
    rfl
  refine ⟨hstacks, hjoin, hkey, fun hjoin' => ?_⟩
  rw [hkey] at hjoin'
  exact absurd (hjoin.unique hjoin') (by decide)

end Heap

end TypeDescription
