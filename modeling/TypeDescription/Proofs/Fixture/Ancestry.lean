import Mathlib.Logic.Relation
import TypeDescription.Fixture.Program
import TypeDescription.Proofs.Run

/-!
# Ancestors of types

The parents of a class or interface are its bases, and the parent of a reference is its target.
`Program.checkAncestors` accepts some types if the ancestors of each come to an end, and else names
a type that is its own ancestor (`checkAncestors_concludes`), from whichever types it starts.

The walks share their marks.  `Marks.Grows` is what one walk does to them: the types on the way stay
the same, and more types are done.  `Marks.Settled` is the invariant: the ancestors of a type that
is done come to an end.  A type on the way has the walked type among its ancestors, so to come back
to it closes a cycle.

Where the ancestors of all types come to an end, a recursion over parents needs no more steps than
there are types (`ancestry_induct`).
-/

namespace TypeDescription

namespace Program

variable {p : Program} {id parent : TypeId}

/-! ## Parents -/

/-- A type has another one as a parent. -/
def HasParent (p : Program) (id parent : TypeId) : Prop :=
  parent ∈ p.parents id

/-- The ancestors of a type come to an end. -/
def Grounded (p : Program) (id : TypeId) : Prop :=
  Acc (Function.swap p.HasParent) id

/-- The identities of the declared types. -/
def declaredIds (p : Program) : Finset TypeId :=
  (p.types.map TypeEntry.id).toFinset

theorem type?_eq_none_iff : p.type? id = none ↔ id ∉ p.declaredIds := by
  simp [type?, declaredIds]

theorem mem_declaredIds_iff : id ∈ p.declaredIds ↔ ∃ entry, p.type? id = some entry := by
  rw [← Option.ne_none_iff_exists', ne_eq, type?_eq_none_iff, not_not]

theorem card_declaredIds_le (p : Program) : p.declaredIds.card ≤ p.types.length := by
  simpa [declaredIds] using List.toFinset_card_le (p.types.map TypeEntry.id)

/-- A type without a declaration has no parents. -/
theorem HasParent.declared (h : p.HasParent id parent) : id ∈ p.declaredIds := by
  by_contra hid
  rw [HasParent, parents, shape?, type?_eq_none_iff.2 hid] at h
  cases h

/-- Only types with a declaration have parents. -/
theorem grounded_of_declared (h : ∀ id ∈ p.declaredIds, p.Grounded id) (id : TypeId) :
    p.Grounded id := by
  by_cases hid : id ∈ p.declaredIds
  · exact h id hid
  · exact .intro id fun parent (hparent : p.HasParent id parent) => absurd hparent.declared hid

theorem Grounded.not_ancestor (h : p.Grounded id) : ¬ Relation.TransGen p.HasParent id id := by
  intro hself
  rw [← Relation.transGen_swap] at hself
  have hended : Acc (Relation.TransGen (Function.swap p.HasParent)) id := Acc.transGen h
  clear h
  induction hended with
  | intro other _ ih => exact ih other hself hself

/-! ## Marks -/

namespace Marks

variable {marks marks' marks'' : Marks}

/-- What a walk does to the marks: the types on the way stay the same, and more types are done. -/
structure Grows (marks marks' : Marks) : Prop where
  onWay : ∀ id, marks'.lookup id = some false ↔ marks.lookup id = some false
  done : ∀ id, marks.lookup id = some true → marks'.lookup id = some true

/-- The ancestors of all types that are done come to an end. -/
def Settled (p : Program) (marks : Marks) : Prop :=
  ∀ id, marks.lookup id = some true → p.Grounded id

theorem lookup_cons_of_ne (marks : Marks) {id other : TypeId} (b : Bool) (h : other ≠ id) :
    List.lookup other ((id, b) :: marks) = marks.lookup other := by
  rw [List.lookup_cons, beq_eq_false_iff_ne.2 h]

theorem Grows.refl (marks : Marks) : Grows marks marks :=
  ⟨fun _ => .rfl, fun _ h => h⟩

theorem Grows.trans (h : Grows marks marks') (h' : Grows marks' marks'') : Grows marks marks'' :=
  ⟨fun id => (h'.onWay id).trans (h.onWay id), fun id hid => h'.done id (h.done id hid)⟩

/-- What is marked stays marked. -/
theorem Grows.lookup_eq_none (h : Grows marks marks') (hid : marks'.lookup id = none) :
    marks.lookup id = none := by
  match hmark : marks.lookup id with
  | none => rfl
  | some true => cases hid.symm.trans (h.done id hmark)
  | some false => cases hid.symm.trans ((h.onWay id).2 hmark)

/-- What is marked stays marked, so there is no more left. -/
theorem Grows.card_le (h : Grows marks marks') (ids : Finset TypeId) :
    (ids.filter fun id => marks'.lookup id = none).card ≤
      (ids.filter fun id => marks.lookup id = none).card :=
  Finset.card_le_card (Finset.monotone_filter_right ids fun _ _ hid => h.lookup_eq_none hid)

/-- With one more mark there is less left. -/
theorem card_cons_lt {ids : Finset TypeId} (b : Bool) (hid : id ∈ ids)
    (hmark : marks.lookup id = none) :
    (ids.filter fun other => List.lookup other ((id, b) :: marks) = none).card <
      (ids.filter fun other => marks.lookup other = none).card := by
  apply Finset.card_lt_card
  refine (Finset.ssubset_iff_of_subset ?_).2
    ⟨id, Finset.mem_filter.2 ⟨hid, hmark⟩, by simp⟩
  refine Finset.monotone_filter_right ids fun other _ hother => ?_
  rcases eq_or_ne other id with rfl | hne
  · exact hmark
  · rwa [lookup_cons_of_ne marks b hne] at hother

theorem Settled.enter (h : Settled p marks) (id : TypeId) :
    Settled p ((id, false) :: marks) := by
  intro other hother
  rcases eq_or_ne other id with rfl | hne
  · simp at hother
  · exact h other (by rwa [lookup_cons_of_ne marks false hne] at hother)

/-- A type is done when its parents are. -/
theorem Settled.leave (h : Settled p marks)
    (hparents : ∀ parent ∈ p.parents id, marks.lookup parent = some true) :
    Settled p ((id, true) :: marks) := by
  intro other hother
  rcases eq_or_ne other id with rfl | hne
  · exact .intro other fun parent hparent => h parent (hparents parent hparent)
  · exact h other (by rwa [lookup_cons_of_ne marks true hne] at hother)

/-- A type that was on the way during a walk and is done after it only adds to what is done. -/
theorem Grows.leave (h : Grows ((id, false) :: marks) marks') (hmark : marks.lookup id = none) :
    Grows marks ((id, true) :: marks') := by
  constructor
  · intro other
    rcases eq_or_ne other id with rfl | hne
    · simp [hmark]
    · rw [lookup_cons_of_ne marks' true hne, h.onWay, lookup_cons_of_ne marks false hne]
  · intro other hother
    rcases eq_or_ne other id with rfl | hne
    · simp
    · rw [lookup_cons_of_ne marks' true hne]
      exact h.done other (by rwa [lookup_cons_of_ne marks false hne])

end Marks

/-! ## Walks -/

section Walk

variable {marks marks' : Marks} {room : Nat} {ids : List TypeId}

theorem run_visit_done (inner : StateT Marks (Except FixtureError) Unit)
    (h : marks.lookup id = some true) : (visit id inner).run marks = .ok ((), marks) := by
  simp only [visit, StateT.run_bind, StateT.run_get, pure_bind, h]
  rfl

theorem run_visit_onWay (inner : StateT Marks (Except FixtureError) Unit)
    (h : marks.lookup id = some false) :
    (visit id inner).run marks = .error (.cyclicBases id) := by
  simp only [visit, StateT.run_bind, StateT.run_get, pure_bind, h]
  rfl

theorem run_visit_new (inner : StateT Marks (Except FixtureError) Unit)
    (h : marks.lookup id = none) :
    (visit id inner).run marks =
      (fun result => ((), (id, true) :: result.2)) <$> inner.run ((id, false) :: marks) := by
  simp only [visit, StateT.run_bind, StateT.run_get, pure_bind, h, StateT.run_modify]
  rfl

/-- How a walk over some types ends: all of them are done, or a type is found to be its own
ancestor. -/
def Walked (p : Program) (ids : List TypeId) (marks : Marks) :
    Except FixtureError (Unit × Marks) → Prop :=
  Concludes
    (fun result => marks.Grows result.2 ∧ result.2.Settled p ∧
      ∀ id ∈ ids, result.2.lookup id = some true)
    fun e => ∃ id, e = .cyclicBases id ∧ Relation.TransGen p.HasParent id id

/-- Types are walked one after the other; the marks of one walk serve the next. -/
theorem walked_forM {walk : TypeId → StateT Marks (Except FixtureError) Unit}
    (hwalk : ∀ id ∈ ids, ∀ marks', marks.Grows marks' → marks'.Settled p →
      Walked p [id] marks' ((walk id).run marks'))
    (hsettled : marks.Settled p) : Walked p ids marks ((ids.forM walk).run marks) := by
  induction ids generalizing marks with
  | nil => exact .ok ⟨.refl marks, hsettled, nofun⟩
  | cons id ids ih =>
    show Walked p _ marks ((walk id >>= fun _ => ids.forM walk).run marks)
    rw [StateT.run_bind]
    have hhead := hwalk id List.mem_cons_self marks (.refl marks) hsettled
    refine hhead.bind fun ⟨_, marks'⟩ ⟨hgrows, hsettled', hdone⟩ => ?_
    have htail := ih (fun other hother marks'' hgrows' =>
      hwalk other (List.mem_cons_of_mem id hother) marks'' (hgrows.trans hgrows')) hsettled'
    refine htail.imp (fun _ ⟨hgrows', hsettled'', hdone'⟩ => ?_) fun _ he => he
    refine ⟨hgrows.trans hgrows', hsettled'', List.forall_mem_cons.2 ⟨?_, hdone'⟩⟩
    exact hgrows'.done id (hdone id List.mem_cons_self)

/-- A visit ends as the walk over the parents does; a type on the way that is visited again is its
own ancestor. -/
theorem walked_visit {inner : StateT Marks (Except FixtureError) Unit}
    (hsettled : marks.Settled p)
    (hway : marks.lookup id = some false → Relation.TransGen p.HasParent id id)
    (hinner : marks.lookup id = none → Marks.Settled p ((id, false) :: marks) →
      Walked p (p.parents id) ((id, false) :: marks) (inner.run ((id, false) :: marks))) :
    Walked p [id] marks ((visit id inner).run marks) := by
  match hmark : marks.lookup id with
  | some true =>
    rw [run_visit_done inner hmark]
    exact .ok ⟨.refl marks, hsettled, by simpa using hmark⟩
  | some false =>
    rw [run_visit_onWay inner hmark]
    exact .error ⟨id, rfl, hway hmark⟩
  | none =>
    rw [run_visit_new inner hmark]
    refine (hinner hmark ?_).map fun ⟨_, marks'⟩ ⟨hgrows, hsettled', hdone⟩ => ⟨?_, ?_, by simp⟩
    · exact hsettled.enter id
    · exact hgrows.leave hmark
    · exact hsettled'.leave hdone

/-- The walk over a type and its ancestors, where the types on the way have the type among their
ancestors and there is room for all types that are not marked. -/
theorem walked_walkAncestors
    (hclosed : ∀ id parent, p.HasParent id parent → parent ∈ p.declaredIds)
    (hid : id ∈ p.declaredIds) (hsettled : marks.Settled p)
    (hway : ∀ other, marks.lookup other = some false → Relation.TransGen p.HasParent other id)
    (hroom : (p.declaredIds.filter fun other => marks.lookup other = none).card ≤ room) :
    Walked p [id] marks ((p.walkAncestors room id).run marks) := by
  induction room generalizing id marks with
  | zero =>
    refine walked_visit hsettled (hway id) fun hmark _ => ?_
    have hempty := Finset.card_eq_zero.1 (Nat.le_zero.1 hroom)
    exact absurd (Finset.mem_filter.2 ⟨hid, hmark⟩) (hempty ▸ Finset.notMem_empty id)
  | succ room ih =>
    refine walked_visit hsettled (hway id) fun hmark hentered => ?_
    refine walked_forM (fun parent hparent marks' hgrows hsettled' => ?_) hentered
    refine ih (hclosed id parent hparent) hsettled' (fun other hother => ?_) ?_
    · -- on the way are the type itself and what was on the way to it
      rw [hgrows.onWay] at hother
      rcases eq_or_ne other id with rfl | hne
      · exact .single hparent
      · rw [Marks.lookup_cons_of_ne marks false hne] at hother
        exact (hway other hother).tail hparent
    · have hless := Marks.card_cons_lt false hid hmark
      have hle := hgrows.card_le p.declaredIds
      omega

/-- From whichever types it starts, the check accepts if the ancestors of each come to an end, and
else it names a type that is its own ancestor. -/
theorem checkAncestors_concludes
    (hclosed : ∀ id parent, p.HasParent id parent → parent ∈ p.declaredIds)
    (hids : ∀ id ∈ ids, id ∈ p.declaredIds) :
    Concludes (fun _ => ∀ id ∈ ids, p.Grounded id)
      (fun e => ∃ id, e = .cyclicBases id ∧ Relation.TransGen p.HasParent id id)
      (p.checkAncestors ids) := by
  have hwalked : Walked p ids [] ((ids.forM (p.walkAncestors p.types.length)).run []) := by
    refine walked_forM (fun id hid marks hgrows hsettled => ?_) nofun
    refine walked_walkAncestors hclosed (hids id hid) hsettled (fun other hother => ?_) ?_
    · -- between the walks nothing is on the way
      cases (hgrows.onWay other).1 hother
    · exact (Finset.card_filter_le _ _).trans p.card_declaredIds_le
  rw [checkAncestors, StateT.run'_eq]
  exact hwalked.map fun _ ⟨_, hsettled, hdone⟩ id hid => hsettled id (hdone id hid)

end Walk

/-! ## Recursion over parents -/

private theorem ancestry_induct_way {C : Nat → TypeId → Prop} (hgrounded : ∀ id, p.Grounded id)
    (hstep : ∀ fuel id,
      (∀ parent, p.HasParent id parent → ∃ less, fuel = less + 1 ∧ C less parent) → C fuel id)
    (fuel : Nat) (id : TypeId) (way : List TypeId)
    (hway : ∀ other ∈ way, Relation.TransGen p.HasParent other id)
    (hfuel : (p.declaredIds.filter (· ∉ way)).card ≤ fuel) : C fuel id := by
  have hnew : id ∉ way := fun hid => (hgrounded id).not_ancestor (hway id hid)
  induction fuel generalizing id way with
  | zero =>
    refine hstep 0 id fun parent hparent => ?_
    have hempty := Finset.card_eq_zero.1 (Nat.le_zero.1 hfuel)
    exact absurd (Finset.mem_filter.2 ⟨hparent.declared, hnew⟩) (hempty ▸ Finset.notMem_empty id)
  | succ fuel ih =>
    refine hstep (fuel + 1) id fun parent hparent => ⟨fuel, rfl, ?_⟩
    have hway' : ∀ other ∈ id :: way, Relation.TransGen p.HasParent other parent := by
      intro other hother
      rcases List.mem_cons.1 hother with rfl | hother
      · exact .single hparent
      · exact (hway other hother).tail hparent
    have hless := card_notMem_cons_lt hparent.declared hnew
    exact ih parent (id :: way) hway' (by omega) fun hback =>
      (hgrounded parent).not_ancestor (hway' parent hback)

/-- Where the ancestors of all types come to an end, what a recursion over parents says of a type
and some fuel holds with as much fuel as there are types: the types on the way up differ. -/
theorem ancestry_induct {C : Nat → TypeId → Prop} (hgrounded : ∀ id, p.Grounded id)
    (hstep : ∀ fuel id,
      (∀ parent, p.HasParent id parent → ∃ less, fuel = less + 1 ∧ C less parent) → C fuel id)
    (id : TypeId) : C p.types.length id := by
  refine ancestry_induct_way hgrounded hstep _ id [] nofun ?_
  exact (Finset.card_filter_le _ _).trans p.card_declaredIds_le

end Program

end TypeDescription
