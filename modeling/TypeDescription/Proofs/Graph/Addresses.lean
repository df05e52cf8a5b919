import Mathlib.Logic.Function.Basic
import TypeDescription.Graph.Decode
import TypeDescription.Proofs.Graph.Tour

/-!
# Positions in containers

An `Address` is a position in a container; decoding reads and writes values at addresses and
leaves all else of a container as it is.  `Cell.outline` is what it leaves: the kind, the length
and the names, without the values.

* `Heap.Retains` says that two heaps have the same outlines.  A step of a path leads to an
  address by the outline alone (`Heap.address?`), so it leads to the same one in both.
* `Heap.resolveIn` follows a path by addresses, with any values at them; `Heap.along` are the
  addresses that the path comes to.  This is `Heap.resolve` where no maps are reached
  (`Retains.resolve_eq`): their keys are not part of the values at positions.
-/

namespace TypeDescription

variable {X : Type}

theorem Value.ref?_eq_some_iff {v : Value X} {r : Ref} : v.ref? = some r ↔ v = .node r := by
  cases v <;> simp [ref?]

/-! ## Outlines -/

theorem Table.values_setAt {α : Type} (t : Table α) (i : Nat) (value : α) :
    (t.setAt i value).values = t.values.set i value := by
  have hset : ∀ (entries : List (String × α)) (i : Nat),
      (setEntry value i entries).map Prod.snd = (entries.map Prod.snd).set i value := by
    intro entries
    induction entries with
    | nil => intro i; cases i <;> rfl
    | cons entry rest ih => intro i; cases i <;> simp [setEntry, ih]
  exact hset t.entries i

/-- The value under a name is the one in its place. -/
theorem Table.get?_eq_values {α : Type} (t : Table α) (key : String) :
    t.get? key = (t.keys.idxOf? key).bind (t.values[·]?) := by
  have hfind : ∀ entries : List (String × α),
      (entries.find? fun entry => entry.1 == key).map Prod.snd =
        ((entries.map Prod.fst).idxOf? key).bind ((entries.map Prod.snd)[·]?) := by
    intro entries
    rw [List.find?_eq_bind_findIdx?_getElem?, List.idxOf?, List.findIdx?_map, Option.map_bind]
    congr 1
    funext i
    exact (List.getElem?_map ..).symm
  exact hfind t.entries

theorem Table.entries_map_const {α β : Type} (t : Table α) (b : β) :
    (t.map fun _ => b).entries = t.keys.map (·, b) := by
  simp [map, keys]

namespace Cell

/-- A container without the values at its positions: its kind, its length and its names. -/
def outline : Cell X → Cell X
  | .array items => .array (items.map fun _ => .null)
  | .set items => .set (items.map fun _ => .null)
  | .object properties => .object (properties.map fun _ => .null)
  | .map entries => .map (entries.map fun entry => (entry.1, .null))

/-- The position that a step leads to. -/
def index? (c : Cell X) (step : Step) : Option Nat :=
  match c with
  | .array _ => step.elementIndex?
  | .set _ => step.elementIndex?
  | .object properties => properties.keys.idxOf? step.name
  | .map _ => none

theorem slots_setSlot (c : Cell X) (i : Nat) (v : Value X) :
    (c.setSlot i v).slots = c.slots.set i v := by
  cases c with
  | array items => rfl
  | set items => rfl
  | object properties => exact properties.values_setAt i v
  | map entries =>
    apply List.ext_getElem?
    intro j
    simp only [slots, setSlot, List.getElem?_map, List.getElem?_modify, List.getElem?_set,
      List.length_map]
    by_cases hij : i = j
    · subst hij
      cases hi : entries[i]? with
      | none => simp [List.getElem?_eq_none_iff.1 hi]
      | some entry => simp [(List.getElem?_eq_some_iff.1 hi).1]
    · cases entries[j]? <;> simp [hij]

theorem outline_setSlot (c : Cell X) (i : Nat) (v : Value X) :
    (c.setSlot i v).outline = c.outline := by
  cases c with
  | array items => simp [setSlot, outline]
  | set items => simp [setSlot, outline]
  | object properties =>
    refine congrArg Cell.object (Table.eq_of_entries ?_)
    rw [Table.entries_map_const, Table.entries_map_const, Table.keys_setAt]
  | map entries =>
    refine congrArg Cell.map (List.ext_getElem? fun j => ?_)
    rw [List.getElem?_map, List.getElem?_map, List.getElem?_modify]
    cases entries[j]? with
    | none => rfl
    | some entry => by_cases hij : i = j <;> simp [hij]

theorem length_slots_outline (c : Cell X) : c.outline.slots.length = c.slots.length := by
  cases c <;> simp [outline, slots, Table.map, Table.values]

theorem index?_outline (c : Cell X) (step : Step) : c.outline.index? step = c.index? step := by
  cases c with
  | object properties => simp [outline, index?, Table.map, Table.keys, Function.comp_def]
  | _ => rfl

end Cell

/-! ## Addresses -/

/-- A position in a container. -/
abbrev Address : Type :=
  Ref × Nat

namespace Heap

/-- The value at an address. -/
def read? (h : Heap X) (p : Address) : Option (Value X) :=
  (h.slots p.1)[p.2]?

/-- The path text and the path of the token at an address. -/
def token? (h : Heap X) (p : Address) : Option (String × Path) :=
  (h.read? p).bind h.tokenPath?

/-- The address that a step from a value leads to, whether there is a value or not. -/
def address? (h : Heap X) (v : Value X) (step : Step) : Option Address :=
  v.ref?.bind fun r => ((h.cell? r).bind (·.index? step)).map (r, ·)

/-- The address is that of the property `$ref` of its container. -/
def IsRefSlot (h : Heap X) (p : Address) : Prop :=
  h.address? (.node p.1) (.key refKey) = some p

instance (h : Heap X) (p : Address) : Decidable (h.IsRefSlot p) :=
  inferInstanceAs (Decidable (_ = _))

/-- The value at the end of a path, with the values at positions as given. -/
def resolveIn (h : Heap X) (held : Address → Option (Value X)) (root : Value X) (path : Path) :
    Option (Value X) :=
  path.foldlM (fun v step => (h.address? v step).bind held) root

/-- The addresses that a path comes to after the root, with the values at positions as given. -/
def along (h : Heap X) (held : Address → Option (Value X)) : Value X → Path → List Address
  | _, [] => []
  | v, step :: rest =>
    match h.address? v step with
    | none => []
    | some p => p :: ((held p).map fun w => along h held w rest).getD []

/-! ### What writing does -/

/-- The second heap has the containers of the first, with other values in them at most. -/
def Retains (h k : Heap X) : Prop :=
  ∀ r, (k.cell? r).map Cell.outline = (h.cell? r).map Cell.outline

section Retains

variable {h k k' : Heap X}

theorem Retains.refl (h : Heap X) : h.Retains h :=
  fun _ => rfl

theorem Retains.trans (hk : h.Retains k) (hk' : k.Retains k') : h.Retains k' :=
  fun r => (hk' r).trans (hk r)

theorem retains_setSlot (h : Heap X) (r : Ref) (i : Nat) (v : Value X) :
    h.Retains (h.setSlot r i v) := by
  intro s
  by_cases hs : s = r
  · subst hs
    cases hc : h.cell? s with
    | none => simp [setSlot, hc]
    | some c => simp [cell?_setSlot_self i v hc, Cell.outline_setSlot]
  · rw [cell?_setSlot_of_ne i v hs]

theorem Retains.length_slots (hk : h.Retains k) (r : Ref) :
    (k.slots r).length = (h.slots r).length := by
  have hlength : ∀ h : Heap X, (h.slots r).length =
      (((h.cell? r).map Cell.outline).map fun c => c.slots.length).getD 0 := by
    intro h
    unfold slots
    cases h.cell? r <;> simp [Cell.length_slots_outline]
  rw [hlength k, hk r, hlength h]

theorem Retains.address?_eq (hk : h.Retains k) (v : Value X) (step : Step) :
    k.address? v step = h.address? v step := by
  have hindex : ∀ (h : Heap X) (r : Ref), (h.cell? r).bind (·.index? step) =
      ((h.cell? r).map Cell.outline).bind (·.index? step) := by
    intro h r
    cases h.cell? r <;> simp [Cell.index?_outline]
  unfold Retains at hk
  simp only [address?, hindex, hk]

theorem Retains.resolveIn_eq (hk : h.Retains k) (held : Address → Option (Value X))
    (root : Value X) (path : Path) : k.resolveIn held root path = h.resolveIn held root path := by
  simp only [resolveIn, hk.address?_eq]

end Retains

/-- To write at an address changes the value there and no other. -/
theorem read?_setSlot {h : Heap X} {p : Address} {v : Value X} (hp : h.read? p ≠ none) :
    (h.setSlot p.1 p.2 v).read? = Function.update h.read? p (some v) := by
  obtain ⟨r, i⟩ := p
  obtain ⟨c, hc⟩ : ∃ c, h.cell? r = some c := by
    cases hc : h.cell? r with
    | none => simp [read?, slots, hc] at hp
    | some c => exact ⟨c, rfl⟩
  have hi : i < c.slots.length := by
    by_contra hi
    simp [read?, slots, hc, Nat.le_of_not_lt hi] at hp
  funext q
  obtain ⟨s, j⟩ := q
  by_cases hs : s = r
  · subst hs
    by_cases hj : j = i
    · subst hj
      simp [read?, slots, cell?_setSlot_self j v hc, Cell.slots_setSlot, hi]
    · rw [Function.update_of_ne (by simp [hj])]
      simp [read?, slots, cell?_setSlot_self i v hc, Cell.slots_setSlot, hc,
        List.getElem?_set_ne (Ne.symm hj)]
  · rw [Function.update_of_ne (by simp [hs])]
    simp [read?, slots, cell?_setSlot_of_ne i v hs]

/-! ### Following paths -/

section Follow

variable {h k : Heap X} {held held' : Address → Option (Value X)} {root v w : Value X}
  {path : Path}

/-- A step into anything but a map reads an address. -/
theorem step?_eq_read? (h : Heap X) (v : Value X) (step : Step)
    (hmap : ∀ r entries, v = .node r → h.cell? r ≠ some (.map entries)) :
    h.step? v step = (h.address? v step).bind h.read? := by
  cases v with
  | node r =>
    simp only [step?, content?, address?, Value.ref?, Option.bind_some]
    cases hc : h.cell? r with
    | none => rfl
    | some c =>
      have hslots : h.slots r = c.slots := by simp [slots, hc]
      cases c with
      | map entries => exact absurd hc (hmap r entries rfl)
      | object properties =>
        simp only [Table.get?_eq_values, Option.bind_some, Cell.index?, Option.bind_map,
          Function.comp_def, read?, hslots, Cell.slots]
      | _ =>
        simp only [Option.bind_some, Cell.index?, Option.bind_map, Function.comp_def, read?,
          hslots, Cell.slots]
  | _ => rfl

/-- The value under `$ref` is read at its address. -/
theorem get?_refKey_eq_read? (h : Heap X) (v : Value X) :
    h.get? v refKey = (h.address? v (.key refKey)).bind h.read? := by
  cases v with
  | node r =>
    simp only [get?, content?, address?, Value.ref?, Option.bind_some]
    cases hc : h.cell? r with
    | none => rfl
    | some c =>
      have hnone : (Step.key refKey).elementIndex? = none := by decide
      have hslots : h.slots r = c.slots := by simp [slots, hc]
      cases c with
      | object properties =>
        simp only [Table.get?_eq_values, Option.bind_some, Cell.index?, Option.bind_map,
          Function.comp_def, read?, hslots, Cell.slots, Step.name]
      | _ => simp [Cell.index?, hnone]
  | _ => rfl

theorem resolveIn_cons (step : Step) (rest : Path) :
    h.resolveIn held v (step :: rest) =
      ((h.address? v step).bind held).bind fun w => h.resolveIn held w rest :=
  List.foldlM_cons ..

/-- Only the values at the addresses that it comes to say where a path leads. -/
theorem resolveIn_congr (heq : ∀ p ∈ h.along held v path, held p = held' p) :
    h.resolveIn held v path = h.resolveIn held' v path := by
  induction path generalizing v with
  | nil => rfl
  | cons step rest ih =>
    rw [resolveIn_cons, resolveIn_cons]
    cases hp : h.address? v step with
    | none => rfl
    | some p =>
      simp only [along, hp, List.forall_mem_cons] at heq
      simp only [Option.bind_some, ← heq.1]
      cases hw : held p with
      | none => rfl
      | some w => exact ih (by simpa [hw] using heq.2)

/-- What holds of each value that a path comes to after the root holds at its end. -/
theorem resolveIn_induct {P : Value X → Prop}
    (hstep : ∀ u step p w, u = v ∨ P u → h.address? u step = some p → p ∈ h.along held v path →
      held p = some w → P w)
    (hw : h.resolveIn held v path = some w) : path = [] ∧ w = v ∨ P w := by
  -- the path that is left, from a value that the path came to
  have hrest : ∀ (rest : Path) (u : Value X), u = v ∨ P u →
      h.along held u rest ⊆ h.along held v path → h.resolveIn held u rest = some w →
        rest = [] ∧ w = u ∨ P w := by
    intro rest
    induction rest with
    | nil => exact fun u _ _ hw => .inl ⟨rfl, (Option.some.inj hw).symm⟩
    | cons step rest ih =>
      intro u hu hsub hw
      rw [resolveIn_cons, Option.bind_eq_some_iff] at hw
      obtain ⟨u', hu', hw⟩ := hw
      obtain ⟨p, hp, hu'⟩ := Option.bind_eq_some_iff.1 hu'
      simp only [along, hp, hu', Option.map_some, Option.getD_some] at hsub
      have hP := hstep u step p u' hu hp (hsub List.mem_cons_self) hu'
      rcases ih u' (.inr hP) (List.subset_of_cons_subset hsub) hw with ⟨_, rfl⟩ | hw
      · exact .inr hP
      · exact .inr hw
  exact hrest path v (.inl rfl) (List.Subset.refl _) hw

theorem address?_eq_some {step : Step} {p : Address} (hp : h.address? v step = some p) :
    v = .node p.1 := by
  unfold address? at hp
  obtain ⟨r, hr, hp⟩ := Option.bind_eq_some_iff.1 hp
  obtain ⟨i, _, rfl⟩ := Option.map_eq_some_iff.1 hp
  exact Value.ref?_eq_some_iff.1 hr

/-- Following a path is reading at addresses, where it comes to no map. -/
theorem resolve_eq_resolveIn {P : Ref → Prop}
    (hmaps : ∀ r entries, P r → h.cell? r ≠ some (.map entries))
    (hread : ∀ p s, P p.1 → h.read? p = some (.node s) → P s) (hv : ∀ r, v = .node r → P r) :
    h.resolve v path = h.resolveIn h.read? v path := by
  induction path generalizing v with
  | nil => rfl
  | cons step rest ih =>
    have hstep := step?_eq_read? h v step fun r entries hr => hmaps r entries (hv r hr)
    rw [resolveIn_cons, ← hstep]
    show (h.step? v step).bind (fun w => h.resolve w rest) = _
    cases hw : h.step? v step with
    | none => rfl
    | some w =>
      obtain ⟨p, hp, hw⟩ := Option.bind_eq_some_iff.1 (hstep ▸ hw)
      refine ih fun s hs => hread p s (hv _ (address?_eq_some hp)) ?_
      rw [hw, hs]

end Follow

end Heap

end TypeDescription
