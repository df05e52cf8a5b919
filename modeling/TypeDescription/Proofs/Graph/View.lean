import Mathlib.Data.List.Forall2
import Mathlib.Data.List.Nodup
import TypeDescription.Graph.Resolve
import TypeDescription.Proofs.Graph.Heap
import TypeDescription.Proofs.Path

/-!
# Containers as walks see them

`View.slots` lists the values of a container, each with the step that leads to
it, and `View.fill` puts other values in their places.  `Heap.Reaches` is
reachability through slots; exempt values are not entered.

`Heap.Fills` describes a container by the view it was made from and a relation
between the slots of the view and the values in their places.  The lemmas about
it say what reading and writing one slot does: `Fills.getElem?`, `Fills.step?`,
`Fills.get?` and `Fills.setSlot`.
-/

namespace TypeDescription

variable {X : Type}

/-! ## Values and what is behind exempt markers -/

theorem Value.exists_eq_node {v : Value X} (hv : v.isContainer = true) : ∃ r, v = .node r := by
  cases v <;> cases hv
  exact ⟨_, rfl⟩

theorem Value.unwrap_unwrap (v : Value X) : v.unwrap.unwrap = v.unwrap := by
  induction v with
  | exempt inner ih => exact ih
  | _ => rfl

theorem Value.unwrap_of_plain {v : Value X} (hplain : v.exempt? = none) : v.unwrap = v := by
  cases v with
  | exempt inner => cases hplain
  | _ => rfl

theorem Value.exempt?_unwrap (v : Value X) : v.unwrap.exempt? = none := by
  induction v with
  | exempt inner ih => exact ih
  | _ => rfl

/-! ## Steps to elements -/

namespace Step

theorem toDigits_injective {i j : Nat} (h : Nat.toDigits 10 i = Nat.toDigits 10 j) : i = j := by
  rw [← foldDigits_toDigits i, h, foldDigits_toDigits]

/-- Two positions have two steps. -/
theorem ofIndex_injective : Function.Injective ofIndex := by
  intro i j h
  simp only [ofIndex] at h
  split_ifs at h with hi hj hj
  · simp only [index.injEq] at h
    have hto := congrArg UInt64.toNat h
    rw [UInt64.toNat_ofNat_of_lt' hi, UInt64.toNat_ofNat_of_lt' hj] at hto
    exact hto
  · simp only [key.injEq, String.ofList_inj] at h
    exact toDigits_injective h

/-- The elements of a list stand at different steps. -/
theorem nodup_indices {α : Type} (items : List α) :
    ((items.zipIdx.map fun (item, i) => (ofIndex i, item)).map Prod.fst).Nodup := by
  have hsteps : (items.zipIdx.map fun (item, i) => (ofIndex i, item)).map Prod.fst =
      (List.range items.length).map ofIndex := by
    simp only [List.map_map, List.range_eq_range', ← List.zipIdx_map_snd 0 items]
    rfl
  rw [hsteps]
  exact List.nodup_range.map ofIndex_injective

/-- Fields of different names stand at different steps. -/
theorem nodup_keys {α : Type} {fields : List (String × α)} (h : (fields.map Prod.fst).Nodup) :
    ((fields.map fun (name, field) => (key name, field)).map Prod.fst).Nodup := by
  have hsteps : (fields.map fun (name, field) => (key name, field)).map Prod.fst =
      (fields.map Prod.fst).map key := by
    simp [Function.comp_def]
  rw [hsteps]
  exact h.map fun a b hab => key.inj hab

private theorem unsigned_toDigits (i : Nat) : unsigned (Nat.toDigits 10 i) = Nat.toDigits 10 i := by
  have hall : ∀ c ∈ Nat.toDigits 10 i, c.isDigit :=
    fun c hc => Nat.isDigit_of_mem_toDigits (by decide) (by decide) hc
  cases hd : Nat.toDigits 10 i with
  | nil => rfl
  | cons c cs =>
    rw [hd] at hall
    have hc : c ≠ '+' := by
      intro heq
      subst heq
      exact absurd (hall _ List.mem_cons_self) (by decide)
    simp [unsigned, hc]

/-- The step to a position addresses the element there. -/
theorem elementIndex?_ofIndex (i : Nat) : (ofIndex i).elementIndex? = some i := by
  unfold ofIndex
  split_ifs with hi
  · simp only [elementIndex?]
    rw [UInt64.toNat_ofNat_of_lt' hi]
  · have hall : (Nat.toDigits 10 i).all Char.isDigit := by
      rw [List.all_eq_true]
      exact fun c hc => Nat.isDigit_of_mem_toDigits (by decide) (by decide) hc
    simp only [elementIndex?, String.toList_ofList, unsigned_toDigits, hall, Bool.and_true,
      foldDigits_toDigits]
    rw [if_pos]
    simp

end Step

/-! ## Slots -/

namespace View

/-- The names under which the values stand; a list has none. -/
def names : View X → List String
  | .list _ => []
  | .named fields => fields.map Prod.fst

/-- The values in order. -/
def values : View X → List (Value X)
  | .list items => items
  | .named fields => fields.map Prod.snd

/-- The values in order, each with the step that leads to it. -/
def slots : View X → List (Step × Value X)
  | .list items => items.zipIdx.map fun (item, i) => (.ofIndex i, item)
  | .named fields => fields.map fun (key, item) => (.key key, item)

/-- The array or object that holds other values in the places of a view. -/
def fill (values : List (Value X)) : View X → Cell X
  | .list _ => .array values
  | .named fields => .object (Table.ofList ((fields.map Prod.fst).zip values))

theorem slots_snd (view : View X) : view.slots.map Prod.snd = view.values := by
  cases view with
  | list items => simp [slots, values, Function.comp_def]
  | named fields => simp [slots, values, Function.comp_def]

theorem length_slots (view : View X) : view.slots.length = view.values.length := by
  rw [← slots_snd, List.length_map]

theorem mem_values_of_mem_slots {view : View X} {slot : Step × Value X}
    (h : slot ∈ view.slots) : slot.2 ∈ view.values := by
  rw [← slots_snd]
  exact List.mem_map_of_mem h

/-- Distinct names are distinct steps. -/
theorem nodup_steps {view : View X} (h : view.names.Nodup) :
    (view.slots.map Prod.fst).Nodup := by
  cases view with
  | list items => exact Step.nodup_indices items
  | named fields => exact Step.nodup_keys h

theorem entries_fill {fields : List (String × Value X)} {us : List (Value X)}
    (hnames : (View.named fields).names.Nodup) (hlen : us.length = (named fields).slots.length) :
    (Table.ofList ((fields.map Prod.fst).zip us)).entries = (fields.map Prod.fst).zip us :=
  Table.entries_ofList_zip hnames (by simpa [slots] using hlen)

/-- A filled container holds what it was filled with. -/
theorem slots_fill {view : View X} {us : List (Value X)} (hnames : view.names.Nodup)
    (hlen : us.length = view.slots.length) : (view.fill us).slots = us := by
  cases view with
  | list items => rfl
  | named fields =>
    simp only [fill, Cell.slots, Table.values, entries_fill hnames hlen]
    exact List.map_snd_zip (by simpa [slots] using Nat.le_of_eq hlen)

/-- To replace a value of a filled container is to fill it with one value
replaced. -/
theorem setSlot_fill {view : View X} {us : List (Value X)} (hnames : view.names.Nodup)
    (hlen : us.length = view.slots.length) (i : Nat) (u : Value X) :
    (view.fill us).setSlot i u = view.fill (us.set i u) := by
  cases view with
  | list items => rfl
  | named fields =>
    have hlen' : (us.set i u).length = (named fields).slots.length := by simpa using hlen
    simp only [fill, Cell.setSlot, Cell.object.injEq]
    apply Table.eq_of_entries
    simp only [Table.setAt, entries_fill hnames hlen, entries_fill hnames hlen',
      Table.setEntry_zip]

end View

/-! ## Reachable containers -/

namespace Heap

theorem values_view (h : Heap X) (r : Ref) : (h.view r).values = h.slots r := by
  unfold view slots
  cases h.cell? r with
  | none => rfl
  | some c => cases c <;> simp [viewCell, View.values, Cell.slots, Table.values, Function.comp_def]

/-- The containers that a walk from a value meets.  A missing container counts
as an empty list, and exempt values are not entered. -/
inductive Reaches (h : Heap X) (root : Value X) : Ref → Prop
  /-- A container reaches itself. -/
  | root {r : Ref} : root = .node r → Reaches h root r
  /-- A container reaches the containers inside it. -/
  | step {r s : Ref} : Reaches h root r → .node s ∈ (h.view r).values → Reaches h root s

/-- What a value in a container reaches, the container reaches. -/
theorem Reaches.of_value {h : Heap X} {root value : Value X} {r s : Ref}
    (hr : h.Reaches root r) (hv : value ∈ (h.view r).values) (hs : h.Reaches value s) :
    h.Reaches root s := by
  induction hs with
  | root he =>
    subst he
    exact .step hr hv
  | step _ hmem ih => exact .step ih hmem

/-- No map below a value has two keys of one name. -/
def DistinctKeys (h : Heap X) (x : Value X) : Prop :=
  ∀ r entries, h.Reaches x r → h.cell? r = some (.map entries) →
    (entries.map fun entry => h.propertyKey entry.1).Nodup

/-- The names in a container are distinct: those of an object always are. -/
theorem DistinctKeys.names_nodup {h : Heap X} {x : Value X} (hkeys : h.DistinctKeys x) {r : Ref}
    (hr : h.Reaches x r) : (h.view r).names.Nodup := by
  unfold view
  cases hcell : h.cell? r with
  | none => simp [View.names]
  | some c =>
    cases c with
    | array items => simp [viewCell, View.names]
    | set items => simp [viewCell, View.names]
    | object properties => exact properties.keys_nodup
    | map entries =>
      have hnodup := hkeys r entries hr hcell
      simpa [viewCell, View.names, Function.comp_def] using hnodup

/-- A property of an object is a named value there. -/
theorem view_of_get? {k : Heap X} {r : Ref} {name : String} {v : Value X}
    (h : k.get? (.node r) name = some v) :
    ∃ fields, k.view r = .named fields ∧ (name, v) ∈ fields := by
  simp only [get?, content?] at h
  unfold view
  cases hcell : k.cell? r with
  | none => simp [hcell] at h
  | some c =>
    cases c with
    | object properties =>
      rw [hcell] at h
      exact ⟨properties.entries, rfl, (Table.get?_eq_some_iff _).1 h⟩
    | _ => simp [hcell] at h

/-! ## Filled containers -/

/-- A container has the shape of a view, and each of its values is related to
the slot of the view in whose place it stands. -/
def Fills (k : Heap X) (q : Ref) (view : View X)
    (rel : Nat → Step × Value X → Value X → Prop) : Prop :=
  ∃ us, k.cell? q = some (view.fill us) ∧ us.length = view.slots.length ∧
    ∀ i slot u, view.slots[i]? = some slot → us[i]? = some u → rel i slot u

section Fills

variable {k : Heap X} {q : Ref} {view : View X}
  {rel rel' : Nat → Step × Value X → Value X → Prop}

/-- A container keeps what it holds where its content stays. -/
theorem Fills.mono {k' : Heap X} (h : k.Fills q view rel)
    (hcell : ∀ c, k.cell? q = some c → k'.cell? q = some c)
    (hrel : ∀ i slot u, view.slots[i]? = some slot → rel i slot u → rel' i slot u) :
    k'.Fills q view rel' := by
  obtain ⟨us, hus, hlen, hall⟩ := h
  exact ⟨us, hcell _ hus, hlen, fun i slot u hi hu => hrel i slot u hi (hall i slot u hi hu)⟩

theorem Fills.of_forall₂ {us : List (Value X)} {rel : Step × Value X → Value X → Prop}
    (hcell : k.cell? q = some (view.fill us)) (h : List.Forall₂ rel view.slots us) :
    k.Fills q view fun _ => rel := by
  refine ⟨us, hcell, h.length_eq.symm, ?_⟩
  intro i slot u hslot hu
  obtain ⟨hi, rfl⟩ := List.getElem?_eq_some_iff.1 hslot
  obtain ⟨hi', rfl⟩ := List.getElem?_eq_some_iff.1 hu
  exact h.get hi hi'

theorem Fills.exists_rel (h : k.Fills q view rel) {i : Nat} {slot : Step × Value X}
    (hslot : view.slots[i]? = some slot) : ∃ u, rel i slot u := by
  obtain ⟨us, _, hlen, hall⟩ := h
  have hi : i < us.length := hlen ▸ (List.getElem?_eq_some_iff.1 hslot).1
  exact ⟨us[i], hall i slot _ hslot (List.getElem?_eq_getElem hi)⟩

/-- The values of a filled container are as many as the slots of its view. -/
theorem Fills.length_slots (h : k.Fills q view rel) (hnames : view.names.Nodup) :
    (k.slots q).length = view.slots.length := by
  obtain ⟨us, hcell, hlen, _⟩ := h
  simp only [slots, hcell, Option.map_some, Option.getD_some, View.slots_fill hnames hlen, hlen]

/-- In the place of a slot stands a value related to it. -/
theorem Fills.getElem? (h : k.Fills q view rel) (hnames : view.names.Nodup) {i : Nat}
    {slot : Step × Value X} (hslot : view.slots[i]? = some slot) :
    ∃ u, (k.slots q)[i]? = some u ∧ rel i slot u := by
  obtain ⟨us, hcell, hlen, hall⟩ := h
  have hi : i < us.length := by
    rw [hlen]
    exact (List.getElem?_eq_some_iff.1 hslot).1
  refine ⟨us[i], ?_, hall i slot _ hslot (List.getElem?_eq_getElem hi)⟩
  simp only [slots, hcell, Option.map_some, Option.getD_some, View.slots_fill hnames hlen,
    List.getElem?_eq_getElem hi]

/-- A replaced value stands in the place of its slot, and the others stay. -/
theorem Fills.setSlot (h : k.Fills q view rel) (hnames : view.names.Nodup) {i : Nat}
    {slot : Step × Value X} {u : Value X} (hslot : view.slots[i]? = some slot)
    (hu : rel' i slot u)
    (hothers : ∀ j slot u, j ≠ i → view.slots[j]? = some slot → rel j slot u → rel' j slot u) :
    (k.setSlot q i u).Fills q view rel' := by
  obtain ⟨us, hcell, hlen, hall⟩ := h
  have hlen' : (us.set i u).length = view.slots.length := by
    rw [List.length_set, hlen]
  refine ⟨us.set i u, ?_, hlen', ?_⟩
  · rw [cell?_setSlot_self i u hcell, View.setSlot_fill hnames hlen]
  · intro j slot' u' hslot' hu'
    by_cases hji : j = i
    · subst hji
      have hj : j < us.length := by
        rw [hlen]
        exact (List.getElem?_eq_some_iff.1 hslot).1
      rw [List.getElem?_set_self hj] at hu'
      obtain rfl := Option.some.inj hu'
      obtain rfl := Option.some.inj (hslot.symm.trans hslot')
      exact hu
    · rw [List.getElem?_set_ne (Ne.symm hji)] at hu'
      exact hothers j slot' u' hji hslot' (hall j slot' u' hslot' hu')

/-- A slot of the view is one of the filled container. -/
theorem Fills.mem_slots (h : k.Fills q view rel) (hnames : view.names.Nodup)
    {slot : Step × Value X} (hslot : slot ∈ view.slots) :
    ∃ i u, (slot.1, u) ∈ (k.view q).slots ∧ rel i slot u := by
  obtain ⟨us, hcell, hlen, hall⟩ := h
  obtain ⟨i, hi⟩ := List.getElem?_of_mem hslot
  have hlt : i < us.length := by
    rw [hlen]
    exact (List.getElem?_eq_some_iff.1 hi).1
  have hu : us[i]? = some us[i] := List.getElem?_eq_getElem hlt
  refine ⟨i, us[i], ?_, hall i slot _ hi hu⟩
  unfold Heap.view
  rw [hcell]
  cases view with
  | list items =>
    simp only [View.slots, List.getElem?_map, List.getElem?_zipIdx, Option.map_map,
      Option.map_eq_some_iff] at hi
    obtain ⟨item, _, rfl⟩ := hi
    exact List.mem_map.2 ⟨(us[i], i), List.mem_zipIdx_iff_getElem?.2 hu, by simp⟩
  | named fields =>
    simp only [View.slots, List.getElem?_map, Option.map_eq_some_iff] at hi
    obtain ⟨⟨name, item⟩, hfield, rfl⟩ := hi
    have hmem : (name, us[i]) ∈ (fields.map Prod.fst).zip us := by
      apply List.mem_of_getElem? (i := i)
      rw [List.getElem?_zip_eq_some]
      exact ⟨by simp [hfield], hu⟩
    simp only [View.fill, viewCell, View.entries_fill hnames hlen, View.slots]
    exact List.mem_map.2 ⟨_, hmem, rfl⟩

/-- The step to a slot of a filled container finds the value there. -/
theorem step?_of_mem_slots {us : List (Value X)} (hcell : k.cell? q = some (view.fill us))
    {slot : Step × Value X} (hslot : slot ∈ (k.view q).slots) :
    k.step? (.node q) slot.1 = some slot.2 := by
  unfold Heap.view at hslot
  rw [hcell] at hslot
  cases view with
  | list items =>
    obtain ⟨⟨u, i⟩, hu, rfl⟩ := List.mem_map.1 hslot
    simp only [View.fill] at hcell
    simp [Heap.step?, content?, hcell, Step.elementIndex?_ofIndex,
      List.mem_zipIdx_iff_getElem?.1 hu]
  | named fields =>
    obtain ⟨⟨name, u⟩, hu, rfl⟩ := List.mem_map.1 hslot
    simp only [View.fill] at hcell
    simp only [Heap.step?, content?, hcell, Step.name]
    exact (Table.get?_eq_some_iff _).2 hu

/-- The step to a slot of the view finds the value in its place. -/
theorem Fills.step? (h : k.Fills q view rel) (hnames : view.names.Nodup)
    {slot : Step × Value X} (hslot : slot ∈ view.slots) :
    ∃ i u, k.step? (.node q) slot.1 = some u ∧ rel i slot u := by
  obtain ⟨i, u, hmem, hrel⟩ := h.mem_slots hnames hslot
  obtain ⟨us, hcell, _⟩ := h
  exact ⟨i, u, step?_of_mem_slots hcell hmem, hrel⟩

/-- A property of a filled container stands in the place of a field. -/
theorem Fills.get? (h : k.Fills q view rel) (hnames : view.names.Nodup) {name : String}
    {u : Value X} (hu : k.get? (.node q) name = some u) :
    ∃ fields i v, view = .named fields ∧ (name, v) ∈ fields ∧ rel i (.key name, v) u := by
  obtain ⟨us, hcell, hlen, hall⟩ := h
  cases view with
  | list items =>
    simp only [View.fill] at hcell
    simp [Heap.get?, content?, hcell] at hu
  | named fields =>
    simp only [View.fill] at hcell
    simp only [Heap.get?, content?, hcell] at hu
    rw [Table.get?_eq_some_iff, View.entries_fill hnames hlen] at hu
    obtain ⟨i, hi⟩ := List.getElem?_of_mem hu
    rw [List.getElem?_zip_eq_some, List.getElem?_map, Option.map_eq_some_iff] at hi
    obtain ⟨⟨⟨name', v⟩, hfield, rfl⟩, hui⟩ := hi
    refine ⟨fields, i, v, rfl, List.mem_of_getElem? hfield, ?_⟩
    exact hall i _ u (by simp [View.slots, hfield]) hui

end Fills

end Heap

end TypeDescription
