import TypeDescription.Proofs.Graph.Encoding
import TypeDescription.Proofs.Graph.Isomorphism

/-!
# Graphs given by views

`Heap.ofViews` is the heap in which every container is the array or object of a
given view.  A graph whose values were rewritten is such a heap: `View.mapValues`
rewrites the values of a view in place.  Where a name of the view is repeated, the
object has the last value (`View.latest`).
-/

namespace TypeDescription

variable {X : Type}

namespace View

/-- The array or object of a view. -/
def cell (view : View X) : Cell X :=
  view.fill view.values

/-- A view with other values under the same names. -/
def mapValues (g : Value X → Value X) : View X → View X
  | .list items => .list (items.map g)
  | .named fields => .named (fields.map fun field => (field.1, g field.2))

theorem mapValues_id (view : View X) : view.mapValues id = view := by
  cases view <;> simp [mapValues]

@[simp]
theorem names_mapValues (g : Value X → Value X) (view : View X) :
    (view.mapValues g).names = view.names := by
  cases view with
  | list items => rfl
  | named fields => simp [mapValues, names, Function.comp_def]

theorem values_mapValues (g : Value X → Value X) (view : View X) :
    (view.mapValues g).values = view.values.map g := by
  cases view with
  | list items => rfl
  | named fields => simp [mapValues, values, Function.comp_def]

theorem slots_mapValues (g : Value X → Value X) (view : View X) :
    (view.mapValues g).slots = view.slots.map fun slot => (slot.1, g slot.2) := by
  cases view with
  | list items => simp [mapValues, slots, List.zipIdx_map, Function.comp_def]
  | named fields => simp [mapValues, slots, Function.comp_def]

theorem fill_mapValues (g : Value X → Value X) (view : View X) (us : List (Value X)) :
    (view.mapValues g).fill us = view.fill us := by
  cases view with
  | list items => rfl
  | named fields => simp [mapValues, fill, Function.comp_def]

/-- Rewritten values do not change what a view is assembled to. -/
theorem assemble_mapValues (g : Value X → Value X) (view : View X) (docs : List (Encoded X)) :
    (view.mapValues g).assemble docs = view.assemble docs := by
  cases view with
  | list items => rfl
  | named fields => simp [mapValues, assemble, Function.comp_def]

/-- The object of named values is the table of them. -/
theorem cell_named (fields : List (String × Value X)) :
    (named fields).cell = .object (Table.ofList fields) := by
  simp [cell, fill, values, List.zip_map']

/-- The entries of the object of a view are its fields. -/
theorem entries_cell {fields : List (String × Value X)} (hnames : (named fields).names.Nodup) :
    (Table.ofList ((fields.map Prod.fst).zip (named fields).values)).entries = fields := by
  rw [entries_fill hnames (length_slots _).symm, values, List.zip_map']
  simp

/-- A view with one field for each name: the last value under it, at the place of the first. -/
def latest : View X → View X
  | .list items => .list items
  | .named fields => .named (Table.ofList fields).entries

theorem latest_of_nodup {view : View X} (hnames : view.names.Nodup) : view.latest = view := by
  cases view with
  | list items => rfl
  | named fields => rw [latest, Table.entries_ofList hnames]

theorem latest_mapValues (g : Value X → Value X) (view : View X) :
    (view.mapValues g).latest = view.latest.mapValues g := by
  cases view with
  | list items => rfl
  | named fields =>
    rw [mapValues, latest, Table.ofList_map]
    rfl

theorem values_latest_subset (view : View X) : view.latest.values ⊆ view.values := by
  cases view with
  | list items => exact List.Subset.refl _
  | named fields => exact Table.values_ofList_subset fields

end View

/-- An array or object is that of its view, and no name comes twice in it. -/
theorem Cell.Holds.eq_cell {c : Cell X} {view : View X} (hc : c.Holds view) :
    c = view.cell ∧ view.names.Nodup := by
  cases hc with
  | array items => exact ⟨rfl, List.nodup_nil⟩
  | object properties =>
    refine ⟨congrArg Cell.object (Table.eq_of_entries ?_), properties.keys_nodup⟩
    rw [View.entries_cell properties.keys_nodup]

namespace Heap

/-- The array or object of a view has the latest fields of it. -/
theorem view_cell {k : Heap X} {q : Ref} {view : View X} (hcell : k.cell? q = some view.cell) :
    k.view q = view.latest := by
  cases view with
  | list items => simp [Heap.view, hcell, View.cell, View.fill, View.values, viewCell, View.latest]
  | named fields => simp only [Heap.view, hcell, View.cell_named, viewCell, View.latest]

/-- The array or object of a view is viewed as it. -/
theorem view_of_cell {k : Heap X} {q : Ref} {view : View X} (hnames : view.names.Nodup)
    (hcell : k.cell? q = some view.cell) : k.view q = view := by
  rw [view_cell hcell, View.latest_of_nodup hnames]

/-- An array or object is filled with its own values. -/
theorem fills_cell {k : Heap X} {q : Ref} {view : View X} (hcell : k.cell? q = some view.cell) :
    k.Fills q view fun _ slot u => u = slot.2 := by
  have hall : List.Forall₂ (fun slot u => u = slot.2) view.slots view.values := by
    rw [← View.slots_snd, List.forall₂_map_right_iff, List.forall₂_same]
    exact fun _ _ => rfl
  exact Fills.of_forall₂ hcell hall

/-- A container that is filled with the values of a view is the array or object of it. -/
theorem Fills.cell?_eq {k : Heap X} {q : Ref} {view : View X}
    (h : k.Fills q view fun _ slot u => u = slot.2) : k.cell? q = some view.cell := by
  obtain ⟨us, hcell, hlen, hall⟩ := h
  have hus : us = view.values := by
    rw [← View.slots_snd]
    refine List.ext_getElem (by simpa using hlen) fun i hi hi' => ?_
    have hslot : i < view.slots.length := hlen ▸ hi
    rw [hall i _ _ (List.getElem?_eq_getElem hslot) (List.getElem?_eq_getElem hi),
      List.getElem_map]
  rw [hcell, hus]
  rfl

/-- A container that is filled with the values of a view is viewed as it. -/
theorem Fills.view_eq {k : Heap X} {q : Ref} {view : View X} (hnames : view.names.Nodup)
    (h : k.Fills q view fun _ slot u => u = slot.2) : k.view q = view := by
  rw [view_cell h.cell?_eq, View.latest_of_nodup hnames]

/-- A container that is filled with rewritten values is filled from the rewritten view. -/
theorem Fills.mapValues {k : Heap X} {q : Ref} {view : View X} {g : Value X → Value X}
    (h : k.Fills q view fun _ slot u => u = g slot.2) :
    k.Fills q (view.mapValues g) fun _ slot u => u = slot.2 := by
  obtain ⟨us, hcell, hlen, hall⟩ := h
  refine ⟨us, by rw [View.fill_mapValues, hcell], by simp [View.slots_mapValues, hlen], ?_⟩
  intro i slot u hslot hu
  rw [View.slots_mapValues, List.getElem?_map, Option.map_eq_some_iff] at hslot
  obtain ⟨slot, hslot, rfl⟩ := hslot
  exact hall i slot u hslot hu

/-- The heap of as many containers as a number says, with the given views. -/
def ofViews (size : Nat) (views : Ref → View X) : Heap X :=
  ⟨Array.ofFn fun r : Fin size => (views r).cell⟩

theorem size_ofViews (size : Nat) (views : Ref → View X) : (ofViews size views).size = size := by
  simp [ofViews, Heap.size]

theorem cell?_ofViews {size : Nat} {views : Ref → View X} {r : Ref} (hr : r < size) :
    (ofViews size views).cell? r = some (views r).cell := by
  simp [ofViews, cell?, hr]

/-- No container of such a heap is a map. -/
theorem cell?_ofViews_ne_map {size : Nat} {views : Ref → View X} {r : Ref}
    {entries : List (Value X × Value X)} : (ofViews size views).cell? r ≠ some (.map entries) := by
  intro hcell
  obtain ⟨hr, hcell⟩ := Array.getElem?_eq_some_iff.1 hcell
  have hview : (views r).cell = .map entries := by simpa [ofViews] using hcell
  cases hv : views r <;> rw [hv] at hview <;> cases hview

theorem view_ofViews {size : Nat} {views : Ref → View X} {r : Ref} (hr : r < size)
    (hnames : (views r).names.Nodup) : (ofViews size views).view r = views r :=
  view_of_cell hnames (cell?_ofViews hr)

end Heap

end TypeDescription
