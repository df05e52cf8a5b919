import TypeDescription.Graph.Basic
import TypeDescription.Proofs.Fields

/-!
# Heaps that grow

`Heap.Within` is the order on heaps in which a walk that only allocates moves
up: every container of the smaller heap is in the larger one, unchanged.  The
other lemmas say what allocating and writing do to single containers, and what
planting a document does to its parts.
-/

namespace TypeDescription

variable {X : Type}

namespace Heap

/-! ## Single containers -/

theorem cell?_allocate_self (k : Heap X) (c : Cell X) :
    (k.allocate c).2.cell? k.size = some c := by
  simp [allocate, cell?, size]

theorem cell?_allocate_of_lt {k : Heap X} {r : Ref} (c : Cell X) (h : r < k.size) :
    (k.allocate c).2.cell? r = k.cell? r := by
  simp only [allocate, cell?, size] at h ⊢
  rw [Array.getElem?_push_lt h, Array.getElem?_eq_getElem h]

theorem size_allocate (k : Heap X) (c : Cell X) : (k.allocate c).2.size = k.size + 1 := by
  simp [allocate, size]

theorem lt_size_of_cell? {k : Heap X} {r : Ref} {c : Cell X} (h : k.cell? r = some c) :
    r < k.size := by
  simp only [cell?] at h
  exact (Array.getElem?_eq_some_iff.1 h).1

theorem cell?_write_self {k : Heap X} {r : Ref} (c : Cell X) (h : r < k.size) :
    (k.write r c).cell? r = some c := by
  simp only [size] at h
  simp [write, cell?, h]

theorem cell?_write_of_ne {k : Heap X} {r s : Ref} (c : Cell X) (h : s ≠ r) :
    (k.write r c).cell? s = k.cell? s := by
  simp [write, cell?, h.symm]

theorem size_write (k : Heap X) (r : Ref) (c : Cell X) : (k.write r c).size = k.size := by
  simp [write, size]

/-- A changed slot leaves every other container as it was. -/
theorem cell?_setSlot_of_ne {k : Heap X} {r s : Ref} (i : Nat) (v : Value X) (h : s ≠ r) :
    (k.setSlot r i v).cell? s = k.cell? s := by
  unfold setSlot
  split
  · exact cell?_write_of_ne _ h
  · rfl

theorem cell?_setSlot_self {k : Heap X} {r : Ref} {c : Cell X} (i : Nat) (v : Value X)
    (h : k.cell? r = some c) : (k.setSlot r i v).cell? r = some (c.setSlot i v) := by
  unfold setSlot
  rw [h]
  exact cell?_write_self _ (lt_size_of_cell? h)

/-! ## Growth -/

/-- All containers of the first heap are in the second one, unchanged. -/
structure Within (k k' : Heap X) : Prop where
  size_le : k.size ≤ k'.size
  cell?_eq : ∀ r, r < k.size → k'.cell? r = k.cell? r

theorem Within.refl (k : Heap X) : k.Within k :=
  ⟨Nat.le_refl _, fun _ _ => rfl⟩

theorem Within.trans {k k' k'' : Heap X} (h : k.Within k') (h' : k'.Within k'') :
    k.Within k'' where
  size_le := Nat.le_trans h.size_le h'.size_le
  cell?_eq r hr := by
    rw [h'.cell?_eq r (Nat.lt_of_lt_of_le hr h.size_le), h.cell?_eq r hr]

theorem Within.cell? {k k' : Heap X} (h : k.Within k') {r : Ref} {c : Cell X}
    (hr : k.cell? r = some c) : k'.cell? r = some c := by
  rw [h.cell?_eq r (lt_size_of_cell? hr), hr]

theorem within_allocate (k : Heap X) (c : Cell X) : k.Within (k.allocate c).2 where
  size_le := by
    rw [size_allocate]
    omega
  cell?_eq _ hr := cell?_allocate_of_lt c hr

/-! ## Planted fields -/

/-- Fields are planted like the list of their values. -/
theorem plantFields_eq (fields : List (String × Document (Value X))) (k : Heap X) :
    plantFields fields k =
      ((fields.map Prod.fst).zip (plantItems (fields.map Prod.snd) k).1,
        (plantItems (fields.map Prod.snd) k).2) := by
  induction fields generalizing k with
  | nil => rfl
  | cons field rest ih =>
    obtain ⟨key, item⟩ := field
    simp only [plantFields, List.map_cons, plantItems, ih, List.zip_cons_cons]

theorem length_plantItems (items : List (Document (Value X))) (k : Heap X) :
    (plantItems items k).1.length = items.length := by
  induction items generalizing k with
  | nil => rfl
  | cons item rest ih => simp only [plantItems, List.length_cons, ih]

end Heap

end TypeDescription
