import Mathlib.Algebra.Order.BigOperators.Group.List
import Mathlib.Algebra.Order.Group.Nat
import Mathlib.Algebra.Ring.Nat
import TypeDescription.Proofs.Graph.Emission
import TypeDescription.Proofs.Graph.Interchange
import TypeDescription.Proofs.Graph.Rewriting
import TypeDescription.Proofs.Graph.RoundTrip

/-!
# A graph as JSON keeps it

`Heap.persisted` is the graph that can be expected back when a graph is kept as
JSON: sets are arrays and maps objects, what is undefined is left out of an
object and null in an array, numbers and wrapped values are rewritten, and each
position of a regular expression has an empty object of its own.  The containers
keep their numbers, and the new ones come behind them (`patternRef`).

`Persistable` says for which graphs; for these the graph read back can be encoded
and decoded (`Persistable.codable`).
-/

namespace TypeDescription

variable {X : Type}

/-- What stands for an absent value: a default in a list, nothing under a name. -/
def View.orElse {α : Type} (default : α) : View X → Option α → Option α
  | .list _, value => some (value.getD default)
  | .named _, value => value

namespace Heap

/-! ## The persisted graph -/

/-- More than the values in any container. -/
def width (h : Heap X) : Nat :=
  (h.cells.toList.map fun c => c.slots.length).sum + 1

/-- The new container for a regular expression at a position in a container. -/
def patternRef (h : Heap X) (r : Ref) (i : Nat) : Ref :=
  h.size + (r * h.width + i)

/-- The value at a position in a container, read back. -/
def persistValue (h : Heap X) (r : Ref) (i : Nat) (v : Value X) : Option (Value X) :=
  v.persist (.node (h.patternRef r i)) id

/-- A container read back, as an array or an object. -/
def persistView (h : Heap X) (r : Ref) : View X → View X
  | .list items => .list (items.zipIdx.map fun (item, i) => (h.persistValue r i item).getD .null)
  | .named fields => .named (fields.zipIdx.filterMap fun (field, i) =>
      (h.persistValue r i field.2).map fun value => (field.1, value))

/-- Slots of a container read back, from a position on. -/
def persistSlots (h : Heap X) (view : View X) (r : Ref) (start : Nat)
    (slots : List (Step × Value X)) : List (Step × Value X) :=
  (slots.zipIdx start).filterMap fun (slot, i) =>
    (view.orElse .null (h.persistValue r i slot.2)).map fun value => (slot.1, value)

/-- The graph read back: each container at its number, and behind them an empty object
for each position at which a regular expression can stand. -/
def persisted (h : Heap X) : Heap X :=
  ofViews (h.patternRef (h.size + 1) 0) fun r =>
    if r < h.size then h.persistView r (h.view r) else .named []

/-- The root read back. -/
def persistedRoot (h : Heap X) (x : Value X) : Value X :=
  (h.persistValue h.size 0 x).getD .null

section Persisted

variable {h : Heap X} {r s : Ref} {i j : Nat}

theorem patternRef_inj (hi : i < h.width) (hj : j < h.width)
    (heq : h.patternRef r i = h.patternRef s j) : r = s ∧ i = j := by
  have hsum : r * h.width + i = s * h.width + j := Nat.add_left_cancel heq
  have hpos : 0 < h.width := Nat.zero_lt_of_lt hi
  have hdiv := congrArg (· / h.width) hsum
  have hmod := congrArg (· % h.width) hsum
  simp only [Nat.mul_comm _ h.width, Nat.mul_add_div hpos, Nat.div_eq_of_lt hi,
    Nat.div_eq_of_lt hj, Nat.add_zero] at hdiv
  simp only [Nat.mul_comm _ h.width, Nat.mul_add_mod, Nat.mod_eq_of_lt hi,
    Nat.mod_eq_of_lt hj] at hmod
  exact ⟨hdiv, hmod⟩

theorem patternRef_lt (hr : r ≤ h.size) (hi : i < h.width) :
    h.patternRef r i < h.patternRef (h.size + 1) 0 := by
  have hle : r * h.width + h.width ≤ (h.size + 1) * h.width := by
    rw [← Nat.succ_mul]
    exact Nat.mul_le_mul_right _ (Nat.succ_le_succ hr)
  exact Nat.add_lt_add_left (Nat.lt_of_lt_of_le (Nat.add_lt_add_left hi _) hle) _

theorem size_le_patternRef : h.size ≤ h.patternRef r i :=
  Nat.le_add_right _ _

theorem length_slots_lt_width : (h.view r).slots.length < h.width := by
  rw [View.length_slots, values_view, Heap.slots]
  cases hcell : h.cell? r with
  | none => simp [width]
  | some c =>
    have hmem : c ∈ h.cells.toList := by
      rw [Array.mem_toList_iff]
      exact Array.mem_of_getElem? hcell
    have hle := List.le_sum_of_mem (List.mem_map_of_mem (f := fun c => c.slots.length) hmem)
    simp only [Option.map_some, Option.getD_some, width]
    omega

theorem names_persistView {view : View X} (hnames : view.names.Nodup) :
    (h.persistView r view).names.Nodup := by
  cases view with
  | list items => exact List.nodup_nil
  | named fields =>
    have hkeys : fields.zipIdx.map (fun entry => entry.1.1) = fields.map Prod.fst := by
      rw [← List.zipIdx_map_fst 0 fields, List.map_map]
      simp [Function.comp_def]
    have hsublist := keys_filterMap_sublist (fun entry => entry.1.1)
      (fun entry => h.persistValue r entry.2 entry.1.2) fields.zipIdx
    rw [hkeys] at hsublist
    exact .sublist hsublist hnames

/-- A container is read back as it is viewed. -/
theorem view_persisted (hr : r < h.size) (hnames : (h.view r).names.Nodup) :
    h.persisted.view r = h.persistView r (h.view r) := by
  have hlt : r < h.patternRef (h.size + 1) 0 := Nat.lt_of_lt_of_le hr size_le_patternRef
  rw [persisted, view_ofViews hlt (by rw [if_pos hr]; exact names_persistView hnames), if_pos hr]

/-- A regular expression is read back as an empty object. -/
theorem view_patternRef (hr : r ≤ h.size) (hi : i < h.width) :
    h.persisted.view (h.patternRef r i) = .named [] := by
  have hno : ¬ h.patternRef r i < h.size := Nat.not_lt_of_le size_le_patternRef
  rw [persisted, view_ofViews (patternRef_lt hr hi) (by rw [if_neg hno]; exact List.nodup_nil),
    if_neg hno]

/-- The slots of a container read back: those of the values that persist. -/
theorem slots_persistView (view : View X) :
    (h.persistView r view).slots = h.persistSlots view r 0 view.slots := by
  cases view with
  | list items =>
    refine List.ext_getElem? fun i => ?_
    simp [persistView, persistSlots, View.slots, View.orElse, List.zipIdx_map]
    rfl
  | named fields =>
    simp [persistView, persistSlots, View.slots, View.orElse, List.zipIdx_map,
      List.filterMap_map, List.map_filterMap, Function.comp_def]

end Persisted

/-! ## The values read back -/

section Values

variable {h : Heap X} {x v w : Value X} {r s : Ref} {i : Nat}

theorem mem_slots_persistView {view : View X} {slot : Step × Value X} :
    slot ∈ (h.persistView r view).slots ↔
      ∃ i v, view.slots[i]? = some (slot.1, v) ∧
        view.orElse .null (h.persistValue r i v) = some slot.2 := by
  rw [slots_persistView, persistSlots, List.mem_filterMap]
  constructor
  · rintro ⟨⟨⟨step, v⟩, i⟩, hmem, hslot⟩
    obtain ⟨w, hw, rfl⟩ := Option.map_eq_some_iff.1 hslot
    exact ⟨i, v, List.mem_zipIdx_iff_getElem?.1 hmem, hw⟩
  · rintro ⟨i, v, hi, hw⟩
    exact ⟨((slot.1, v), i), List.mem_zipIdx_iff_getElem?.2 hi, by simp [hw]⟩

/-- What is read back of a value: a scalar, the same container, or a new one for a regular
expression. -/
inductive ReadBack (h : Heap X) (r : Ref) (i : Nat) : Value X → Value X → Prop
  | scalar {v w : Value X} : w.isContainer = false → w.exempt? = none → ReadBack h r i v w
  | container {s : Ref} : ReadBack h r i (.node s) (.node s)
  | pattern {source flags : String} :
      ReadBack h r i (.regExp source flags) (.node (h.patternRef r i))

theorem ReadBack.exempt?_eq (hw : h.ReadBack r i v w) : w.exempt? = none := by
  cases hw with
  | scalar _ hplain => exact hplain
  | container => rfl
  | pattern => rfl

theorem readBack_of_persistValue (hplain : v.exempt? = none)
    (hw : h.persistValue r i v = some w) : h.ReadBack r i v w := by
  cases hv : v.isContainer with
  | true =>
    obtain ⟨s, rfl⟩ := Value.exists_eq_node hv
    cases hw
    exact .container
  | false =>
    rcases Value.persist_cases hv hplain with rfl | ⟨source, flags, rfl⟩ |
      ⟨u, hu, hplain', hpersist⟩
    · cases hw
    · cases hw
      exact .pattern
    · rw [persistValue, hpersist] at hw
      cases hw
      exact .scalar hu hplain'

theorem readBack_orElse (view : View X) (hplain : v.exempt? = none)
    (hw : view.orElse .null (h.persistValue r i v) = some w) : h.ReadBack r i v w := by
  cases hpersist : h.persistValue r i v with
  | some u =>
    obtain rfl : u = w := by
      cases view <;> simpa [View.orElse, hpersist] using hw
    exact readBack_of_persistValue hplain hpersist
  | none =>
    obtain rfl : Value.null = w := by
      cases view <;> simp_all [View.orElse]
    exact .scalar rfl rfl

theorem readBack_root (hplain : x.exempt? = none) : h.ReadBack h.size 0 x (h.persistedRoot x) :=
  readBack_orElse (.list []) hplain rfl

/-- A string that is read back was a string. -/
theorem string_of_persistValue {text : String} (hw : h.persistValue r i v = some (.string text)) :
    v = .string text ∨ v = .boxed (.string text) := by
  have hfinite : ∀ x, (Value.ofFinite x : Value X) ≠ .string text := by
    intro x
    unfold Value.ofFinite
    split <;> exact fun heq => by cases heq
  unfold persistValue at hw
  cases v with
  | boxed p =>
    cases p with
    | number x => exact absurd (Option.some.inj hw) (hfinite x)
    | string s =>
      cases hw
      exact .inr rfl
    | bool b => cases hw
  | number x => exact absurd (Option.some.inj hw) (hfinite x)
  | date x => exact absurd (Option.some.inj hw) (hfinite x)
  | string s =>
    cases hw
    exact .inl rfl
  | _ => cases hw

end Values

/-- A graph that JSON can hold. -/
structure Persistable (h : Heap X) (x : Value X) : Prop where
  closed : h.Closed x
  keys : h.DistinctKeys x
  plain : ∀ v, h.Occurs x v → v.exempt? = none
  free : ∀ r fields text, h.Reaches x r → h.view r = .named fields →
    (refKey, .string text) ∈ fields ∨ (refKey, .boxed (.string text)) ∈ fields →
      Path.parse? text = none

section Codable

variable {h : Heap X} {x : Value X} {q r : Ref}

/-- A slot of a container read back. -/
theorem Persistable.mem_slots (hx : h.Persistable x) (hr : h.Reaches x r) (hlt : r < h.size)
    {slot : Step × Value X} (hslot : slot ∈ (h.persisted.view r).slots) :
    ∃ i v, (h.view r).slots[i]? = some (slot.1, v) ∧ i < h.width ∧ h.Occurs x v ∧
      h.ReadBack r i v slot.2 := by
  rw [view_persisted hlt (hx.keys.names_nodup hr), mem_slots_persistView] at hslot
  obtain ⟨i, v, hi, hw⟩ := hslot
  have hwidth := Nat.lt_trans (List.getElem?_eq_some_iff.1 hi).1 length_slots_lt_width
  have hv : h.Occurs x v := .inr ⟨r, hr, View.mem_values_of_mem_slots (List.mem_of_getElem? hi)⟩
  exact ⟨i, v, hi, hwidth, hv, readBack_orElse _ (hx.plain v hv) hw⟩

/-- What is reached in the graph read back is reached in the graph, or an empty object. -/
theorem Persistable.reaches_cases (hx : h.Persistable x)
    (hq : h.persisted.Reaches (h.persistedRoot x) q) :
    (h.Reaches x q ∧ q < h.size) ∨ (h.size ≤ q ∧ h.persisted.view q = .named []) := by
  have hpos : 0 < h.width := Nat.succ_pos _
  induction hq with
  | @root q heq =>
    have hroot := readBack_root (h := h) (hx.plain x (.inl rfl))
    rw [heq] at hroot
    cases hroot with
    | scalar hw => cases hw
    | container => exact .inl ⟨.root rfl, hx.closed.root q rfl⟩
    | pattern => exact .inr ⟨size_le_patternRef, view_patternRef (Nat.le_refl _) hpos⟩
  | @step r q _ hmem ih =>
    rcases ih with ⟨hr, hlt⟩ | ⟨_, hempty⟩
    · rw [← View.slots_snd] at hmem
      obtain ⟨slot, hslot, heq⟩ := List.mem_map.1 hmem
      obtain ⟨i, v, _, hi, hv, hback⟩ := hx.mem_slots hr hlt hslot
      rw [heq] at hback
      cases hback with
      | scalar hw => cases hw
      | container => exact .inl ⟨hv.reaches, hx.closed.lt hv⟩
      | pattern => exact .inr ⟨size_le_patternRef, view_patternRef (Nat.le_of_lt hlt) hi⟩
    · rw [hempty] at hmem
      cases hmem

/-- The graph read back can be encoded and decoded. -/
theorem Persistable.codable (hx : h.Persistable x) : h.persisted.Codable (h.persistedRoot x) where
  plain_root := (readBack_root (hx.plain x (.inl rfl))).exempt?_eq
  plain r hr w hw := by
    rcases hx.reaches_cases hr with ⟨hr, hlt⟩ | ⟨_, hempty⟩
    · rw [← View.slots_snd] at hw
      obtain ⟨slot, hslot, rfl⟩ := List.mem_map.1 hw
      obtain ⟨i, v, _, _, _, hback⟩ := hx.mem_slots hr hlt hslot
      exact hback.exempt?_eq
    · rw [hempty] at hw
      cases hw
  keys_nodup r entries _ hcell := absurd hcell cell?_ofViews_ne_map
  free r fields text hr hview hmem := by
    rcases hx.reaches_cases hr with ⟨hr, hlt⟩ | ⟨_, hempty⟩
    · have hpersisted := view_persisted hlt (hx.keys.names_nodup hr)
      rw [hview] at hpersisted
      cases hfields : h.view r with
      | list items =>
        rw [hfields] at hpersisted
        cases hpersisted
      | named fields =>
        rw [hfields, persistView, View.named.injEq] at hpersisted
        rw [hpersisted] at hmem
        obtain ⟨⟨field, i⟩, hfield, heq⟩ := List.mem_filterMap.1 hmem
        obtain ⟨w, hw, heq⟩ := Option.map_eq_some_iff.1 heq
        obtain ⟨hkey, rfl⟩ := Prod.mk.inj heq
        refine hx.free r fields text hr hfields ?_
        have hin : (refKey, field.2) ∈ fields := hkey ▸ List.fst_mem_of_mem_zipIdx hfield
        rcases string_of_persistValue hw with hv | hv
        · exact .inl (hv ▸ hin)
        · exact .inr (hv ▸ hin)
    · rw [hempty] at hview
      cases hview
      cases hmem

end Codable

end Heap

end TypeDescription
