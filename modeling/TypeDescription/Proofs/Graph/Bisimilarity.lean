import Mathlib.Data.List.Forall2
import Mathlib.Data.List.Nodup
import Mathlib.Data.List.Perm.Subperm
import TypeDescription.Graph.Equality
import TypeDescription.Proofs.Double
import TypeDescription.Proofs.Fields

/-!
# Bisimilar values

Two values are bisimilar if a relation holds between them that only ever relates
values of one variant, with equal scalars and with related values inside.  Nothing
in the definition counts levels or visits, so it speaks of cyclic graphs at once.

* `Value.Equals` is equality of scalars: the two zeros are one number, every NaN is.
* `Cell.Related` is what a relation says of two containers with the values in them,
  `Heap.Matches` what it says of two values one step down.
* `Heap.Below` is what a value reaches, map keys and exempt values included.  A
  bisimulation may be cut off to what is below two values (`Bisimulation.below`).
-/

namespace TypeDescription

variable {X : Type}

/-! ## Equal scalars -/

/-- Equality of numbers: the two zeros are one number, and so is every NaN. -/
def Double.Equals (x y : Double) : Prop :=
  x = y ∨ (x.isZero ∧ y.isZero) ∨ (x.isNaN ∧ y.isNaN)

theorem Double.isNaN_of_isZero {x : Double} (h : x.isZero = true) : x.isNaN = false := by
  obtain ⟨hexponent, _⟩ := (isZero_iff x).1 h
  simp [isNaN, hexponent]

theorem Double.same_iff (x y : Double) : x.same y = true ↔ x.Equals y := by
  simp only [same, equal, Equals, Bool.or_eq_true, Bool.and_eq_true, Bool.not_eq_true', beq_iff_eq]
  constructor
  · rintro (⟨_, rfl | hzero⟩ | hnan)
    · exact .inl rfl
    · exact .inr (.inl hzero)
    · exact .inr (.inr hnan)
  · rintro (rfl | hzero | hnan)
    · by_cases hx : x.isNaN = true
      · exact .inr ⟨hx, hx⟩
      · simp [hx]
    · exact .inl ⟨⟨isNaN_of_isZero hzero.1, isNaN_of_isZero hzero.2⟩, .inr hzero⟩
    · exact .inr hnan

/-- Boxed values of one variant with equal content. -/
inductive Primitive.Equals : Primitive → Primitive → Prop
  | bool (b : Bool) : Equals (.bool b) (.bool b)
  | number {x y : Double} : x.Equals y → Equals (.number x) (.number y)
  | string (s : String) : Equals (.string s) (.string s)

theorem Primitive.equals_of_agree {p q : Primitive} (h : p.agree q = true) : p.Equals q := by
  cases p <;> cases q <;> simp only [agree, beq_iff_eq, Bool.false_eq_true] at h
  · exact h ▸ .bool _
  · exact .number ((Double.same_iff _ _).1 (by simp [Double.same, h]))
  · exact h ▸ .string _

theorem Primitive.agree_of_equals {p q : Primitive} (h : p.Equals q)
    (hnan : ∀ y, p = .number y → y.isNaN = false) : p.agree q = true := by
  cases h with
  | bool b => simp [agree]
  | string s => simp [agree]
  | @number x y heq =>
    have hsame := (Double.same_iff x y).2 heq
    simpa [Double.same, hnan x rfl, agree] using hsame

/-- Scalars of one variant with equal content. -/
inductive Value.Equals : Value X → Value X → Prop
  | undefined : Equals .undefined .undefined
  | null : Equals .null .null
  | bool (b : Bool) : Equals (.bool b) (.bool b)
  | number {x y : Double} : x.Equals y → Equals (.number x) (.number y)
  | bigInt (digits : String) : Equals (.bigInt digits) (.bigInt digits)
  | string (s : String) : Equals (.string s) (.string s)
  | boxed {p q : Primitive} : p.Equals q → Equals (.boxed p) (.boxed q)
  | date {x y : Double} : x.Equals y → Equals (.date x) (.date y)
  | regExp (source flags : String) : Equals (.regExp source flags) (.regExp source flags)
  | foreign (payload : X) : Equals (.foreign payload) (.foreign payload)

theorem Value.agree_of_equals [DecidableEq X] (nodes : Ref → Ref → Comparison) {v w : Value X}
    (h : v.Equals w) (hnan : ∀ y, v = .boxed (.number y) → y.isNaN = false) :
    v.agree nodes w = return true := by
  cases h with
  | number heq => simp [Value.agree, (Double.same_iff _ _).2 heq]
  | date heq => simp [Value.agree, (Double.same_iff _ _).2 heq]
  | boxed heq =>
    have hagree := Primitive.agree_of_equals heq fun y hy => hnan y (congrArg Value.boxed hy)
    simp [Value.agree, hagree]
  | _ => simp [Value.agree]

/-! ## Bisimilar values -/

/-- The values in a container, the keys of a map among them. -/
def Cell.contents : Cell X → List (Value X)
  | .map entries => entries.flatMap fun entry => [entry.1, entry.2]
  | c => c.slots

/-- Containers of one kind with related values: an array and a set element by element,
an object name by name, a map entry by entry. -/
inductive Cell.Related (R : Value X → Value X → Prop) : Cell X → Cell X → Prop
  | array {as bs : List (Value X)} : List.Forall₂ R as bs → Related R (.array as) (.array bs)
  | set {as bs : List (Value X)} : List.Forall₂ R as bs → Related R (.set as) (.set bs)
  | object {as bs : Table (Value X)} : (∀ key, Option.Rel R (as.get? key) (bs.get? key)) →
      Related R (.object as) (.object bs)
  | map {as bs : List (Value X × Value X)} :
      List.Forall₂ (fun e f => R e.1 f.1 ∧ R e.2 f.2) as bs → Related R (.map as) (.map bs)

namespace Heap

/-- Values of one variant: equal scalars, or values with related values inside. -/
inductive Matches (h : Heap X) (R : Value X → Value X → Prop) : Value X → Value X → Prop
  | scalar {v w : Value X} : v.Equals w → Matches h R v w
  | exempt {v w : Value X} : R v w → Matches h R (.exempt v) (.exempt w)
  | node {a b : Ref} {c d : Cell X} : h.cell? a = some c → h.cell? b = some d →
      c.Related R d → Matches h R (.node a) (.node b)

/-- A relation that only relates values that match under it. -/
def Bisimulation (h : Heap X) (R : Value X → Value X → Prop) : Prop :=
  ∀ v w, R v w → h.Matches R v w

/-- Values that some bisimulation relates. -/
def Bisimilar (h : Heap X) (v w : Value X) : Prop :=
  ∃ R, h.Bisimulation R ∧ R v w

/-- The values at and below a value, map keys and what exempt markers mark among
them. -/
inductive Below (h : Heap X) (x : Value X) : Value X → Prop
  | root : Below h x x
  | marked {v : Value X} : Below h x (.exempt v) → Below h x v
  | content {r : Ref} {c : Cell X} {v : Value X} : Below h x (.node r) → h.cell? r = some c →
      v ∈ c.contents → Below h x v

/-- A graph with all of its containers and without a boxed NaN. -/
structure Comparable (h : Heap X) (x : Value X) : Prop where
  closed : ∀ r, h.Below x (.node r) → ∃ c, h.cell? r = some c
  boxed : ∀ y, h.Below x (.boxed (.number y)) → y.isNaN = false

theorem Below.trans {h : Heap X} {x v w : Value X} (hv : h.Below x v) (hw : h.Below v w) :
    h.Below x w := by
  induction hw with
  | root => exact hv
  | marked _ ih => exact .marked ih
  | content _ hcell hmem ih => exact .content ih hcell hmem

/-- The values directly in a value. -/
def parts (h : Heap X) : Value X → List (Value X)
  | .exempt v => [v]
  | .node r => ((h.cell? r).map Cell.contents).getD []
  | _ => []

/-- What is below a value is in each list that has the value and all that is directly in its
members. -/
theorem Below.mem_of_closed {h : Heap X} {vs : List (Value X)} {x v : Value X}
    (hv : h.Below x v) (hclosed : ∀ w ∈ vs, ∀ u ∈ h.parts w, u ∈ vs) (hx : x ∈ vs) : v ∈ vs := by
  induction hv with
  | root => exact hx
  | marked _ ih => exact hclosed _ ih _ (by simp [parts])
  | content _ hcell hmem ih => exact hclosed _ ih _ (by simpa [parts, hcell] using hmem)

end Heap

/-! ### Related contents -/

/-- Two lists stay related where a weaker relation holds of their members. -/
theorem forall₂_imp_of_mem {α β : Type} {R R' : α → β → Prop} {as : List α} {bs : List β}
    (h : List.Forall₂ R as bs) (himp : ∀ a ∈ as, ∀ b ∈ bs, R a b → R' a b) :
    List.Forall₂ R' as bs := by
  rw [List.forall₂_iff_zip] at h ⊢
  refine ⟨h.1, fun {a b} hzip => ?_⟩
  obtain ⟨ha, hb⟩ := List.of_mem_zip hzip
  exact himp a ha b hb (h.2 hzip)

theorem Cell.Related.imp {R R' : Value X → Value X → Prop} {c d : Cell X} (h : c.Related R d)
    (himp : ∀ v ∈ c.contents, ∀ w ∈ d.contents, R v w → R' v w) : c.Related R' d := by
  cases h with
  | array hitems => exact .array (forall₂_imp_of_mem hitems himp)
  | set hitems => exact .set (forall₂_imp_of_mem hitems himp)
  | @object as bs hnamed =>
    refine .object fun key => ?_
    have hkey := hnamed key
    cases hv : as.get? key <;> cases hw : bs.get? key <;> rw [hv, hw] at hkey <;> cases hkey
    · exact .none
    · next hrel =>
      exact .some (himp _ (Table.mem_values_of_get? hv) _ (Table.mem_values_of_get? hw) hrel)
  | @map as bs hentries =>
    refine .map (forall₂_imp_of_mem hentries fun e he f hf hrel => ⟨?_, ?_⟩)
    · exact himp _ (List.mem_flatMap.2 ⟨e, he, by simp⟩) _ (List.mem_flatMap.2 ⟨f, hf, by simp⟩)
        hrel.1
    · exact himp _ (List.mem_flatMap.2 ⟨e, he, by simp⟩) _ (List.mem_flatMap.2 ⟨f, hf, by simp⟩)
        hrel.2

/-- A container is related to itself if each value in it is. -/
theorem Cell.Related.of_self {R : Value X → Value X → Prop} {c : Cell X}
    (hself : ∀ v ∈ c.contents, R v v) : c.Related R c := by
  cases c with
  | array items => exact .array (List.forall₂_same.2 hself)
  | set items => exact .set (List.forall₂_same.2 hself)
  | object properties =>
    refine .object fun key => ?_
    cases hv : properties.get? key with
    | none => exact .none
    | some v => exact .some (hself v (Table.mem_values_of_get? hv))
  | map entries =>
    refine .map (List.forall₂_same.2 fun e he => ⟨?_, ?_⟩)
    · exact hself _ (List.mem_flatMap.2 ⟨e, he, by simp⟩)
    · exact hself _ (List.mem_flatMap.2 ⟨e, he, by simp⟩)

/-- Tables of one size are related name by name if each entry of the one has its
counterpart in the other. -/
theorem Table.rel_get?_of_size_eq {α β : Type} {R : α → β → Prop} {as : Table α} {bs : Table β}
    (hsize : as.size = bs.size)
    (hall : ∀ e ∈ as.entries, ∃ w, bs.get? e.1 = some w ∧ R e.2 w) (key : String) :
    Option.Rel R (as.get? key) (bs.get? key) := by
  have hsub : as.keys ⊆ bs.keys := by
    intro name hname
    obtain ⟨e, he, rfl⟩ := List.mem_map.1 hname
    obtain ⟨w, hw, _⟩ := hall e he
    exact (bs.mem_keys_iff _).2 ⟨w, hw⟩
  have hperm : as.keys.Perm bs.keys := by
    apply (List.subperm_of_subset as.keys_nodup hsub).perm_of_length_le
    simpa [keys, size] using Nat.le_of_eq hsize.symm
  cases hv : as.get? key with
  | some v =>
    obtain ⟨w, hw, hrel⟩ := hall _ ((as.get?_eq_some_iff).1 hv)
    rw [hw]
    exact .some hrel
  | none =>
    cases hw : bs.get? key with
    | none => exact .none
    | some w =>
      obtain ⟨v, hv'⟩ := (as.mem_keys_iff key).1 (hperm.mem_iff.2 ((bs.mem_keys_iff key).2 ⟨w, hw⟩))
      rw [hv] at hv'
      cases hv'

/-- Tables that are related name by name are of one size. -/
theorem Table.size_eq_of_rel_get? {α β : Type} {R : α → β → Prop} {as : Table α} {bs : Table β}
    (hrel : ∀ key, Option.Rel R (as.get? key) (bs.get? key)) : as.size = bs.size := by
  have hperm : as.keys.Perm bs.keys := by
    apply (List.perm_ext_iff_of_nodup as.keys_nodup bs.keys_nodup).2
    intro key
    refine (as.mem_keys_iff key).trans (Iff.trans ?_ (bs.mem_keys_iff key).symm)
    have hkey := hrel key
    cases hv : as.get? key <;> cases hw : bs.get? key <;> rw [hv, hw] at hkey <;>
      cases hkey <;> simp
  simpa [keys, size] using hperm.length_eq

/-- Tables that are related name by name are related entry by entry, in some order of the second
one. -/
theorem Table.exists_perm_of_rel_get? {α : Type} {R : α → α → Prop} {as bs : Table α}
    (hrel : ∀ key, Option.Rel R (as.get? key) (bs.get? key)) :
    ∃ others, List.Forall₂ (fun e f => f.1 = e.1 ∧ R e.2 f.2) as.entries others ∧
      others.Perm bs.entries := by
  let counterpart (e : String × α) : String × α := (e.1, (bs.get? e.1).getD e.2)
  have hall : ∀ e ∈ as.entries, counterpart e ∈ bs.entries ∧ R e.2 (counterpart e).2 := by
    intro e he
    have hkey := hrel e.1
    rw [(as.get?_eq_some_iff).2 he] at hkey
    cases hw : bs.get? e.1 with
    | none =>
      rw [hw] at hkey
      cases hkey
    | some w =>
      rw [hw] at hkey
      cases hkey with
      | some hvalue =>
        simp only [counterpart, hw, Option.getD_some]
        exact ⟨(bs.get?_eq_some_iff).1 hw, hvalue⟩
  refine ⟨as.entries.map counterpart, ?_, ?_⟩
  · exact List.forall₂_map_right_iff.2 (List.forall₂_same.2 fun e he => ⟨rfl, (hall e he).2⟩)
  · have hnodup : (as.entries.map counterpart).Nodup := by
      apply List.Nodup.of_map Prod.fst
      rw [List.map_map]
      exact as.keys_nodup
    apply (List.subperm_of_subset hnodup fun f hf => ?_).perm_of_length_le
    · rw [List.length_map]
      exact Nat.le_of_eq (size_eq_of_rel_get? hrel).symm
    · obtain ⟨e, he, rfl⟩ := List.mem_map.1 hf
      exact (hall e he).1

namespace Heap

theorem Matches.imp {h : Heap X} {R R' : Value X → Value X → Prop} {v w : Value X}
    (hm : h.Matches R v w)
    (himp : ∀ v' w', h.Below v v' → h.Below w w' → R v' w' → R' v' w') : h.Matches R' v w := by
  cases hm with
  | scalar heq => exact .scalar heq
  | exempt hrel => exact .exempt (himp _ _ (.marked .root) (.marked .root) hrel)
  | node hc hd hrel =>
    refine .node hc hd (hrel.imp fun v' hv' w' hw' => ?_)
    exact himp v' w' (.content .root hc hv') (.content .root hd hw')

/-- Where a bisimulation is cut off to what is below two values, it is one still. -/
theorem Bisimulation.below {h : Heap X} {R : Value X → Value X → Prop} (hR : h.Bisimulation R)
    (x y : Value X) : h.Bisimulation fun v w => h.Below x v ∧ h.Below y w ∧ R v w := by
  intro v w hrel
  obtain ⟨hv, hw, hrel⟩ := hrel
  exact (hR v w hrel).imp fun v' w' hv' hw' hrel' => ⟨hv.trans hv', hw.trans hw', hrel'⟩

end Heap

end TypeDescription
