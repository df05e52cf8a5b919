import Mathlib.Algebra.BigOperators.Group.Finset.Basic
import Mathlib.Algebra.Order.BigOperators.Group.Finset
import TypeDescription.Proofs.Literal.Generation

/-!
# Lists and tables are not shared

Only the data objects of types are handed out more than once.  Every other container
that a generator makes, such as the list of the members of a union or the table of the
properties of a class, is put into one place.  `Heap.holders` counts the places of a
container, and `Owned` says that no other container has two.

A step may hand out containers that stand nowhere yet, which are `Loose`, and a later
step puts them somewhere.  No step puts a container somewhere that was made before the
step began, unless it was handed the container (`Takes`).  So nothing is put into two
places.

Nothing is asked of the types here.
-/

namespace TypeDescription

/-! ## Places of a container -/

theorem Table.count_values_insert_le {α : Type} [DecidableEq α] (t : Table α) (key : String)
    (value v : α) : (t.insert key value).values.count v ≤ t.values.count v + [value].count v := by
  show ((putEntry key value t.entries).map Prod.snd).count v ≤
    (t.entries.map Prod.snd).count v + [value].count v
  induction t.entries with
  | nil => simp [putEntry]
  | cons entry rest ih =>
    obtain ⟨name, w⟩ := entry
    unfold putEntry
    split <;> simp only [List.map_cons, List.count_cons, List.count_nil] at ih ⊢ <;> omega

theorem Table.count_values_ofList_le {α : Type} [DecidableEq α] (entries : List (String × α))
    (v : α) : (Table.ofList entries).values.count v ≤ (entries.map Prod.snd).count v := by
  unfold Table.ofList
  induction entries using List.reverseRecOn with
  | nil => simp [Table.empty, Table.values]
  | append_singleton entries entry ih =>
    rw [List.foldl_append, List.map_append, List.count_append]
    exact Nat.le_trans (Table.count_values_insert_le _ _ _ v) (Nat.add_le_add_right ih _)

namespace Heap

/-- In how many places a container stands. -/
def holders (h : Heap Expression) (q : Ref) : Nat :=
  ∑ r ∈ Finset.range h.size, (h.slots r).count (.node q)

variable {h : Heap Expression} {c c' : Cell Expression} {r : Ref}

theorem slots_of_cell? (hcell : h.cell? r = some c) : h.slots r = c.slots := by
  simp [slots, hcell]

theorem holders_allocate (h : Heap Expression) (c : Cell Expression) (q : Ref) :
    (h.allocate c).2.holders q = h.holders q + c.slots.count (.node q) := by
  unfold holders
  rw [size_allocate, Finset.sum_range_succ, slots_of_cell? (cell?_allocate_self h c)]
  congr 1
  refine Finset.sum_congr rfl fun r hr => ?_
  unfold slots
  rw [cell?_allocate_of_lt c (Finset.mem_range.1 hr)]

/-- A container that is written takes up no more than its new values. -/
theorem holders_write_le (hcell : h.cell? r = some c) {q : Ref} {more : Nat}
    (hmore : c'.slots.count (.node q) ≤ c.slots.count (.node q) + more) :
    (h.write r c').holders q ≤ h.holders q + more := by
  have hlt := lt_size_of_cell? hcell
  have hmem : r ∈ Finset.range h.size := Finset.mem_range.2 hlt
  have hothers : ∑ s ∈ (Finset.range h.size).erase r, ((h.write r c').slots s).count (.node q) =
      ∑ s ∈ (Finset.range h.size).erase r, (h.slots s).count (.node q) := by
    refine Finset.sum_congr rfl fun s hs => ?_
    unfold slots
    rw [cell?_write_of_ne c' (Finset.ne_of_mem_erase hs)]
  unfold holders
  rw [size_write, ← Finset.add_sum_erase _ _ hmem, ← Finset.add_sum_erase _ _ hmem, hothers,
    slots_of_cell? (cell?_write_self c' hlt), slots_of_cell? hcell]
  exact (Nat.add_le_add_right hmore _).trans (Nat.le_of_eq (Nat.add_right_comm _ _ _))

end Heap

/-! ## The invariant -/

/-- A container is the data object of a type. -/
def LiteralGenerator.IsObject (g : LiteralGenerator) (q : Ref) : Prop :=
  ∃ key, g.objects.lookup key = some (.node q)

/-- A container is an object with something under `kind` that is no container. -/
def Heap.Tagged (h : Heap Expression) (r : Ref) : Prop :=
  ∃ t tag, h.cell? r = some (.object t) ∧ t.get? "kind" = some tag ∧
    tag.unwrap.isContainer = false

theorem Heap.Tagged.lt_size {h : Heap Expression} {r : Ref} (hr : h.Tagged r) : r < h.size := by
  obtain ⟨t, tag, hcell, _⟩ := hr
  exact lt_size_of_cell? hcell

/-- Fields are inserted into objects only. -/
theorem Heap.exists_of_insert? {h h' : Heap Expression} {target v : Value Expression}
    {key : String} (hinsert : h.insert? target key v = some h') :
    ∃ r t, target = .node r ∧ h.cell? r = some (.object t) ∧
      h' = h.write r (.object (t.insert key v)) := by
  unfold insert? at hinsert
  split at hinsert
  · next r =>
    split at hinsert
    · next t hcell => exact ⟨r, t, rfl, hcell, (Option.some.inj hinsert).symm⟩
    · cases hinsert
  · cases hinsert

/-- The data objects of types can be told by their kind, and no other container stands in
two places. -/
structure Owned (g : LiteralGenerator) : Prop where
  object : ∀ key v, g.objects.lookup key = some v → ∃ r, v = .node r ∧ g.heap.Tagged r
  absent : ∀ q, g.heap.size ≤ q → g.heap.holders q = 0
  single : ∀ q, ¬ g.IsObject q → g.heap.holders q ≤ 1

theorem owned_empty : Owned LiteralGenerator.empty where
  object _ _ h := by cases h
  absent _ _ := rfl
  single _ _ := Nat.zero_le 1

/-- The containers below a bound are put nowhere, and none becomes a data object. -/
structure Spares (bound : Nat) (g g' : LiteralGenerator) : Prop where
  size_le : g.heap.size ≤ g'.heap.size
  isObject : ∀ q, g.IsObject q → g'.IsObject q
  old : ∀ q, q < bound → g'.IsObject q → g.IsObject q
  holders_le : ∀ q, q < bound → ¬ g.IsObject q → g'.heap.holders q ≤ g.heap.holders q

theorem Spares.refl (bound : Nat) (g : LiteralGenerator) : Spares bound g g :=
  ⟨Nat.le_refl _, fun _ h => h, fun _ _ h => h, fun _ _ _ => Nat.le_refl _⟩

theorem Spares.trans {bound : Nat} {g g' g'' : LiteralGenerator} (h : Spares bound g g')
    (h' : Spares bound g' g'') : Spares bound g g'' where
  size_le := Nat.le_trans h.size_le h'.size_le
  isObject q hq := h'.isObject q (h.isObject q hq)
  old q hlt hq := h.old q hlt (h'.old q hlt hq)
  holders_le q hlt hq :=
    Nat.le_trans (h'.holders_le q hlt fun hq' => hq (h.old q hlt hq')) (h.holders_le q hlt hq)

theorem Spares.mono {bound bound' : Nat} {g g' : LiteralGenerator} (h : Spares bound' g g')
    (hbound : bound ≤ bound') : Spares bound g g' where
  size_le := h.size_le
  isObject := h.isObject
  old q hlt := h.old q (Nat.lt_of_lt_of_le hlt hbound)
  holders_le q hlt := h.holders_le q (Nat.lt_of_lt_of_le hlt hbound)

/-- A container among the values is the data object of a type, or it is not below the
bound, stands nowhere, and is among the values once. -/
def Loose (bound : Nat) (g : LiteralGenerator) (vs : List (Value Expression)) : Prop :=
  ∀ q, .node q ∈ vs → q < g.heap.size ∧
    (g.IsObject q ∨ bound ≤ q ∧ g.heap.holders q = 0 ∧ vs.count (.node q) = 1)

section Loose

variable {bound : Nat} {g g' : LiteralGenerator} {vs ws : List (Value Expression)}

theorem loose_nil (bound : Nat) (g : LiteralGenerator) : Loose bound g [] :=
  fun _ hq => absurd hq List.not_mem_nil

/-- A value that is no container can be put anywhere. -/
theorem loose_of_ne_node {v : Value Expression} (hv : ∀ q, v ≠ .node q) (bound : Nat)
    (g : LiteralGenerator) : Loose bound g [v] :=
  fun q hq => absurd (List.mem_singleton.1 hq).symm (hv q)

/-- So can the data object of a type. -/
theorem loose_of_isObject (hg : Owned g) {q : Ref} (hq : g.IsObject q) (bound : Nat) :
    Loose bound g [.node q] := by
  intro q' hq'
  obtain rfl := Value.node.inj (List.mem_singleton.1 hq')
  obtain ⟨key, hkey⟩ := id hq
  obtain ⟨r, hr, htagged⟩ := hg.object key _ hkey
  exact ⟨Value.node.inj hr ▸ htagged.lt_size, .inl hq⟩

/-- Values from before a step and values made by it. -/
theorem Loose.append (hvs : Loose bound g vs) (hspares : Spares g.heap.size g g')
    (hbound : bound ≤ g.heap.size) (hws : Loose g.heap.size g' ws) :
    Loose bound g' (vs ++ ws) := by
  intro q hq
  rw [List.count_append]
  by_cases hobject : g'.IsObject q
  · refine ⟨?_, .inl hobject⟩
    rcases List.mem_append.1 hq with hq | hq
    · exact Nat.lt_of_lt_of_le (hvs q hq).1 hspares.size_le
    · exact (hws q hq).1
  · by_cases hold : .node q ∈ vs
    · obtain ⟨hlt, hloose⟩ := hvs q hold
      have hobject' : ¬ g.IsObject q := fun h => hobject (hspares.isObject q h)
      obtain ⟨hle, hnone, hcount⟩ := hloose.resolve_left hobject'
      have hkept := hspares.holders_le q hlt hobject'
      -- what the step made is not below the size that the heap had
      have hnew : .node q ∉ ws := fun hmem => by
        have := ((hws q hmem).2.resolve_left hobject).1
        omega
      rw [List.count_eq_zero_of_not_mem hnew]
      exact ⟨Nat.lt_of_lt_of_le hlt hspares.size_le, .inr ⟨hle, by omega, by omega⟩⟩
    · have hmem : .node q ∈ ws := (List.mem_append.1 hq).resolve_left hold
      obtain ⟨hlt, hloose⟩ := hws q hmem
      obtain ⟨hle, hnone, hcount⟩ := hloose.resolve_left hobject
      rw [List.count_eq_zero_of_not_mem hold]
      exact ⟨hlt, .inr ⟨by omega, hnone, by omega⟩⟩

/-- What is put somewhere stands in one place then. -/
theorem Loose.holders_le (hvs : Loose bound g vs) (hg : Owned g) {q : Ref}
    (hq : ¬ g.IsObject q) : g.heap.holders q + vs.count (.node q) ≤ 1 := by
  by_cases hmem : .node q ∈ vs
  · obtain ⟨_, hnone, hcount⟩ := (hvs q hmem).2.resolve_left hq
    omega
  · rw [List.count_eq_zero_of_not_mem hmem]
    exact hg.single q hq

/-- What lies below the bound is not among the values. -/
theorem Loose.count_eq_zero (hvs : Loose bound g vs) {q : Ref} (hq : ¬ g.IsObject q)
    (hlt : q < bound) : vs.count (.node q) = 0 := by
  refine List.count_eq_zero_of_not_mem fun hmem => ?_
  exact Nat.not_le_of_lt hlt ((hvs q hmem).2.resolve_left hq).1

theorem Loose.count_eq_zero_of_size_le (hvs : Loose bound g vs) {q : Ref}
    (hq : g.heap.size ≤ q) : vs.count (.node q) = 0 := by
  refine List.count_eq_zero_of_not_mem fun hmem => ?_
  exact Nat.not_le_of_lt (hvs q hmem).1 hq

end Loose

/-! ## Steps -/

namespace Generation

/-- What a step leaves that was handed some values, and hands out others. -/
structure Handed (bound : Nat) (g g' : LiteralGenerator) (vs : List (Value Expression)) : Prop where
  owned : Owned g'
  spares : Spares bound g g'
  loose : Loose bound g' vs

/-- A step that may put the given values somewhere, each into one place, and no other
container that was there before it. -/
def Takes {α : Type} (us : List (Value Expression)) (step : Generation α)
    (vs : α → List (Value Expression)) : Prop :=
  ∀ bound g a g', Owned g → bound ≤ g.heap.size → Loose bound g us →
    step.run.run g = (.ok a, g') → Handed bound g g' (vs a)

section Takes

variable {α β : Type} {us : List (Value Expression)} {g g' : LiteralGenerator}

theorem takes_pure {a : α} {vs : α → List (Value Expression)}
    (hvs : ∀ bound g, Loose bound g us → Loose bound g (vs a)) : Takes us (pure a) vs := by
  intro bound g b g' hg _ hus hrun
  cases hrun
  exact ⟨hg, .refl bound g, hvs bound g hus⟩

theorem Takes.bind {m : Generation α} {f : α → Generation β} {vs : α → List (Value Expression)}
    {ws : β → List (Value Expression)} (hm : Takes us m vs) (hf : ∀ a, Takes (vs a) (f a) ws) :
    Takes us (m >>= f) ws := by
  intro bound g b g'' hg hbound hus hrun
  obtain ⟨a, g', hfirst, hnext⟩ := ok_of_run_bind hrun
  have H := hm bound g a g' hg hbound hus hfirst
  have H' := hf a bound g' b g'' H.owned (Nat.le_trans hbound H.spares.size_le) H.loose hnext
  exact ⟨H'.owned, H.spares.trans H'.spares, H'.loose⟩

/-- Values that a step is not handed can be put somewhere after it. -/
theorem Takes.frame {step : Generation α} {vs : α → List (Value Expression)}
    (h : Takes [] step vs) (us : List (Value Expression)) : Takes us step fun a => us ++ vs a := by
  intro bound g a g' hg hbound hus hrun
  have H := h g.heap.size g a g' hg (Nat.le_refl _) (loose_nil _ g) hrun
  exact ⟨H.owned, H.spares.mono hbound, hus.append H.spares hbound H.loose⟩

theorem takes_mapM {f : α → Generation β} {vs : β → List (Value Expression)} (l : List α)
    (hf : ∀ a ∈ l, Takes [] (f a) vs) : Takes [] (l.mapM f) fun bs => bs.flatMap vs := by
  induction l with
  | nil => exact takes_pure fun _ _ h => h
  | cons a l ih =>
    rw [List.mapM_cons]
    refine .bind (hf a List.mem_cons_self) fun b => ?_
    refine .bind ((ih fun a' ha' => hf a' (List.mem_cons_of_mem _ ha')).frame (vs b)) fun bs => ?_
    exact takes_pure fun _ _ h => h

/-- A new container stands nowhere, and its values stand in it. -/
theorem takes_allocate {c : Cell Expression}
    (hc : ∀ q, c.slots.count (.node q) ≤ us.count (.node q)) :
    Takes us (allocate c) fun v => [v] := by
  intro bound g v g' hg hbound hus hrun
  obtain ⟨rfl, rfl⟩ : v = .node g.heap.size ∧ { g with heap := (g.heap.allocate c).2 } = g' := by
    cases hrun
    exact ⟨rfl, rfl⟩
  have hholders : ∀ q, (g.heap.allocate c).2.holders q ≤ g.heap.holders q + us.count (.node q) := by
    intro q
    rw [Heap.holders_allocate]
    exact Nat.add_le_add_left (hc q) _
  have hsize : (g.heap.allocate c).2.size = g.heap.size + 1 := Heap.size_allocate _ _
  refine ⟨⟨fun key v hv => ?_, fun q hq => ?_, fun q hq => ?_⟩,
    ⟨by dsimp only; omega, fun _ h => h, fun _ _ h => h, fun q hlt hq => ?_⟩, fun q hq => ?_⟩
  · obtain ⟨r, hr, t, tag, hcell, htag⟩ := hg.object key v hv
    exact ⟨r, hr, t, tag, (Heap.within_allocate g.heap c).cell? hcell, htag⟩
  · have hq : g.heap.size ≤ q := by
      dsimp only at hq
      omega
    have := hholders q
    rw [hg.absent q hq, hus.count_eq_zero_of_size_le hq] at this
    exact Nat.le_zero.1 this
  · exact Nat.le_trans (hholders q) (hus.holders_le hg hq)
  · have := hholders q
    rwa [hus.count_eq_zero hq hlt] at this
  · obtain rfl := Value.node.inj (List.mem_singleton.1 hq)
    have hnone := hholders g.heap.size
    rw [hg.absent _ (Nat.le_refl _), hus.count_eq_zero_of_size_le (Nat.le_refl _)] at hnone
    exact ⟨by dsimp only; omega, .inr ⟨hbound, Nat.le_zero.1 hnone, List.count_singleton_self⟩⟩

theorem takes_object {fields : List (String × Value Expression)}
    (hfields : ∀ q, (fields.map Prod.snd).count (.node q) ≤ us.count (.node q)) :
    Takes us (object fields) fun v => [v] :=
  takes_allocate fun q => Nat.le_trans (Table.count_values_ofList_le fields _) (hfields q)

/-- A field that is not the kind leaves an object tagged. -/
theorem tagged_write {h : Heap Expression} {r s : Ref} {t : Table (Value Expression)}
    (hcell : h.cell? r = some (.object t)) {key : String} (hkey : key ≠ "kind")
    (v : Value Expression) (hs : h.Tagged s) : (h.write r (.object (t.insert key v))).Tagged s := by
  by_cases heq : s = r
  · subst heq
    obtain ⟨t', tag, hcell', htag, hscalar⟩ := hs
    obtain rfl := Cell.object.inj (Option.some.inj (hcell.symm.trans hcell'))
    refine ⟨_, tag, Heap.cell?_write_self _ (Heap.lt_size_of_cell? hcell), ?_, hscalar⟩
    rw [Table.get?_insert_of_ne t v hkey.symm, htag]
  · obtain ⟨t', tag, hcell', htag⟩ := hs
    exact ⟨t', tag, (Heap.cell?_write_of_ne _ heq).trans hcell', htag⟩

/-- A value stands in the object that it is inserted into. -/
theorem takes_insert (target : Value Expression) {key : String} (hkey : key ≠ "kind")
    (v : Value Expression) : Takes [v] (insert target key v) fun _ => [] := by
  intro bound g a g' hg hbound hv hrun
  obtain rfl : { g with heap := (g.heap.insert? target key v).getD g.heap } = g' := by
    cases hrun
    rfl
  cases hinsert : g.heap.insert? target key v with
  | none => exact ⟨hg, .refl bound g, loose_nil bound g⟩
  | some heap =>
    obtain ⟨r, t, _, hcell, rfl⟩ := Heap.exists_of_insert? hinsert
    have hholders : ∀ q, (g.heap.write r (.object (t.insert key v))).holders q ≤
        g.heap.holders q + [v].count (.node q) :=
      fun q => Heap.holders_write_le hcell (Table.count_values_insert_le t key v _)
    have hsize : (g.heap.write r (.object (t.insert key v))).size = g.heap.size :=
      Heap.size_write _ _ _
    dsimp only [Option.getD_some]
    refine ⟨⟨fun key' u hu => ?_, fun q hq => ?_, fun q hq => ?_⟩,
      ⟨Nat.le_of_eq hsize.symm, fun _ h => h, fun _ _ h => h, fun q hlt hq => ?_⟩, loose_nil _ _⟩
    · obtain ⟨s, hs, htagged⟩ := hg.object key' u hu
      exact ⟨s, hs, tagged_write hcell hkey v htagged⟩
    · have := hholders q
      rw [hsize] at hq
      rw [hg.absent q hq, hv.count_eq_zero_of_size_le hq] at this
      exact Nat.le_zero.1 this
    · exact Nat.le_trans (hholders q) (hv.holders_le hg hq)
    · have := hholders q
      rwa [hv.count_eq_zero hq hlt] at this

/-! ## The data of types -/

theorem takes_array {make : α → Generation (Value Expression)} (l : List α)
    (hmake : ∀ a ∈ l, Takes [] (make a) fun v => [v]) : Takes [] (array make l) fun v => [v] := by
  refine .bind (takes_mapM l hmake) fun items => takes_allocate fun q => ?_
  rw [List.flatMap_singleton']
  exact Nat.le_refl _

variable {child : NodeRef → Position → Generation (Value Expression)}

theorem takes_properties (hchild : ∀ n position, Takes [] (child n position) fun v => [v])
    (members : List Member) : Takes [] (properties child members) fun v => [v] := by
  have hentry : ∀ member ∈ members, Takes []
      (child member.type (.ofProperty member) >>= fun value => pure (member.name, value))
      fun entry => [entry.2] := fun member _ =>
    .bind (hchild _ _) fun value => takes_pure fun _ _ h => h
  refine .bind (takes_mapM members hentry) fun entries => takes_object fun q => ?_
  rw [List.map_eq_flatMap]

theorem count_modifiersValue (m : Option Modifiers) (q : Ref) :
    [modifiersValue m].count (.node q) = 0 := by
  cases m <;> rfl

theorem takes_parameter (hchild : ∀ n position, Takes [] (child n position) fun v => [v])
    (p : Member) : Takes [] (parameter child p) fun v => [v] := by
  refine .bind (hchild _ _) fun type => takes_object fun q => ?_
  have := count_modifiersValue (some p.modifiers) q
  simp only [List.map_cons, List.map_nil, List.count_cons, List.count_nil] at this ⊢
  simp only [beq_iff_eq, reduceCtorEq, if_false] at this ⊢
  omega

theorem takes_constructor (hchild : ∀ n position, Takes [] (child n position) fun v => [v])
    (c : Constructor) : Takes [] (constructor child c) fun v => [v] := by
  refine .bind (takes_array _ fun p _ => takes_parameter hchild p) fun parameters => ?_
  refine takes_object fun q => ?_
  have := count_modifiersValue (some c.modifiers) q
  simp only [List.map_cons, List.map_nil, List.count_cons, List.count_nil] at this ⊢
  omega

/-- Each field of a type makes a value that stands nowhere yet, or hands out a type.  None
is the kind. -/
theorem takes_fields (hchild : ∀ n position, Takes [] (child n position) fun v => [v])
    (content : TypeContent) :
    ∀ part ∈ fields child content, part.1 ≠ "kind" ∧ Takes [] part.2 fun v => [v] := by
  have hscalar : ∀ {v : Value Expression}, (∀ q, v ≠ .node q) →
      Takes [] (pure v) fun v => [v] := fun hv => takes_pure fun bound g _ =>
    loose_of_ne_node hv bound g
  have hlist : ∀ l : List NodeRef, Takes [] (list child l) fun v => [v] := fun l =>
    takes_array l fun n _ => hchild n _
  cases content with
  | object name members =>
    simp only [fields, List.forall_mem_cons, List.not_mem_nil, false_imp_iff, implies_true,
      and_true]
    exact ⟨⟨by simp, hscalar fun q => by cases name <;> nofun⟩, by simp,
      takes_properties hchild members⟩
  | classType content =>
    simp only [fields, List.cons_append, List.nil_append, List.forall_mem_cons,
      List.forall_mem_map]
    exact ⟨⟨by simp, hscalar fun q => nofun⟩, ⟨by simp, takes_properties hchild _⟩,
      ⟨by simp, takes_array _ fun c _ => takes_constructor hchild c⟩,
      fun base _ => ⟨by simp, hchild base _⟩⟩
  | tuple elements => exact List.forall_mem_singleton.2 ⟨by simp, hlist elements⟩
  | union members => exact List.forall_mem_singleton.2 ⟨by simp, hlist members⟩
  | stringLiteral value =>
    exact List.forall_mem_singleton.2 ⟨by simp, hscalar fun q => nofun⟩
  | numberLiteral value =>
    exact List.forall_mem_singleton.2 ⟨by simp, hscalar fun q => nofun⟩
  | reference name arguments =>
    simp only [fields, List.forall_mem_cons, List.not_mem_nil, false_imp_iff, implies_true,
      and_true]
    exact ⟨⟨by simp, hscalar fun q => nofun⟩, by simp, hlist arguments⟩
  | _ => exact fun part hpart => absurd hpart List.not_mem_nil

theorem takes_fill (hchild : ∀ n position, Takes [] (child n position) fun v => [v])
    (target : Value Expression) (content : TypeContent) :
    Takes [] (fill child target content) fun _ => [] := by
  have hparts := takes_fields hchild content
  unfold fill
  generalize fields child content = parts at hparts ⊢
  induction parts with
  | nil => exact takes_pure fun _ _ h => h
  | cons part parts ih =>
    obtain ⟨hpart, hparts⟩ := List.forall_mem_cons.1 hparts
    exact .bind (.bind hpart.2 fun v => takes_insert target hpart.1 v) fun _ => ih hparts

section Data

variable {store : Store} {limit : UInt32} {bound : Nat}

theorem loose_handOut (hg : Owned g) {q : Ref} (hq : g.IsObject q) (kind : TypeKind) :
    Loose bound g [handOut kind (.node q)] := by
  unfold handOut
  split
  · exact loose_of_ne_node (fun _ h => by cases h) bound g
  · exact loose_of_isObject hg hq bound

theorem isObject_begun {key : TypeId × TypeKind} {position : Position}
    (hnone : g.objects.lookup key = none) {q : Ref} :
    (begun g key position).IsObject q ↔ g.IsObject q ∨ q = g.heap.size := by
  unfold LiteralGenerator.IsObject
  constructor
  · rintro ⟨key', hkey'⟩
    rw [lookup_begun] at hkey'
    split at hkey'
    · exact .inr (Value.node.inj (Option.some.inj hkey')).symm
    · exact .inl ⟨key', hkey'⟩
  · rintro (⟨key', hkey'⟩ | rfl)
    · refine ⟨key', ?_⟩
      rw [lookup_begun, if_neg, hkey']
      rintro rfl
      cases hnone.symm.trans hkey'
    · exact ⟨key, by rw [lookup_begun, if_pos rfl]⟩

/-- A data object that is begun has no container in it, and is one of a type. -/
theorem handed_begun (hg : Owned g) (hbound : bound ≤ g.heap.size) {key : TypeId × TypeKind}
    (hnone : g.objects.lookup key = none) (position : Position) :
    Handed bound g (begun g key position) [] := by
  have hheader : ∀ q, ((header key.2 position).map Prod.snd).count (.node q) ≤
      ([] : List (Value Expression)).count (.node q) := by
    intro q
    have hmodifiers := count_modifiersValue position.modifiers q
    unfold header
    cases hinitializer : position.initializer <;>
      simp only [List.map_cons, List.map_nil, List.count_cons, List.count_nil, verbatim?, verbatim,
        beq_iff_eq, reduceCtorEq, if_false] at hmodifiers ⊢ <;> omega
  have H := takes_object hheader bound g _ _ hg hbound (loose_nil bound g) rfl
  have hiff : ∀ q, (begun g key position).IsObject q ↔ g.IsObject q ∨ q = g.heap.size :=
    fun q => isObject_begun hnone
  refine ⟨⟨fun key' v hv => ?_, H.owned.absent, fun q hq => H.owned.single q fun h => hq ?_⟩,
    ⟨H.spares.size_le, fun q hq => (hiff q).2 (.inl hq), fun q hlt hq => ?_, H.spares.holders_le⟩,
    loose_nil _ _⟩
  · rw [lookup_begun] at hv
    split at hv
    · exact ⟨_, (Option.some.inj hv).symm, _, _, Heap.cell?_allocate_self _ _, rfl, rfl⟩
    · obtain ⟨r, hr, t, tag, hcell, htag⟩ := hg.object key' v hv
      exact ⟨r, hr, t, tag, (Heap.within_allocate g.heap _).cell? hcell, htag⟩
  · exact (hiff q).2 (.inl h)
  · exact ((hiff q).1 hq).resolve_right (Nat.ne_of_lt (Nat.lt_of_lt_of_le hlt hbound))

/-- What is handed out for a node is a data object, and the containers that were made for
it stand in one place each. -/
theorem takes_data (store : Store) (limit : UInt32) (room : Nat) :
    ∀ n position, Takes [] (data store limit room n position) fun v => [v] := by
  induction room using Nat.strong_induction_on with
  | _ room ih =>
    intro n position bound g v g' hg hbound _ hrun
    cases supplies_of_run_data hrun with
    | again _ hobject =>
      -- a data object can be handed out as often as it is asked for
      obtain ⟨r, rfl, _⟩ := hg.object _ _ hobject
      exact ⟨hg, .refl bound g, loose_handOut hg ⟨_, hobject⟩ _⟩
    | first _ hobject hfill =>
      have B := handed_begun hg hbound hobject position
      have H := takes_fill (ih _ (Nat.lt_succ_self _)) _ _ bound _ _ _ B.owned
        (Nat.le_trans hbound B.spares.size_le) (loose_nil _ _) hfill
      refine ⟨H.owned, B.spares.trans H.spares, loose_handOut H.owned ?_ _⟩
      exact H.spares.isObject _ ((isObject_begun hobject).2 (.inr rfl))

end Data

end Takes

end Generation

end TypeDescription
