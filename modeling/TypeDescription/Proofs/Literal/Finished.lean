import TypeDescription.Proofs.Literal.Generation

/-!
# Finished and unfinished data objects

A generator keeps a data object before it fills it.  When a call fails, the
objects that it was filling stay as they are, and later calls hand them out.

`Built` holds of a generator however its calls ended: its heap is proper, and the
data objects carry the fields of their kinds, but for some unfinished ones.  A call
that succeeds leaves no more unfinished objects than there were, and one that fails
leaves them only among the containers that it made (`builds_data`).
`finished_of_generated` says what this means for the data and the literals made
after any number of calls; `unfinished_handed_out` is a run in which a failed call
spoils a later one.

Nothing is asked of the types, so objects with two properties of one name are
included.
-/

namespace TypeDescription

/-! ## Tables -/

namespace Table

variable {α : Type} {t : Table α} {key : String} {value : α} {entry : String × α}

theorem mem_of_mem_insert (h : entry ∈ (t.insert key value).entries) :
    entry = (key, value) ∨ entry ∈ t.entries := by
  obtain ⟨name, v⟩ := entry
  rw [← get?_eq_some_iff] at h ⊢
  by_cases hname : name = key
  · subst hname
    rw [get?_insert_self] at h
    rw [Option.some.inj h]
    exact .inl rfl
  · rw [get?_insert_of_ne t value hname] at h
    exact .inr h

private theorem mem_of_mem_foldl_insert {entries : List (String × α)}
    (h : entry ∈ (entries.foldl (fun t entry => t.insert entry.1 entry.2) t).entries) :
    entry ∈ t.entries ∨ entry ∈ entries := by
  induction entries generalizing t with
  | nil => exact .inl h
  | cons first rest ih =>
    rcases ih h with h | h
    · rcases mem_of_mem_insert h with rfl | h
      · exact .inr List.mem_cons_self
      · exact .inl h
    · exact .inr (List.mem_cons_of_mem _ h)

/-- A table has no entries but those that it was made of. -/
theorem mem_of_mem_ofList {entries : List (String × α)} (h : entry ∈ (ofList entries).entries) :
    entry ∈ entries :=
  (mem_of_mem_foldl_insert h).elim (fun h => absurd h List.not_mem_nil) id

end Table

/-! ## Kinds and their fields -/

namespace TypeKind

/-- The fields that the data of a type of a kind has. -/
def fields : TypeKind → List String
  | object => ["properties"]
  | classType => ["properties", "constructors"]
  | tuple => ["elementTypes"]
  | union => ["types"]
  | stringLiteral => ["value"]
  | numberLiteral => ["value"]
  | reference => ["type", "arguments"]
  | _ => []

/-- What stands for a kind under `kind`. -/
def tag (kind : TypeKind) : Value Expression :=
  .number (Double.ofNat kind.code)

/-- The codes of the kinds are different numbers. -/
theorem eq_of_ofNat_code {kind kind' : TypeKind}
    (h : Double.ofNat kind.code = Double.ofNat kind'.code) : kind = kind' := by
  have hall : ∀ kind ∈ all, ∀ kind' ∈ all,
      Double.ofNat kind.code = Double.ofNat kind'.code → kind = kind' := by
    decide +kernel
  have hmem : ∀ kind : TypeKind, kind ∈ all := fun kind => by cases kind <;> decide
  exact hall kind (hmem kind) kind' (hmem kind') h

end TypeKind

/-- A table has a defined value under a name. -/
def Table.Defines (t : Table (Value Expression)) (name : String) : Prop :=
  ∃ v, t.get? name = some v ∧ v.isDefined = true

/-- A table has a defined value under the name of each field of a kind. -/
def Table.Carries (t : Table (Value Expression)) (kind : TypeKind) : Prop :=
  ∀ name ∈ kind.fields, t.Defines name

/-- A container is no object of a kind that lacks fields of the kind. -/
def Heap.Finished (h : Heap Expression) (r : Ref) : Prop :=
  ∀ t kind, h.cell? r = some (.object t) → t.get? "kind" = some kind.tag → t.Carries kind

/-- A literal is no object of a kind that lacks fields of the kind. -/
def Literal.Finished (M : Literal) : Prop :=
  ∀ kind : TypeKind, M.get? "kind" = some (.leaf (.number (Double.ofNat kind.code))) →
    ∀ name ∈ kind.fields, ∃ v, M.get? name = some v

/-! ## The invariant -/

/-- What the generator keeps are containers, its heap is proper, and what stands
under `kind` is a container or the kind of an object that is unfinished or has the
fields of the kind. -/
structure Built (unfinished : Ref → Prop) (g : LiteralGenerator) : Prop where
  object : ∀ key v, g.objects.lookup key = some v → ∃ r, v = .node r ∧ r < g.heap.size
  proper : g.heap.Proper
  tagged : ∀ r t v, g.heap.cell? r = some (.object t) → t.get? "kind" = some v →
    v.unwrap.isContainer = false → ∃ kind : TypeKind, v = kind.tag ∧ (unfinished r ∨ t.Carries kind)

theorem built_empty (unfinished : Ref → Prop) : Built unfinished LiteralGenerator.empty where
  object _ _ h := by cases h
  proper := (sound_empty default fun _ => True).proper
  tagged r t v h := by simp [LiteralGenerator.empty, Heap.empty, Heap.cell?] at h

section Built

variable {unfinished unfinished' : Ref → Prop} {g : LiteralGenerator} {r : Ref}
  {t : Table (Value Expression)}

/-- More containers may be unfinished. -/
theorem Built.mono (hg : Built unfinished g)
    (h : ∀ r, r < g.heap.size → unfinished r → unfinished' r) : Built unfinished' g where
  object := hg.object
  proper := hg.proper
  tagged r t v hcell hv hscalar := by
    obtain ⟨kind, hkind, hdone⟩ := hg.tagged r t v hcell hv hscalar
    exact ⟨kind, hkind, hdone.imp_left (h r (Heap.lt_size_of_cell? hcell))⟩

/-- A container is finished unless it counts as unfinished. -/
theorem Built.finished (hg : Built unfinished g) (r : Ref) :
    g.heap.Finished r ∨ unfinished r := by
  by_cases hr : unfinished r
  · exact .inr hr
  · refine .inl fun t kind hcell hkind => ?_
    obtain ⟨kind', heq, hdone⟩ := hg.tagged r t _ hcell hkind rfl
    obtain rfl := TypeKind.eq_of_ofNat_code (Value.number.inj heq)
    exact hdone.resolve_left hr

/-- A new container without a kind. -/
theorem Built.allocate (hg : Built unfinished g) {c : Cell Expression} (hc : c.Plain)
    (hbelow : ∀ v ∈ c.slots, v.Below g.heap.size)
    (hkind : ∀ t v, c = .object t → t.get? "kind" = some v → v.unwrap.isContainer = true) :
    Built unfinished { g with heap := (g.heap.allocate c).2 } where
  object key v hv := by
    obtain ⟨r, hr, hlt⟩ := hg.object key v hv
    exact ⟨r, hr, Nat.lt_of_lt_of_le hlt (Heap.within_allocate g.heap c).size_le⟩
  proper := hg.proper.allocate hc hbelow
  tagged r t v hcell hv hscalar := by
    rcases Heap.cell?_allocate_cases hcell with hold | ⟨_, rfl⟩
    · exact hg.tagged r t v hold hv hscalar
    · rw [hkind t v rfl hv] at hscalar
      cases hscalar

/-- A data object that is begun is unfinished. -/
theorem Built.begun (hg : Built unfinished g) (key : TypeId × TypeKind) (position : Position) :
    Built (fun r => unfinished r ∨ r = g.heap.size) (Generation.begun g key position) where
  object key' v hv := by
    have hsize : (Generation.begun g key position).heap.size = g.heap.size + 1 :=
      Heap.size_allocate _ _
    rw [hsize]
    rw [Generation.lookup_begun] at hv
    split at hv
    · exact ⟨_, (Option.some.inj hv).symm, Nat.lt_succ_self _⟩
    · obtain ⟨r, hr, hlt⟩ := hg.object key' v hv
      exact ⟨r, hr, Nat.lt_succ_of_lt hlt⟩
  proper := Generation.proper_begun hg.proper key position
  tagged r t v hcell hv hscalar := by
    rcases Heap.cell?_allocate_cases hcell with hold | ⟨rfl, heq⟩
    · obtain ⟨kind, hkind, hdone⟩ := hg.tagged r t v hold hv hscalar
      exact ⟨kind, hkind, hdone.imp_left .inl⟩
    · obtain rfl := Cell.object.inj heq
      exact ⟨key.2, (Option.some.inj hv).symm, .inl (.inr rfl)⟩

/-- A field inserted into an unfinished data object. -/
theorem Built.withField (hg : Built unfinished g) (hr : unfinished r)
    (hcell : g.heap.cell? r = some (.object t)) {key : String} {v : Value Expression}
    (hkind : key ≠ "kind") (href : key ≠ refKey) (hv : v.Below g.heap.size) :
    Built unfinished (Generation.withField g r t key v) where
  object key' u hu := by
    obtain ⟨s, hs, hlt⟩ := hg.object key' u hu
    exact ⟨s, hs, (Heap.size_write _ _ _).symm ▸ hlt⟩
  proper := by
    refine hg.proper.write (Cell.plain_object fun u hu => ?_) fun u hu => ?_
    · rcases Table.mem_of_mem_insert hu with heq | hu
      · exact absurd (congrArg Prod.fst heq).symm href
      · exact (hg.proper.plain r _ hcell).tokenless t u rfl ((Table.get?_eq_some_iff _).2 hu)
    · obtain ⟨entry, hentry, rfl⟩ := List.mem_map.1 hu
      rcases Table.mem_of_mem_insert hentry with rfl | hentry
      · exact hv
      · exact hg.proper.below r _ hcell _ (List.mem_map_of_mem hentry)
  tagged s t' u hcell' hu hscalar := by
    rcases Heap.cell?_write_cases hcell' with hold | ⟨rfl, heq⟩
    · exact hg.tagged s t' u hold hu hscalar
    · obtain rfl := Cell.object.inj heq
      rw [Table.get?_insert_of_ne t v hkind.symm] at hu
      obtain ⟨kind, heq, _⟩ := hg.tagged s t u hcell hu hscalar
      exact ⟨kind, heq, .inl hr⟩

end Built

/-! ## Steps -/

namespace Generation

open Regime

/-- Steps keep the generator built and all that was made. -/
def building (unfinished : Ref → Prop) : Regime LiteralGenerator LiteralGenerator where
  view := id
  Holds := Built unfinished
  Grows := LiteralGenerator.Grows
  refl := .refl
  trans := .trans

/-- A failed step may leave unfinished whatever it made. -/
def Abandons (unfinished : Ref → Prop) (g g' : LiteralGenerator) : Prop :=
  Built (fun r => unfinished r ∨ g.heap.size ≤ r) g'

/-- A step builds a value, whatever is unfinished before it. -/
def Builds {α : Type} (step : Generation α) (Q : LiteralGenerator → α → Prop) : Prop :=
  ∀ unfinished, (building unfinished).Runs (Abandons unfinished) (fun _ => True) step Q

/-- A container of the heap, perhaps exempt. -/
def Part (g : LiteralGenerator) (v : Value Expression) : Prop :=
  v.Below g.heap.size ∧ v.unwrap.isContainer = true

section Builds

variable {unfinished : Ref → Prop} {P : LiteralGenerator → Prop} {g g' : LiteralGenerator}

theorem absorbs_abandons : (building unfinished).Absorbs (Abandons unfinished) := by
  intro g g' g'' hgrows hleft
  have hgrows : g.Grows g' := hgrows
  exact hleft.mono fun r _ hr => hr.imp_right (Nat.le_trans hgrows.heap.size_le)

theorem stable_part (v : Value Expression) : (building unfinished).Stable fun g => Part g v :=
  fun _ _ hg h => ⟨h.1.mono hg.heap.size_le, h.2⟩

theorem Part.isDefined {v : Value Expression} (h : Part g v) : v.isDefined = true := by
  unfold Value.isDefined
  cases hv : v.unwrap with
  | node r => rfl
  | _ =>
    have hcontainer := h.2
    rw [hv] at hcontainer
    cases hcontainer

/-- A new container without a kind. -/
theorem runs_allocate {c : Cell Expression}
    (hc : ∀ g, P g → c.Plain ∧ (∀ v ∈ c.slots, v.Below g.heap.size) ∧
      ∀ t v, c = .object t → t.get? "kind" = some v → v.unwrap.isContainer = true) :
    (building unfinished).Runs (Abandons unfinished) P (allocate c) Part where
  ok := by
    intro g v g' hg hp hrun
    obtain ⟨hplain, hbelow, hkind⟩ := hc g hp
    have hg : Built unfinished g := hg
    have hbuilt := hg.allocate hplain hbelow hkind
    cases hrun
    refine ⟨hbuilt, ⟨Heap.within_allocate g.heap c, fun _ _ h => h⟩, fun r hr => ?_, rfl⟩
    obtain rfl := Value.node.inj hr
    show g.heap.size < (g.heap.allocate c).2.size
    rw [Heap.size_allocate]
    exact Nat.lt_succ_self _
  error _ _ _ _ _ hrun := by cases hrun

/-- An object that has containers at most under `$ref` and `kind`. -/
theorem runs_object {fields : List (String × Value Expression)}
    (hfields : ∀ g, P g → ∀ field ∈ fields, field.2.Below g.heap.size ∧
      (field.1 = refKey ∨ field.1 = "kind" → field.2.unwrap.isContainer = true)) :
    (building unfinished).Runs (Abandons unfinished) P (object fields) Part := by
  refine runs_allocate fun g hp => ⟨Cell.plain_object fun v hv => ?_, fun v hv => ?_,
    fun t v ht hv => ?_⟩
  · exact (hfields g hp _ (Table.mem_of_mem_ofList hv)).2 (.inl rfl)
  · obtain ⟨field, hfield, rfl⟩ := List.mem_map.1 hv
    exact (hfields g hp _ (Table.mem_of_mem_ofList hfield)).1
  · obtain rfl := Cell.object.inj ht
    exact (hfields g hp _ (Table.mem_of_mem_ofList ((Table.get?_eq_some_iff _).1 hv))).2 (.inr rfl)

theorem builds_array {α : Type} {make : α → Generation (Value Expression)} (l : List α)
    (hmake : ∀ a ∈ l, Builds (make a) Part) : Builds (array make l) Part := by
  intro unfinished
  refine Runs.bind absorbs_abandons stable_true (Runs.mapM_forall absorbs_abandons stable_true
    stable_part l fun a ha => hmake a ha unfinished) fun items => ?_
  refine runs_allocate fun g h => ⟨Cell.plain_array items, fun v hv => (h.2 v hv).1, ?_⟩
  intro t v ht
  cases ht

variable {child : NodeRef → Position → Generation (Value Expression)}

theorem builds_properties (hchild : ∀ n position, Builds (child n position) Part)
    (members : List Member) : Builds (properties child members) Part := by
  intro unfinished
  have hentry : ∀ member : Member, (building unfinished).Runs (Abandons unfinished) (fun _ => True)
      (child member.type (.ofProperty member) >>= fun value => pure (member.name, value))
      fun g entry => Part g entry.2 := fun member =>
    Runs.bind absorbs_abandons stable_true (hchild _ _ unfinished) fun value =>
      Runs.pure fun g h => h.2
  refine Runs.bind absorbs_abandons stable_true (Runs.mapM_forall absorbs_abandons stable_true
    (fun entry => stable_part entry.2) members fun member _ => hentry member) fun entries => ?_
  exact runs_object fun g h field hfield => ⟨(h.2 field hfield).1, fun _ => (h.2 field hfield).2⟩

theorem builds_parameter (hchild : ∀ n position, Builds (child n position) Part) (p : Member) :
    Builds (parameter child p) Part := by
  intro unfinished
  refine Runs.bind absorbs_abandons stable_true (hchild _ _ unfinished) fun type => ?_
  refine runs_object fun g h => ?_
  simp only [List.forall_mem_cons, List.not_mem_nil, false_imp_iff, implies_true, and_true]
  exact ⟨⟨Value.below_of_isContainer rfl _, by simp [refKey]⟩,
    ⟨below_modifiersValue _ _, by simp [refKey]⟩, h.2.1, fun _ => h.2.2⟩

theorem builds_constructor (hchild : ∀ n position, Builds (child n position) Part)
    (c : Constructor) : Builds (constructor child c) Part := by
  intro unfinished
  refine Runs.bind absorbs_abandons stable_true
    (builds_array c.parameters (fun p _ => builds_parameter hchild p) unfinished)
    fun parameters => ?_
  refine runs_object fun g h => ?_
  simp only [List.forall_mem_cons, List.not_mem_nil, false_imp_iff, implies_true, and_true]
  exact ⟨⟨below_modifiersValue _ _, by simp [refKey]⟩, h.2.1, fun _ => h.2.2⟩

/-! ## Fields -/

/-- What may be inserted under the name of a field of a kind: it is defined if the
kind has the field. -/
def FieldOf (kind : TypeKind) (name : String) (g : LiteralGenerator) (v : Value Expression) :
    Prop :=
  v.Below g.heap.size ∧ (name ∈ kind.fields → v.isDefined = true)

/-- A field that can be inserted into the data object of a kind. -/
structure Fits (kind : TypeKind) (part : String × Generation (Value Expression)) : Prop where
  ne_ref : part.1 ≠ refKey
  ne_kind : part.1 ≠ "kind"
  builds : Builds part.2 (FieldOf kind part.1)

theorem fits_part {kind : TypeKind} {name : String} {make : Generation (Value Expression)}
    (h : Builds make Part) (href : name ≠ refKey) (hkind : name ≠ "kind") :
    Fits kind (name, make) :=
  ⟨href, hkind, fun unfinished =>
    (h unfinished).imp fun _ _ hpart => ⟨hpart.1, fun _ => hpart.isDefined⟩⟩

theorem fits_scalar {kind : TypeKind} {name : String} {v : Value Expression}
    (hv : v.unwrap.isContainer = false) (hdefined : name ∈ kind.fields → v.isDefined = true)
    (href : name ≠ refKey) (hkind : name ≠ "kind") : Fits kind (name, pure v) :=
  ⟨href, hkind, fun _ => Runs.pure fun _ _ => ⟨Value.below_of_isContainer hv _, hdefined⟩⟩

/-- The fields of a type fit its kind. -/
theorem fits_fields (hchild : ∀ n position, Builds (child n position) Part)
    (content : TypeContent) : ∀ part ∈ fields child content, Fits content.kind part := by
  have hlist : ∀ nodes, Builds (list child nodes) Part := fun nodes =>
    builds_array nodes fun n _ => hchild n _
  cases content with
  | object name members =>
    simp only [fields, List.forall_mem_cons, List.not_mem_nil, false_imp_iff, implies_true,
      and_true]
    refine ⟨fits_scalar ?_ (by simp [TypeContent.kind, TypeKind.fields]) (by decide) (by decide),
      fits_part (builds_properties hchild members) (by decide) (by decide)⟩
    cases name <;> rfl
  | classType content =>
    simp only [fields, List.cons_append, List.nil_append, List.forall_mem_cons, List.forall_mem_map]
    exact ⟨fits_scalar rfl (fun _ => rfl) (by decide) (by decide),
      fits_part (builds_properties hchild _) (by decide) (by decide),
      fits_part (builds_array _ fun c _ => builds_constructor hchild c) (by decide) (by decide),
      fun base _ => fits_part (hchild base _) (by decide) (by decide)⟩
  | tuple elements =>
    intro part hpart
    obtain rfl := List.mem_singleton.1 hpart
    exact fits_part (hlist elements) (by decide) (by decide)
  | union members =>
    intro part hpart
    obtain rfl := List.mem_singleton.1 hpart
    exact fits_part (hlist members) (by decide) (by decide)
  | stringLiteral value =>
    intro part hpart
    obtain rfl := List.mem_singleton.1 hpart
    exact fits_scalar rfl (fun _ => rfl) (by decide) (by decide)
  | numberLiteral value =>
    intro part hpart
    obtain rfl := List.mem_singleton.1 hpart
    exact fits_scalar rfl (fun _ => rfl) (by decide) (by decide)
  | reference name arguments =>
    simp only [fields, List.forall_mem_cons, List.not_mem_nil, false_imp_iff, implies_true,
      and_true]
    exact ⟨fits_scalar rfl (fun _ => rfl) (by decide) (by decide),
      fits_part (hlist arguments) (by decide) (by decide)⟩
  | _ => exact fun part hpart => absurd hpart List.not_mem_nil

/-- The fields of a type are those of its kind, and perhaps more. -/
theorem mem_fields (child : NodeRef → Position → Generation (Value Expression))
    (content : TypeContent) :
    ∀ name ∈ content.kind.fields, name ∈ (fields child content).map Prod.fst := by
  cases content <;> simp [TypeContent.kind, TypeKind.fields, fields]

end Builds

/-! ## Filling a data object -/

section Fill

variable {unfinished : Ref → Prop} {kind : TypeKind} {g g' : LiteralGenerator} {r : Ref}
  {t : Table (Value Expression)} {part : String × Generation (Value Expression)}
  {parts : List (String × Generation (Value Expression))}

/-- A field that is made and inserted. -/
private theorem run_part (hpart : Fits kind part) (hr : unfinished r) (hg : Built unfinished g)
    (hcell : g.heap.cell? r = some (.object t))
    (hrun : (part.2 >>= fun v => insert (.node r) part.1 v).run.run g = (.ok (), g')) :
    Built unfinished g' ∧ Inserted r g g' ∧
      ∃ t', g'.heap.cell? r = some (.object t') ∧ t'.get? "kind" = t.get? "kind" ∧
        ∀ name ∈ kind.fields, name = part.1 ∨ t.Defines name → t'.Defines name := by
  obtain ⟨v, g₁, hmade, hinsert⟩ := ok_of_run_bind hrun
  obtain ⟨hg₁, hgrows, hbelow, hdefined⟩ := (hpart.builds unfinished).ok g v g₁ hg trivial hmade
  have hgrows : g.Grows g₁ := hgrows
  have hcell₁ := hgrows.heap.cell? hcell
  rw [run_insert hcell₁] at hinsert
  obtain rfl : withField g₁ r t part.1 v = g' := (Prod.mk.inj hinsert).2
  refine ⟨Built.withField hg₁ hr hcell₁ hpart.ne_kind hpart.ne_ref hbelow,
    (inserted_of_grows hgrows r).trans (inserted_withField part.1 v), t.insert part.1 v,
    Heap.cell?_write_self _ (Heap.lt_size_of_cell? hcell₁),
    Table.get?_insert_of_ne t v hpart.ne_kind.symm, fun name hname hset => ?_⟩
  by_cases heq : name = part.1
  · subst heq
    exact ⟨v, Table.get?_insert_self t _ v, hdefined hname⟩
  · obtain ⟨u, hu, hdefined⟩ := hset.resolve_left heq
    exact ⟨u, (Table.get?_insert_of_ne t v heq).trans hu, hdefined⟩

/-- Fields that are inserted one after the other are there. -/
private theorem run_parts (hparts : ∀ part ∈ parts, Fits kind part) (hr : unfinished r)
    (hg : Built unfinished g) (hcell : g.heap.cell? r = some (.object t))
    (hrun : (parts.forM fun part => do insert (.node r) part.1 (← part.2)).run.run g =
      (.ok (), g')) :
    Built unfinished g' ∧ Inserted r g g' ∧
      ∃ t', g'.heap.cell? r = some (.object t') ∧ t'.get? "kind" = t.get? "kind" ∧
        ∀ name ∈ kind.fields, name ∈ parts.map Prod.fst ∨ t.Defines name → t'.Defines name := by
  induction parts generalizing g t with
  | nil =>
    cases hrun
    exact ⟨hg, .refl r _, t, hcell, rfl, fun name _ h => h.resolve_left List.not_mem_nil⟩
  | cons part parts ih =>
    obtain ⟨_, g₁, hhead, htail⟩ := ok_of_run_bind hrun
    obtain ⟨hpart, hparts⟩ := List.forall_mem_cons.1 hparts
    obtain ⟨hg₁, hinserted, t₁, hcell₁, hkind₁, hset₁⟩ := run_part hpart hr hg hcell hhead
    obtain ⟨hg', hinserted', t', hcell', hkind', hset'⟩ := ih hparts hg₁ hcell₁ htail
    refine ⟨hg', hinserted.trans hinserted', t', hcell', hkind'.trans hkind₁,
      fun name hname h => hset' name hname ?_⟩
    rw [List.map_cons, List.mem_cons, or_assoc] at h
    rcases h with heq | hmem | hset
    · exact .inr (hset₁ name hname (.inl heq))
    · exact .inl hmem
    · exact .inr (hset₁ name hname (.inr hset))

/-- If a field cannot be made, what the walk made may stay unfinished. -/
private theorem run_parts_error (hparts : ∀ part ∈ parts, Fits kind part) (hr : unfinished r)
    (hg : Built unfinished g) (hcell : g.heap.cell? r = some (.object t)) {e : LiteralError}
    (hrun : (parts.forM fun part => do insert (.node r) part.1 (← part.2)).run.run g =
      (.error e, g')) : Abandons unfinished g g' := by
  induction parts generalizing g t with
  | nil => cases hrun
  | cons part parts ih =>
    obtain ⟨hpart, hparts⟩ := List.forall_mem_cons.1 hparts
    rcases hhead : (part.2 >>= fun v => insert (.node r) part.1 v).run.run g with ⟨e' | _, g₁⟩
    · obtain ⟨_, rfl⟩ := Prod.mk.inj ((run_bind_of_error hhead).symm.trans hrun)
      rcases hmake : part.2.run.run g with ⟨e'' | v, g₂⟩
      · obtain ⟨_, rfl⟩ := Prod.mk.inj ((run_bind_of_error hmake).symm.trans hhead)
        exact (hpart.builds unfinished).error g e'' _ hg trivial hmake
      · cases (run_bind_of_ok hmake).symm.trans hhead
    · obtain ⟨hg₁, hinserted, t₁, hcell₁, _⟩ := run_part hpart hr hg hcell hhead
      have hleft := ih hparts hg₁ hcell₁ ((run_bind_of_ok hhead).symm.trans hrun)
      exact hleft.mono fun s _ hs => hs.imp_right (Nat.le_trans hinserted.size_le)

end Fill

/-! ## The walk -/

section Walk

variable {unfinished : Ref → Prop} {store : Store} {limit : UInt32} {room : Nat} {n : NodeRef}
  {position : Position} {g : LiteralGenerator}

/-- The data of a node fails at once, is there, or is begun. -/
private theorem run_data_cases (store : Store) (limit : UInt32) (room : Nat) (n : NodeRef)
    (position : Position) (g : LiteralGenerator) :
    (∃ e, (data store limit room n position).run.run g = (.error e, g)) ∨
      ∃ id content, store.node? n = some ⟨id, some content⟩ ∧
        (g.objects.lookup (id, content.kind) = none ∨
          ∃ made, g.objects.lookup (id, content.kind) = some made ∧
            (data store limit room n position).run.run g =
              (.ok (handOut content.kind made), g)) := by
  cases hnode : store.node? n with
  | none =>
    refine .inl ⟨.incompleteType .synthetic, ?_⟩
    cases room <;> (unfold data; rw [hnode]; rfl)
  | some node =>
    obtain ⟨id, content⟩ := node
    cases content with
    | none => exact .inl ⟨.incompleteType id, by cases room <;> (unfold data; rw [hnode]; rfl)⟩
    | some content =>
      refine .inr ⟨id, content, rfl, ?_⟩
      cases hlookup : g.objects.lookup (id, content.kind) with
      | none => exact .inl rfl
      | some made => exact .inr ⟨made, rfl, run_data_again room hnode hlookup⟩

/-- A data object that was begun and filled is finished. -/
private theorem built_filled {content : TypeContent} {id : TypeId} {g' : LiteralGenerator}
    (hg : Built unfinished g) (hnone : g.objects.lookup (id, content.kind) = none)
    (hchild : ∀ n position, Builds (data store limit room n position) Part)
    (hrun : (fill (data store limit room) (.node g.heap.size) content).run.run
      (begun g (id, content.kind) position) = (.ok (), g')) :
    Built unfinished g' ∧ g.Grows g' ∧ g.heap.size < g'.heap.size := by
  have hcell : (begun g (id, content.kind) position).heap.cell? g.heap.size =
      some (.object (Table.ofList (header content.kind position))) :=
    Heap.cell?_allocate_self _ _
  obtain ⟨hg', hinserted, t, hcell', hkind, hset⟩ := run_parts (fits_fields hchild content)
    (.inr rfl) (hg.begun (id, content.kind) position) hcell hrun
  have hbegun := grows_begun hnone position
  have hcarries : t.Carries content.kind := fun name hname =>
    hset name hname (.inl (mem_fields _ content name hname))
  refine ⟨⟨hg'.object, hg'.proper, fun r t' v hr hv hscalar => ?_⟩, ?_,
    Heap.lt_size_of_cell? hcell'⟩
  · obtain ⟨kind, rfl, hdone⟩ := hg'.tagged r t' v hr hv hscalar
    refine ⟨kind, rfl, ?_⟩
    by_cases heq : r = g.heap.size
    · subst heq
      obtain rfl := Cell.object.inj (Option.some.inj (hr.symm.trans hcell'))
      obtain rfl : content.kind = kind := by
        rw [hkind] at hv
        exact TypeKind.eq_of_ofNat_code (Value.number.inj (Option.some.inj hv))
      exact .inr hcarries
    · exact hdone.imp_left fun h => h.resolve_right heq
  · refine ⟨⟨Nat.le_trans hbegun.heap.size_le hinserted.size_le, fun s hs => ?_⟩,
      fun key u hu => hinserted.objects key u (hbegun.objects key u hu)⟩
    rw [hinserted.cell?_eq s (Nat.lt_of_lt_of_le hs hbegun.heap.size_le) (Nat.ne_of_lt hs),
      hbegun.heap.cell?_eq s hs]

/-- A data object that was begun and cannot be filled may stay unfinished, with what
was made meanwhile. -/
private theorem abandons_filled {content : TypeContent} {id : TypeId} {g' : LiteralGenerator}
    {e : LiteralError} (hg : Built unfinished g)
    (hchild : ∀ n position, Builds (data store limit room n position) Part)
    (hrun : (fill (data store limit room) (.node g.heap.size) content).run.run
      (begun g (id, content.kind) position) = (.error e, g')) : Abandons unfinished g g' := by
  have hsize : (begun g (id, content.kind) position).heap.size = g.heap.size + 1 :=
    Heap.size_allocate _ _
  have hleft := run_parts_error (fits_fields hchild content) (.inr rfl)
    (hg.begun (id, content.kind) position) (Heap.cell?_allocate_self _ _) hrun
  refine hleft.mono fun r _ hr => ?_
  rcases hr with (hr | rfl) | hr
  · exact .inl hr
  · exact .inr (Nat.le_refl _)
  · rw [hsize] at hr
    exact .inr (Nat.le_of_succ_le hr)

/-- Only the data object that is begun takes a walk. -/
private theorem runs_data_of_first
    (hfirst : ∀ g id content, Built unfinished g → store.node? n = some ⟨id, some content⟩ →
      g.objects.lookup (id, content.kind) = none →
        (∀ v g', (data store limit room n position).run.run g = (.ok v, g') →
          Built unfinished g' ∧ g.Grows g' ∧ Part g' v) ∧
        ∀ e g', (data store limit room n position).run.run g = (.error e, g') →
          Abandons unfinished g g') :
    (building unfinished).Runs (Abandons unfinished) (fun _ => True)
      (data store limit room n position) Part := by
  refine ⟨fun g v g' hg _ hrun => ?_, fun g e g' hg _ hrun => ?_⟩
  · rcases run_data_cases store limit room n position g with
      ⟨e, h⟩ | ⟨id, content, hnode, hnone | ⟨made, hmade, h⟩⟩
    · cases h.symm.trans hrun
    · exact (hfirst g id content hg hnode hnone).1 v g' hrun
    · cases h.symm.trans hrun
      obtain ⟨r, rfl, hlt⟩ := hg.object _ _ hmade
      refine ⟨hg, .refl g, fun s hs => ?_, ?_⟩
      · rw [unwrap_handOut] at hs
        exact Value.node.inj hs ▸ hlt
      · rw [unwrap_handOut]
        rfl
  · rcases run_data_cases store limit room n position g with
      ⟨e, h⟩ | ⟨id, content, hnode, hnone | ⟨made, hmade, h⟩⟩
    · cases h.symm.trans hrun
      exact Built.mono hg fun _ _ hr => .inl hr
    · exact (hfirst g id content hg hnode hnone).2 e g' hrun
    · cases h.symm.trans hrun

/-- A walk that ends in an error leaves unfinished only what it made. -/
theorem builds_data (store : Store) (limit : UInt32) (room : Nat) (n : NodeRef)
    (position : Position) : Builds (data store limit room n position) Part := by
  induction room generalizing n position with
  | zero =>
    refine fun unfinished => runs_data_of_first fun g id content hg hnode hnone => ?_
    rw [run_data_first 0 hnode hnone]
    refine ⟨fun v g' hrun => ?_, fun e g' hrun => ?_⟩
    · cases hrun
    · cases hrun
      exact (hg.begun _ position).mono fun r _ hr => hr.imp_right fun heq => Nat.le_of_eq heq.symm
  | succ room ih =>
    refine fun unfinished => runs_data_of_first fun g id content hg hnode hnone => ?_
    rw [run_data_first (room + 1) hnode hnone]
    refine ⟨fun v g' hrun => ?_, fun e g' hrun => ?_⟩
    · obtain ⟨_, g₁, hfill, hrun⟩ := ok_of_run_bind hrun
      cases hrun
      obtain ⟨hg', hgrows, hlt⟩ := built_filled hg hnone ih hfill
      refine ⟨hg', hgrows, fun s hs => ?_, ?_⟩
      · rw [unwrap_handOut] at hs
        exact Value.node.inj hs ▸ hlt
      · rw [unwrap_handOut]
        rfl
    · obtain ⟨e', hfill⟩ : ∃ e', (fill (data store limit room) (.node g.heap.size) content).run.run
          (begun g (id, content.kind) position) = (.error e', g') := by
        rcases hfill : (fill (data store limit room) (.node g.heap.size) content).run.run
          (begun g (id, content.kind) position) with ⟨e' | _, g₁⟩
        · obtain ⟨_, rfl⟩ := Prod.mk.inj ((run_bind_of_error hfill).symm.trans hrun)
          exact ⟨e', rfl⟩
        · cases (run_bind_of_ok hfill).symm.trans hrun
      exact abandons_filled hg ih hfill

end Walk

end Generation

/-! ## Calls -/

/-- A type to make the data of, with the place where it stands. -/
structure DataCall where
  store : Store
  node : NodeRef
  position : Position

namespace LiteralGenerator

/-- Make the data of a type: the outcome, and the generator after it. -/
def make (g : LiteralGenerator) (limits : LiteralLimits) (c : DataCall) :
    Except LiteralError (Value Expression) × LiteralGenerator :=
  g.data limits c.store c.node c.position

/-- The generator after calls, whether they succeed or fail. -/
def generated (g : LiteralGenerator) (limits : LiteralLimits) : List DataCall → LiteralGenerator
  | [] => g
  | c :: rest => generated (g.make limits c).2 limits rest

/-- A container that was made by a call that failed. -/
def Abandoned (limits : LiteralLimits) : LiteralGenerator → List DataCall → Ref → Prop
  | _, [], _ => False
  | g, c :: rest, r =>
      ((∃ e, (g.make limits c).1 = .error e) ∧
        g.heap.size ≤ r ∧ r < (g.make limits c).2.heap.size) ∨
      Abandoned limits (g.make limits c).2 rest r

end LiteralGenerator

section Calls

variable {unfinished : Ref → Prop} {limits : LiteralLimits} {g g' : LiteralGenerator}

/-- A call that succeeds leaves nothing else unfinished, and its data is a container. -/
theorem Built.of_make (hg : Built unfinished g) {c : DataCall} {v : Value Expression}
    (hrun : g.make limits c = (.ok v, g')) : Built unfinished g' ∧ Generation.Part g' v := by
  have hruns := Generation.builds_data c.store limits.depth limits.depth.toNat c.node c.position
    unfinished
  obtain ⟨hg', _, hpart⟩ := hruns.ok g v g' hg trivial hrun
  exact ⟨hg', hpart⟩

/-- What a call leaves of what was built. -/
theorem Built.make (hg : Built unfinished g) (c : DataCall) :
    Built (fun r => unfinished r ∨ (∃ e, (g.make limits c).1 = .error e) ∧
      g.heap.size ≤ r ∧ r < (g.make limits c).2.heap.size) (g.make limits c).2 := by
  have hruns := Generation.builds_data c.store limits.depth limits.depth.toNat c.node c.position
    unfinished
  rcases hrun : g.make limits c with ⟨e | v, g'⟩
  · have hleft : Built _ g' := hruns.error g e g' hg trivial hrun
    exact hleft.mono fun r hr h => h.imp_right fun hle => ⟨⟨e, rfl⟩, hle, hr⟩
  · have hbuilt : Built unfinished g' := (hruns.ok g v g' hg trivial hrun).1
    exact hbuilt.mono fun r _ h => .inl h

/-- After any calls a container is unfinished only if it was before, or was made by
a call that failed. -/
theorem Built.generated (hg : Built unfinished g) (calls : List DataCall) :
    Built (fun r => unfinished r ∨ LiteralGenerator.Abandoned limits g calls r)
      (g.generated limits calls) := by
  induction calls generalizing unfinished g with
  | nil => exact hg.mono fun r _ h => .inl h
  | cons c rest ih => exact (ih (hg.make c)).mono fun r _ h => or_assoc.1 h

end Calls

/-! ## Literals -/

/-- A literal is another one, or stands somewhere inside it. -/
inductive Literal.Inside (root : Literal) : Literal → Prop
  | self : Inside root root
  | item {items : List Literal} {M : Literal} : Inside root (.array items) → M ∈ items →
      Inside root M
  | field {fields : List (String × Literal)} {name : String} {M : Literal} :
      Inside root (.object fields) → (name, M) ∈ fields → Inside root M

/-- A literal without a kind that contains scalars only. -/
structure Literal.Bare (M : Literal) : Prop where
  kind : M.get? "kind" = none
  items : ∀ items, M ≠ .array items
  fields : ∀ fields, M = .object fields → ∀ field ∈ fields, ∃ s, field.2 = .leaf s

section Literals

open Literal (Bare)

variable {unfinished : Ref → Prop} {h : Heap Expression} {limits : LiteralLimits}
  {L M : Literal} {R : Ref → Literal → Prop}

private theorem bare_leaf (s : Literal.Scalar) : Bare (.leaf s) where
  kind := rfl
  items _ heq := by cases heq
  fields _ heq := by cases heq

/-- A token is bare. -/
private theorem bare_of_refPath? {text : String} (hM : M.refPath? = some text) : Bare M := by
  unfold Literal.refPath? at hM
  split at hM
  · next key value =>
    split at hM
    · next hkey =>
      subst hkey
      obtain ⟨s, rfl⟩ : ∃ s, value = .leaf s := by
        cases value with
        | leaf s => exact ⟨s, rfl⟩
        | array _ => cases hM
        | object _ => cases hM
      refine ⟨by simp [Document.get?, refKey], fun _ => nofun, fun fields heq => ?_⟩
      obtain rfl := Document.object.inj heq
      exact List.forall_mem_singleton.2 ⟨s, rfl⟩
    · cases hM
  · cases hM

/-- What is no container is written as a bare literal. -/
private theorem bare_of_writes {k : Heap Expression} {limit : UInt32} {v : Value Expression}
    (hv : v.unwrap.isContainer = false) (hM : k.toLiteralAt limit 0 v = .ok M) : Bare M := by
  have hempty : Bare (.object []) := by
    refine ⟨rfl, fun _ => nofun, fun fields heq field hfield => ?_⟩
    obtain rfl := Document.object.inj heq
    cases hfield
  unfold Heap.toLiteralAt at hM
  cases hu : v.unwrap with
  | node r =>
    rw [hu] at hv
    cases hv
  | boxed p =>
    rw [hu] at hM
    obtain rfl := Except.ok.inj hM
    cases p <;> exact bare_leaf _
  | date x =>
    rw [hu] at hM
    obtain rfl := Except.ok.inj hM
    exact hempty
  | regExp source flags =>
    rw [hu] at hM
    obtain rfl := Except.ok.inj hM
    exact hempty
  | _ =>
    rw [hu] at hM
    obtain rfl := Except.ok.inj hM
    exact bare_leaf _

/-- What stands for a value is written for a container, or it is bare. -/
private theorem written_or_bare {v : Value Expression} (hv : v.Below h.size)
    (hM : L.Holds R v M) : (∃ r, r < h.size ∧ R r M) ∨ Bare M := by
  cases hM with
  | @container r _ M' hu hderef hR =>
    unfold Literal.deref? at hderef
    cases hpath : M.refPath? with
    | some text => exact .inr (bare_of_refPath? hpath)
    | none =>
      rw [hpath] at hderef
      obtain rfl := Option.some.inj hderef
      exact .inl ⟨r, hv r hu, hR⟩
  | scalar hscalar hwritten => exact .inr (bare_of_writes hscalar (hwritten h 0 0))

/-- A literal that renders a graph has nothing in it but what is written for its
containers, and bare literals. -/
private theorem inside_cases (H : h.Renders L R) (hh : h.Proper)
    (hroot : ∃ r, r < h.size ∧ R r L) (hM : L.Inside M) :
    (∃ r, r < h.size ∧ R r M) ∨ Bare M := by
  have hcell : ∀ {r}, r < h.size → ∃ c, h.cell? r = some c ∧
      ((∃ items, c = .array items) ∨ ∃ t, c = .object t) := by
    intro r hr
    have hc : h.cell? r = some h.cells[r] := Array.getElem?_eq_getElem hr
    exact ⟨_, hc, (hh.plain r _ hc).shape⟩
  induction hM with
  | self => exact .inl hroot
  | @item items M _ hmem ih =>
    rcases ih with ⟨r, hr, hR⟩ | hbare
    · obtain ⟨c, hc, ⟨values, rfl⟩ | ⟨t, rfl⟩⟩ := hcell hr
      · obtain ⟨written, heq, hall⟩ := H.array hR hc
        obtain rfl := Document.array.inj heq
        have hbelow := (List.forall₂_and_left _ _).2 ⟨hh.below r _ hc, hall⟩
        exact forall_mem_of_forall₂ hbelow (fun v M h => written_or_bare h.1 h.2) M hmem
      · obtain ⟨_, heq, _⟩ := H.object hR hc
        cases heq
    · exact absurd rfl (hbare.items items)
  | @field fields name M _ hmem ih =>
    rcases ih with ⟨r, hr, hR⟩ | hbare
    · obtain ⟨c, hc, ⟨values, rfl⟩ | ⟨t, rfl⟩⟩ := hcell hr
      · obtain ⟨_, heq, _⟩ := H.array hR hc
        cases heq
      · obtain ⟨written, heq, hall⟩ := H.object hR hc
        obtain rfl := Document.object.inj heq
        have hentries : ∀ entry ∈ t.entries.filter fun entry => entry.2.isDefined,
            entry.2.Below h.size := fun entry hentry =>
          hh.below r _ hc _ (List.mem_map_of_mem (List.mem_filter.1 hentry).1)
        have hbelow := (List.forall₂_and_left _ _).2 ⟨hentries, hall⟩
        exact forall_mem_of_forall₂ hbelow (P := fun field => (∃ r, r < h.size ∧ R r field.2) ∨
          Bare field.2) (fun entry field h => written_or_bare h.1 h.2.2) (name, M) hmem
    · obtain ⟨s, hs⟩ := hbare.fields fields rfl (name, M) hmem
      simp only at hs
      exact .inr (hs ▸ bare_leaf s)

/-- What is written for a container is no scalar. -/
private theorem ne_leaf_of_renders (H : h.Renders L R) (hh : h.Proper) {r : Ref} (hr : r < h.size)
    (hM : R r M) (s : Literal.Scalar) : M ≠ .leaf s := by
  rintro rfl
  have hc : h.cell? r = some h.cells[r] := Array.getElem?_eq_getElem hr
  rcases (hh.plain r _ hc).shape with ⟨items, heq⟩ | ⟨t, heq⟩
  · obtain ⟨_, hleaf, _⟩ := H.array hM (heq ▸ hc)
    cases hleaf
  · obtain ⟨_, hleaf, _⟩ := H.object hM (heq ▸ hc)
    cases hleaf

/-- A kind is written for the same kind. -/
private theorem tag_of_holds {g : LiteralGenerator} (hg : Built unfinished g)
    (H : g.heap.Renders L R) {r : Ref} {t : Table (Value Expression)} {v : Value Expression}
    {kind : TypeKind} (hc : g.heap.cell? r = some (.object t)) (hv : t.get? "kind" = some v)
    (hholds : L.Holds R v (.leaf (.number (Double.ofNat kind.code)))) :
    unfinished r ∨ t.Carries kind := by
  have hbelow : v.Below g.heap.size :=
    hg.proper.below r _ hc v (List.mem_map_of_mem ((Table.get?_eq_some_iff _).1 hv))
  cases hholds with
  | @container r' _ M' hu hderef hR =>
    obtain rfl := Option.some.inj hderef
    exact absurd rfl (ne_leaf_of_renders H hg.proper (hbelow r' hu) hR _)
  | scalar hscalar hwritten =>
    obtain ⟨kind', rfl, hdone⟩ := hg.tagged r t v hc hv hscalar
    have hnumber := Document.leaf.inj (Except.ok.inj (hwritten g.heap 0 0))
    obtain rfl := TypeKind.eq_of_ofNat_code (Literal.Scalar.number.inj hnumber)
    exact hdone

/-- What is written for a container of a built generator is finished unless the
container is unfinished. -/
private theorem Built.finished_written {g : LiteralGenerator} (hg : Built unfinished g)
    (H : g.heap.Renders L R) {r : Ref} (hr : r < g.heap.size) (hM : R r M) :
    M.Finished ∨ unfinished r := by
  by_cases hdone : unfinished r
  · exact .inr hdone
  refine .inl fun kind hkind name hname => ?_
  have hc : g.heap.cell? r = some g.heap.cells[r] := Array.getElem?_eq_getElem hr
  rcases (hg.proper.plain r _ hc).shape with ⟨items, heq⟩ | ⟨t, heq⟩
  · obtain ⟨_, rfl, _⟩ := H.array hM (heq ▸ hc)
    cases hkind
  · rw [heq] at hc
    obtain ⟨v, hv, hholds⟩ : ∃ v, t.get? "kind" = some v ∧
        L.Holds R v (.leaf (.number (Double.ofNat kind.code))) := by
      have hrel := H.get? hM hc "kind"
      rw [hkind] at hrel
      generalize hfound : (t.get? "kind").filter Value.isDefined = found at hrel
      cases hrel with
      | some hholds => exact ⟨_, (Option.filter_eq_some_iff.1 hfound).1, hholds⟩
    obtain ⟨u, hu, hdefined⟩ := (tag_of_holds hg H hc hv hholds).resolve_left hdone name hname
    have hrel := H.get? hM hc name
    rw [hu, Option.filter_some_pos hdefined] at hrel
    generalize M.get? name = written at hrel ⊢
    cases hrel with
    | some _ => exact ⟨_, rfl⟩

end Literals

/-! ## After failed calls -/

namespace LiteralGenerator

variable {limits : LiteralLimits} {calls : List DataCall}

/-- After any calls of a new generator, whether they succeeded or failed, the data
of a type and the literal of a type lack no field of a kind, except where a
container stands that a failed call made. -/
theorem finished_of_generated (limits : LiteralLimits) (calls : List DataCall) :
    let g := empty.generated limits calls
    (∀ c v g', g.make limits c = (.ok v, g') →
      ∀ r, g'.heap.Finished r ∨ Abandoned limits empty calls r) ∧
    ∀ store node modifiers L, g.literal limits store node modifiers = .ok L →
      ∃ v g' R, g.make limits ⟨store, node, ⟨modifiers, none⟩⟩ = (.ok v, g') ∧
        g'.heap.Renders L R ∧ (∃ r, v.unwrap = .node r ∧ R r L) ∧
          ∀ M, L.Inside M → M.Finished ∨ ∃ r, R r M ∧ Abandoned limits empty calls r := by
  intro g
  have hg : Built (Abandoned limits empty calls) g :=
    ((built_empty fun _ => False).generated calls).mono fun r _ h => h.resolve_left id
  refine ⟨fun c v g' hrun r => (hg.of_make hrun).1.finished r, fun store node modifiers L hL => ?_⟩
  obtain ⟨v, g', t, k, hrun, hencoded, hwritten⟩ := literal_eq_ok hL
  obtain ⟨hg', hbelow, hcontainer⟩ := hg.of_make (c := ⟨store, node, ⟨modifiers, none⟩⟩) hrun
  obtain ⟨R, H, hroot⟩ := Heap.exists_renders hg'.proper hbelow hencoded hwritten
  obtain ⟨r, hr⟩ : ∃ r, v.unwrap = .node r := by
    cases hv : v.unwrap with
    | node r => exact ⟨r, rfl⟩
    | _ =>
      rw [hv] at hcontainer
      cases hcontainer
  refine ⟨v, g', R, hrun, H, ⟨r, hr, hroot r hr⟩, fun M hM => ?_⟩
  rcases inside_cases H hg'.proper ⟨r, hbelow r hr, hroot r hr⟩ hM with ⟨s, hs, hR⟩ | hbare
  · exact (hg'.finished_written H hs hR).imp_right fun habandoned => ⟨s, hR, habandoned⟩
  · refine .inl fun kind hkind => ?_
    rw [hbare.kind] at hkind
    cases hkind

/-- A union of a tuple of a tuple of a number, and another tuple of the number. -/
def nestedTuples : Store :=
  ⟨#[⟨⟨1⟩, some (.union [1])⟩, ⟨⟨2⟩, some (.tuple [2])⟩, ⟨⟨3⟩, some (.tuple [3])⟩,
    ⟨⟨4⟩, some .number⟩, ⟨⟨5⟩, some (.tuple [3])⟩]⟩

/-- With three levels the union cannot be made.  The call for it leaves its tuple
without elements, and the call for the tuple hands that out. -/
theorem unfinished_handed_out :
    let limits : LiteralLimits := ⟨3, 1024⟩
    let g := empty.generated limits [⟨nestedTuples, 0, .plain⟩]
    (empty.make limits ⟨nestedTuples, 0, .plain⟩).1 = .error (.depthExceeded 3) ∧
      (g.make limits ⟨nestedTuples, 1, .plain⟩).1 = .ok (.node 1) ∧
      ¬ (g.make limits ⟨nestedTuples, 1, .plain⟩).2.heap.Finished 1 := by
  intro limits g
  have hcell : (g.make limits ⟨nestedTuples, 1, .plain⟩).2.heap.cell? 1 =
      some (.object (Table.ofList (Generation.header .tuple .plain))) := by
    decide +kernel
  refine ⟨by decide +kernel, by decide +kernel, fun hfinished => ?_⟩
  obtain ⟨v, hv, _⟩ := hfinished _ .tuple hcell (by decide +kernel) "elementTypes" (by decide)
  have hnone : (Table.ofList (Generation.header .tuple .plain)).get? "elementTypes" = none := by
    decide +kernel
  cases hnone.symm.trans hv

/-- After the failed call the other tuple is made as a whole. -/
theorem finished_of_nestedTuples :
    let limits : LiteralLimits := ⟨3, 1024⟩
    let calls : List DataCall := [⟨nestedTuples, 0, .plain⟩]
    let g := empty.generated limits calls
    (empty.make limits ⟨nestedTuples, 0, .plain⟩).1 = .error (.depthExceeded 3) ∧
      ∃ g' L, g.make limits ⟨nestedTuples, 4, .plain⟩ = (.ok (.node 4), g') ∧
        g'.heap.Finished 4 ∧ g.literal limits nestedTuples 4 none = .ok L ∧
          ∀ M, L.Inside M → M.Finished ∨ ∃ r, r < 4 ∧ Abandoned limits empty calls r := by
  intro limits calls g
  obtain ⟨hdata, hliteral⟩ := finished_of_generated limits calls
  have hfailed : (empty.make limits ⟨nestedTuples, 0, .plain⟩).1 = .error (.depthExceeded 3) := by
    decide +kernel
  have hsize : (empty.make limits ⟨nestedTuples, 0, .plain⟩).2.heap.size = 4 := by decide +kernel
  have hold : ∀ r, Abandoned limits empty calls r → r < 4 := by
    rintro r (⟨_, _, hr⟩ | h)
    · rwa [hsize] at hr
    · exact h.elim
  have hmake : (g.make limits ⟨nestedTuples, 4, .plain⟩).1 = .ok (.node 4) := by decide +kernel
  have hwritten : (g.literal limits nestedTuples 4 none).toOption.isSome = true := by
    decide +kernel
  obtain ⟨L, hL⟩ : ∃ L, g.literal limits nestedTuples 4 none = .ok L := by
    cases h : g.literal limits nestedTuples 4 none with
    | ok L => exact ⟨L, rfl⟩
    | error e =>
      rw [h] at hwritten
      cases hwritten
  obtain ⟨_, _, R, _, _, _, hinside⟩ := hliteral nestedTuples 4 none L hL
  have hrun : g.make limits ⟨nestedTuples, 4, .plain⟩ =
      (.ok (.node 4), (g.make limits ⟨nestedTuples, 4, .plain⟩).2) := by
    rw [← hmake]
  refine ⟨hfailed, _, L, hrun, ?_, hL, fun M hM => (hinside M hM).imp_right ?_⟩
  · exact (hdata _ _ _ hrun 4).resolve_right fun h => Nat.lt_irrefl 4 (hold 4 h)
  · rintro ⟨r, _, hr⟩
    exact ⟨r, hold r hr, hr⟩

end LiteralGenerator

end TypeDescription
