import TypeDescription.Proofs.Literal.Data
import TypeDescription.Proofs.Yields

/-!
# Making data objects

The walk that makes the data of a type is sound: `makes_data` says that it hands
out the data object of a node, whatever was made before and is being filled.  The
rules `makes_*` go along the definitions; `Inserted` describes the loop that inserts
the fields of one data object.
-/

namespace TypeDescription

/-! ## Plain containers -/

theorem Value.Below.mono {size size' : Nat} (hsize : size ≤ size') {v : Value Expression}
    (h : v.Below size) : v.Below size' :=
  fun r hr => Nat.lt_of_lt_of_le (h r hr) hsize

/-- A value without containers. -/
theorem Value.below_of_isContainer {v : Value Expression} (hv : v.unwrap.isContainer = false)
    (size : Nat) : v.Below size := by
  intro r hr
  rw [hr] at hv
  cases hv

namespace Cell

theorem plain_array (items : List (Value Expression)) : (Cell.array items).Plain where
  shape := .inl ⟨items, rfl⟩
  tokenless _ _ h := by cases h

theorem plain_object {t : Table (Value Expression)}
    (h : ∀ v, (refKey, v) ∈ t.entries → v.unwrap.isContainer = true) : (Cell.object t).Plain where
  shape := .inr ⟨t, rfl⟩
  tokenless t' v ht hv := by
    obtain rfl := Cell.object.inj ht
    exact h v ((Table.get?_eq_some_iff _).1 hv)

end Cell

namespace Heap

variable {h : Heap Expression} {c : Cell Expression}

/-- A container after an allocation was there, or is the new one. -/
theorem cell?_allocate_cases {r : Ref} {c' : Cell Expression}
    (hc' : (h.allocate c).2.cell? r = some c') :
    h.cell? r = some c' ∨ r = h.size ∧ c' = c := by
  have hlt := lt_size_of_cell? hc'
  rw [size_allocate] at hlt
  by_cases hr : r < h.size
  · rw [cell?_allocate_of_lt c hr] at hc'
    exact .inl hc'
  · obtain rfl := Nat.eq_of_lt_succ_of_not_lt hlt hr
    rw [cell?_allocate_self] at hc'
    exact .inr ⟨rfl, (Option.some.inj hc').symm⟩

/-- A container after a write was there, or is the one written. -/
theorem cell?_write_cases {r r' : Ref} {c' : Cell Expression}
    (hc' : (h.write r c).cell? r' = some c') :
    h.cell? r' = some c' ∨ r' = r ∧ c' = c := by
  by_cases hr : r' = r
  · subst hr
    have hlt := lt_size_of_cell? hc'
    rw [size_write] at hlt
    rw [cell?_write_self c hlt] at hc'
    exact .inr ⟨rfl, (Option.some.inj hc').symm⟩
  · rw [cell?_write_of_ne c hr] at hc'
    exact .inl hc'

/-- A new plain container leaves a heap proper. -/
theorem Proper.allocate (hh : h.Proper) (hc : c.Plain) (hbelow : ∀ v ∈ c.slots, v.Below h.size) :
    (h.allocate c).2.Proper := by
  have hsize : h.size ≤ (h.allocate c).2.size := by
    rw [size_allocate]
    omega
  refine ⟨fun r c' hc' => ?_, fun r c' hc' v hv => ?_⟩
  · rcases cell?_allocate_cases hc' with hold | ⟨_, rfl⟩
    · exact hh.plain r c' hold
    · exact hc
  · rcases cell?_allocate_cases hc' with hold | ⟨_, rfl⟩
    · exact (hh.below r c' hold v hv).mono hsize
    · exact (hbelow v hv).mono hsize

/-- A container that is replaced by a plain one leaves a heap proper. -/
theorem Proper.write (hh : h.Proper) {r : Ref} (hc : c.Plain)
    (hbelow : ∀ v ∈ c.slots, v.Below h.size) : (h.write r c).Proper := by
  refine ⟨fun r' c' hc' => ?_, fun r' c' hc' v hv => ?_⟩
  · rcases cell?_write_cases hc' with hold | ⟨_, rfl⟩
    · exact hh.plain r' c' hold
    · exact hc
  · rw [size_write]
    rcases cell?_write_cases hc' with hold | ⟨_, rfl⟩
    · exact hh.below r' c' hold v hv
    · exact hbelow v hv

end Heap

/-! ## Made values -/

/-- A sound generator stays sound when its heap grows. -/
theorem Sound.grow {store : Store} {nodes : NodeRef → Prop} {filling : List Ref}
    {g : LiteralGenerator} (hg : Sound store nodes filling g) {heap : Heap Expression}
    (hwithin : g.heap.Within heap) (hproper : heap.Proper) :
    Sound store nodes filling { g with heap := heap } where
  object key v hv := by
    obtain ⟨r, hr, hlt⟩ := hg.object key v hv
    exact ⟨r, hr, Nat.lt_of_lt_of_le hlt hwithin.size_le⟩
  object_inj := hg.object_inj
  filling_lt r hr := Nat.lt_of_lt_of_le (hg.filling_lt r hr) hwithin.size_le
  proper := hproper
  shows n id content r hn hnode hobject hr := by
    have hgrows : g.Grows { g with heap := heap } := ⟨hwithin, fun _ _ h => h⟩
    exact (hg.shows n id content r hn hnode hobject hr).mono (hgrows.stock filling)

namespace Generation

open Regime

/-- The walk keeps the generator sound and all that was made. -/
def regime (store : Store) (nodes : NodeRef → Prop) (filling : List Ref) :
    Regime LiteralGenerator LiteralGenerator where
  view := id
  Holds := Sound store nodes filling
  Grows := LiteralGenerator.Grows
  refl := .refl
  trans := .trans

/-- A value that was made, with a fact about it. -/
def Made (filling : List Ref) (fact : Stock → Value Expression → Prop) (g : LiteralGenerator)
    (v : Value Expression) : Prop :=
  v.Below g.heap.size ∧ fact (g.stock filling) v

/-- A step makes a value, whatever is being filled. -/
def Makes (store : Store) (nodes : NodeRef → Prop) (step : Generation (Value Expression))
    (fact : Stock → Value Expression → Prop) : Prop :=
  ∀ filling, (regime store nodes filling).Yields (fun _ => True) step (Made filling fact)

section Makes

variable {store : Store} {nodes : NodeRef → Prop} {filling : List Ref}
  {fact : Stock → Value Expression → Prop} {P : LiteralGenerator → Prop}

theorem stable_made (hfact : Lasting fact) (v : Value Expression) :
    (regime store nodes filling).Stable fun g => Made filling fact g v :=
  fun _ _ hg h => ⟨h.1.mono hg.heap.size_le, hfact _ _ v (hg.stock filling) h.2⟩

/-- What a step makes, read off one run. -/
theorem run_of_makes {step : Generation (Value Expression)} (h : Makes store nodes step fact)
    {g g' : LiteralGenerator} {v : Value Expression} (hg : Sound store nodes filling g)
    (hrun : step.run.run g = (.ok v, g')) :
    Sound store nodes filling g' ∧ g.Grows g' ∧ Made filling fact g' v :=
  h filling g v g' hg trivial hrun

theorem makes_pure {v : Value Expression} (hv : v.unwrap.isContainer = false)
    (h : ∀ s, fact s v) : Makes store nodes (pure v) fact :=
  fun _ => Yields.pure fun _ _ => ⟨Value.below_of_isContainer hv _, h _⟩

/-- A new plain container is there as it was allocated. -/
theorem yields_allocate {c : Cell Expression}
    (hc : ∀ g, P g → c.Plain ∧ ∀ v ∈ c.slots, v.Below g.heap.size) :
    (regime store nodes filling).Yields P (allocate c)
      (Made filling fun s v => ∃ r, v = .node r ∧ s.cell? r = some c) := by
  intro g v g' hg hp hrun
  obtain ⟨hplain, hbelow⟩ := hc g hp
  have hwithin := Heap.within_allocate g.heap c
  have hg : Sound store nodes filling g := hg
  have hsound := hg.grow hwithin (hg.proper.allocate hplain hbelow)
  cases hrun
  refine ⟨hsound, ⟨hwithin, fun _ _ h => h⟩, ?_, g.heap.size, rfl, ?_⟩
  · intro r hr
    obtain rfl := Value.node.inj hr
    show g.heap.size < (g.heap.allocate c).2.size
    rw [Heap.size_allocate]
    omega
  · have hnew : g.heap.size ∉ filling := fun h => Nat.lt_irrefl _ (hg.filling_lt _ h)
    simp only [LiteralGenerator.stock, if_neg hnew]
    exact Heap.cell?_allocate_self g.heap c

/-- An object with fields of distinct names. -/
theorem yields_object {fields : List (String × Value Expression)}
    (hnames : (fields.map Prod.fst).Nodup)
    (hfields : ∀ g, P g → ∀ field ∈ fields, field.2.Below g.heap.size ∧
      (field.1 = refKey → field.2.unwrap.isContainer = true)) :
    (regime store nodes filling).Yields P (object fields) (Made filling (HasFields fields)) := by
  have hentries := Table.entries_ofList hnames
  refine (yields_allocate fun g hp => ⟨Cell.plain_object fun v hv => ?_, fun v hv => ?_⟩).imp ?_
  · rw [hentries] at hv
    exact (hfields g hp _ hv).2 rfl
  · simp only [Cell.slots, Table.values, hentries] at hv
    obtain ⟨field, hfield, rfl⟩ := List.mem_map.1 hv
    exact (hfields g hp field hfield).1
  · intro g v hmade
    obtain ⟨hbelow, r, hv, hcell⟩ := hmade
    exact ⟨hbelow, r, _, hv, hcell, hentries⟩

/-- An array of what is made for the elements of a list. -/
theorem makes_array {α : Type} {make : α → Generation (Value Expression)}
    {fact : α → Stock → Value Expression → Prop} (hfact : ∀ a, Lasting (fact a)) (l : List α)
    (hmake : ∀ a ∈ l, Makes store nodes (make a) (fact a)) :
    Makes store nodes (array make l) (Lists fact l) := by
  intro filling
  have hstable : ∀ items : List (Value Expression), (regime store nodes filling).Stable fun g =>
      True ∧ List.Forall₂ (fun a item => Made filling (fact a) g item) l items := by
    intro items g g' hg hmade
    obtain ⟨_, hall⟩ := hmade
    exact ⟨trivial, hall.imp fun a item h => stable_made (hfact a) item g g' hg h⟩
  refine Yields.bind stable_true (Yields.mapM stable_true (fun a => stable_made (hfact a)) l
    fun a ha => hmake a ha filling) fun items => ?_
  refine (Yields.frame (hstable items)
    (yields_allocate fun g h => ⟨Cell.plain_array items, ?_⟩)).imp ?_
  · exact forall_mem_of_forall₂ h.2 fun _ _ hmade => hmade.1
  · intro g v hmade
    obtain ⟨⟨_, hall⟩, hbelow, r, hv, hcell⟩ := hmade
    exact ⟨hbelow, r, items, hv, hcell, hall.imp fun _ _ h => h.2⟩

theorem below_modifiersValue (m : Option Modifiers) (size : Nat) :
    (modifiersValue m).Below size := by
  refine Value.below_of_isContainer ?_ size
  cases m <;> rfl

variable {child : NodeRef → Position → Generation (Value Expression)}

/-- The data of properties with distinct names. -/
theorem makes_properties {members : List Member} (hnames : (members.map Member.name).Nodup)
    (hchild : ∀ member ∈ members, ∀ position,
      Makes store nodes (child member.type position) (HandedOut store member.type)) :
    Makes store nodes (properties child members) (ShowsProperties store members) := by
  intro filling
  have hkeyed : properties child members =
      (members.mapM fun member => child member.type (.ofProperty member)) >>= fun values =>
        object ((members.map Member.name).zip values) := by
    have h := mapM_keyed Member.name (fun member => child member.type (.ofProperty member)) members
    simp only [properties, bind_pure_comp] at h ⊢
    rw [h, bind_map_left]
  rw [hkeyed]
  have hlasting := fun member : Member => lasting_handedOut store member.type
  have hstable : ∀ values : List (Value Expression), (regime store nodes filling).Stable fun g =>
      True ∧ List.Forall₂ (fun member value =>
        Made filling (HandedOut store (Member.type member)) g value) members values := by
    intro values g g' hg hmade
    obtain ⟨_, hall⟩ := hmade
    exact ⟨trivial, hall.imp fun member value h => stable_made (hlasting member) value g g' hg h⟩
  refine Yields.bind stable_true
    (Yields.mapM stable_true (fun member => stable_made (hlasting member)) members
      fun member hmember => hchild member hmember _ filling) fun values => ?_
  intro g v g' hg h hrun
  have hzip : (((members.map Member.name).zip values).map Prod.fst).Nodup := by
    rw [List.map_fst_zip (Nat.le_of_eq ((List.length_map _).trans h.2.length_eq))]
    exact hnames
  have hmade : ∀ g, (True ∧ List.Forall₂ (fun member value =>
      Made filling (HandedOut store (Member.type member)) g value) members values) →
        ∀ v ∈ values, v.Below g.heap.size ∧ v.unwrap.isContainer = true := fun g h =>
    forall_mem_of_forall₂ h.2 fun _ _ hmade => ⟨hmade.1, HandedOut.isContainer hmade.2⟩
  have hobject := Yields.frame (hstable values) (yields_object hzip fun g h field hfield =>
    ⟨(hmade g h _ (List.of_mem_zip hfield).2).1,
      fun _ => (hmade g h _ (List.of_mem_zip hfield).2).2⟩)
  obtain ⟨hg', hgrows, ⟨_, hall⟩, hbelow, hfields⟩ := hobject g v g' hg h hrun
  exact ⟨hg', hgrows, hbelow, values, hfields, hall.imp fun _ _ h => h.2⟩

/-- The data of a constructor parameter. -/
theorem makes_parameter (p : Member)
    (hchild : ∀ position, Makes store nodes (child p.type position) (HandedOut store p.type)) :
    Makes store nodes (parameter child p) (ShowsParameter store p) := by
  intro filling
  have hstable : ∀ type, (regime store nodes filling).Stable fun g =>
      Made filling (HandedOut store p.type) g type := stable_made (lasting_handedOut store p.type)
  refine Yields.bind stable_true (hchild _ filling) fun type => ?_
  refine (Yields.frame (stable_and stable_true (hstable type))
    (yields_object (by simp) fun g h => ?_)).imp ?_
  · obtain ⟨_, hbelow, _⟩ := h
    simp only [List.forall_mem_cons, List.not_mem_nil, false_imp_iff, implies_true, and_true]
    exact ⟨⟨Value.below_of_isContainer rfl _, by simp [refKey]⟩,
      ⟨below_modifiersValue _ _, by simp [refKey]⟩, hbelow, by simp [refKey]⟩
  · intro g v hmade
    obtain ⟨⟨_, _, htype⟩, hbelow, hfields⟩ := hmade
    exact ⟨hbelow, type, hfields, htype⟩

/-- The data of a constructor. -/
theorem makes_constructor (c : Constructor)
    (hchild : ∀ p ∈ c.parameters, ∀ position,
      Makes store nodes (child p.type position) (HandedOut store p.type)) :
    Makes store nodes (constructor child c) (ShowsConstructor store c) := by
  intro filling
  have hlist := makes_array (lasting_showsParameter store) c.parameters
    fun p hp => makes_parameter p (hchild p hp)
  have hstable : ∀ list, (regime store nodes filling).Stable fun g =>
      Made filling (Lists (ShowsParameter store) c.parameters) g list :=
    stable_made (lasting_lists (lasting_showsParameter store) c.parameters)
  refine Yields.bind stable_true (hlist filling) fun parameters => ?_
  refine (Yields.frame (stable_and stable_true (hstable parameters))
    (yields_object (by simp) fun g h => ?_)).imp ?_
  · obtain ⟨_, hbelow, _⟩ := h
    simp only [List.forall_mem_cons, List.not_mem_nil, false_imp_iff, implies_true, and_true]
    exact ⟨⟨below_modifiersValue _ _, by simp [refKey]⟩, hbelow, by simp [refKey]⟩
  · intro g v hmade
    obtain ⟨⟨_, _, hparameters⟩, hbelow, hfields⟩ := hmade
    exact ⟨hbelow, parameters, hfields, hparameters⟩

/-- Each field of a type is made as it should be. -/
theorem makes_fields {content : TypeContent}
    (hchild : ∀ n ∈ content.children, ∀ position,
      Makes store nodes (child n position) (HandedOut store n))
    (hnames : (content.properties.map Member.name).Nodup) :
    List.Forall₂ (fun part fact => part.1 = fact.1 ∧ Makes store nodes part.2 fact.2)
      (fields child content) (fieldFacts store content) := by
  have hlist : ∀ l : List NodeRef, l ⊆ content.children →
      Makes store nodes (list child l) (Lists (HandedOut store) l) := fun l hl =>
    makes_array (lasting_handedOut store) l fun n hn => hchild n (hl hn) _
  cases content with
  | object name members =>
    refine .cons ⟨rfl, makes_pure ?_ fun _ => rfl⟩ (.cons ⟨rfl, ?_⟩ .nil)
    · cases name <;> rfl
    · exact makes_properties hnames fun member hmember =>
        hchild member.type (List.mem_map_of_mem hmember)
  | classType content =>
    have hproperties : ∀ member ∈ content.properties, ∀ position,
        Makes store nodes (child member.type position) (HandedOut store member.type) := by
      intro member hmember
      refine hchild member.type ?_
      exact List.mem_append_left _ (List.mem_append_left _ (List.mem_map_of_mem hmember))
    have hconstructors : ∀ c ∈ content.constructors, ∀ p ∈ c.parameters, ∀ position,
        Makes store nodes (child p.type position) (HandedOut store p.type) := by
      intro c hc p hp
      refine hchild p.type ?_
      exact List.mem_append_left _ (List.mem_append_right _
        (List.mem_flatMap.2 ⟨c, hc, List.mem_map_of_mem hp⟩))
    refine .cons ⟨rfl, makes_pure rfl fun _ => rfl⟩ (.cons ⟨rfl, ?_⟩ (.cons ⟨rfl, ?_⟩ ?_))
    · exact makes_properties hnames hproperties
    · exact makes_array (lasting_showsConstructor store) _ fun c hc =>
        makes_constructor c (hconstructors c hc)
    · show List.Forall₂ _ (content.base.toList.map _) (content.base.toList.map _)
      rw [List.forall₂_map_left_iff, List.forall₂_map_right_iff, List.forall₂_same]
      exact fun base hbase => ⟨rfl, hchild base (List.mem_append_right _ hbase) _⟩
  | tuple elements => exact .cons ⟨rfl, hlist elements (List.Subset.refl _)⟩ .nil
  | union members => exact .cons ⟨rfl, hlist members (List.Subset.refl _)⟩ .nil
  | stringLiteral value => exact .cons ⟨rfl, makes_pure rfl fun _ => rfl⟩ .nil
  | numberLiteral value => exact .cons ⟨rfl, makes_pure rfl fun _ => rfl⟩ .nil
  | reference name arguments =>
    exact .cons ⟨rfl, makes_pure rfl fun _ => rfl⟩
      (.cons ⟨rfl, hlist arguments (List.Subset.refl _)⟩ .nil)
  | _ => exact .nil

end Makes

/-! ## Filling a data object -/

/-- What happened while fields were inserted into a data object: all else that
was made is still there. -/
structure Inserted (r : Ref) (g g' : LiteralGenerator) : Prop where
  size_le : g.heap.size ≤ g'.heap.size
  cell?_eq : ∀ s, s < g.heap.size → s ≠ r → g'.heap.cell? s = g.heap.cell? s
  objects : ∀ key v, g.objects.lookup key = some v → g'.objects.lookup key = some v

theorem Inserted.refl (r : Ref) (g : LiteralGenerator) : Inserted r g g :=
  ⟨Nat.le_refl _, fun _ _ _ => rfl, fun _ _ h => h⟩

theorem Inserted.trans {r : Ref} {g g' g'' : LiteralGenerator} (h : Inserted r g g')
    (h' : Inserted r g' g'') : Inserted r g g'' where
  size_le := Nat.le_trans h.size_le h'.size_le
  cell?_eq s hs hne := by
    rw [h'.cell?_eq s (Nat.lt_of_lt_of_le hs h.size_le) hne, h.cell?_eq s hs hne]
  objects key v hv := h'.objects key v (h.objects key v hv)

theorem inserted_of_grows {g g' : LiteralGenerator} (h : g.Grows g') (r : Ref) :
    Inserted r g g' :=
  ⟨h.heap.size_le, fun s hs _ => h.heap.cell?_eq s hs, h.objects⟩

/-- What is finished beside a data object that is being filled stays so. -/
theorem Inserted.stock {r : Ref} {g g' : LiteralGenerator} (h : Inserted r g g')
    {filling : List Ref} (hr : r ∈ filling) : (g.stock filling).Within (g'.stock filling) where
  cell? s c hc := by
    simp only [LiteralGenerator.stock] at hc ⊢
    split at hc
    · cases hc
    · next hs =>
      rw [if_neg hs, h.cell?_eq s (Heap.lt_size_of_cell? hc) fun heq => hs (heq ▸ hr), hc]
  object? := h.objects

section Fill

variable {store : Store} {nodes : NodeRef → Prop} {filling : List Ref} {g g' : LiteralGenerator}
  {r : Ref} {t : Table (Value Expression)}

/-- The generator with a field inserted into a data object. -/
def withField (g : LiteralGenerator) (r : Ref) (t : Table (Value Expression)) (key : String)
    (v : Value Expression) : LiteralGenerator :=
  { g with heap := g.heap.write r (.object (t.insert key v)) }

theorem run_insert (hcell : g.heap.cell? r = some (.object t)) (key : String)
    (v : Value Expression) :
    (insert (.node r) key v).run.run g = (.ok (), withField g r t key v) := by
  have hinsert : g.heap.insert? (.node r) key v =
      some (g.heap.write r (.object (t.insert key v))) := by
    simp [Heap.insert?, hcell]
  show (Except.ok (), _) = (Except.ok (), _)
  dsimp only
  rw [hinsert]
  rfl

theorem inserted_withField (key : String) (v : Value Expression) :
    Inserted r g (withField g r t key v) :=
  ⟨Nat.le_of_eq (Heap.size_write _ _ _).symm, fun _ _ hne => Heap.cell?_write_of_ne _ hne,
    fun _ _ h => h⟩

/-- A field inserted into a data object that is being filled. -/
private theorem sound_withField (hg : Sound store nodes filling g) (hr : r ∈ filling)
    (hcell : g.heap.cell? r = some (.object t)) {key : String} {v : Value Expression}
    (hkey : key ∉ t.keys) (href : key ≠ refKey) (hv : v.Below g.heap.size) :
    Sound store nodes filling (withField g r t key v) := by
  have hentries : (t.insert key v).entries = t.entries ++ [(key, v)] :=
    Table.putEntry_of_notMem hkey
  have hplain : (Cell.object (t.insert key v)).Plain := by
    refine Cell.plain_object fun u hu => ?_
    rw [hentries, List.mem_append] at hu
    rcases hu with hu | hu
    · exact (hg.proper.plain r _ hcell).tokenless t u rfl ((Table.get?_eq_some_iff _).2 hu)
    · obtain ⟨rfl, _⟩ := Prod.mk.inj (List.mem_singleton.1 hu)
      exact absurd rfl href
  have hbelow : ∀ u ∈ (Cell.object (t.insert key v)).slots, u.Below g.heap.size := by
    intro u hu
    simp only [Cell.slots, Table.values, hentries, List.map_append, List.mem_append] at hu
    rcases hu with hu | hu
    · exact hg.proper.below r _ hcell u hu
    · obtain rfl := List.mem_singleton.1 hu
      exact hv
  have hinserted : Inserted r g (withField g r t key v) := inserted_withField key v
  have hstock := hinserted.stock hr
  refine ⟨fun key' u hu => ?_, hg.object_inj, fun s hs => ?_, hg.proper.write hplain hbelow,
    fun n id content s hn hnode hobject hs => ?_⟩
  · obtain ⟨s, hs, hlt⟩ := hg.object key' u hu
    exact ⟨s, hs, (Heap.size_write _ _ _).symm ▸ hlt⟩
  · show s < (g.heap.write r _).size
    rw [Heap.size_write]
    exact hg.filling_lt s hs
  · exact (hg.shows n id content s hn hnode hobject hs).mono hstock

/-- Fields that are made and inserted one after the other stand in the data
object, and each is as it should be. -/
theorem run_insertAll {parts : List (String × Generation (Value Expression))}
    {facts : List (String × (Stock → Value Expression → Prop))}
    (hparts : List.Forall₂ (fun part fact => part.1 = fact.1 ∧ Makes store nodes part.2 fact.2)
      parts facts)
    (hlasting : ∀ fact ∈ facts, Lasting fact.2) (hnames : (t.keys ++ facts.map Prod.fst).Nodup)
    (href : refKey ∉ facts.map Prod.fst) (hr : r ∈ filling)
    (hg : Sound store nodes filling g) (hcell : g.heap.cell? r = some (.object t))
    (hrun : (parts.forM fun part => do insert (.node r) part.1 (← part.2)).run.run g =
      (.ok (), g')) :
    Sound store nodes filling g' ∧ Inserted r g g' ∧
      ∃ t' fields, g'.heap.cell? r = some (.object t') ∧ t'.entries = t.entries ++ fields ∧
        List.Forall₂ (fun fact field => field.1 = fact.1 ∧ fact.2 (g'.stock filling) field.2)
          facts fields := by
  induction hparts generalizing g t with
  | nil =>
    cases hrun
    exact ⟨hg, .refl r _, t, [], hcell, (List.append_nil _).symm, .nil⟩
  | @cons part fact parts facts hpart _ ih =>
    obtain ⟨hname, hmakes⟩ := hpart
    obtain ⟨_, g₂, hhead, htail⟩ := ok_of_run_bind hrun
    obtain ⟨v, g₁, hmade, hinsert⟩ := ok_of_run_bind hhead
    obtain ⟨hg₁, hgrows, hv, hfact⟩ := run_of_makes hmakes hg hmade
    have hcell₁ := hgrows.heap.cell? hcell
    have hkeys : part.1 ∉ t.keys ∧ part.1 ≠ refKey := by
      rw [List.map_cons, List.nodup_append] at hnames
      rw [List.map_cons, List.mem_cons, not_or] at href
      refine ⟨fun hmem => hnames.2.2 _ hmem _ List.mem_cons_self hname, fun heq => ?_⟩
      exact href.1 (heq.symm.trans hname)
    rw [run_insert hcell₁] at hinsert
    obtain rfl : withField g₁ r t part.1 v = g₂ := (Prod.mk.inj hinsert).2
    have hg₂ := sound_withField hg₁ hr hcell₁ hkeys.1 hkeys.2 hv
    have hcell₂ : (withField g₁ r t part.1 v).heap.cell? r =
        some (.object (t.insert part.1 v)) :=
      Heap.cell?_write_self _ (Heap.lt_size_of_cell? hcell₁)
    have hentries : (t.insert part.1 v).entries = t.entries ++ [(part.1, v)] :=
      Table.putEntry_of_notMem hkeys.1
    have hnames₂ : ((t.insert part.1 v).keys ++ facts.map Prod.fst).Nodup := by
      rw [Table.keys, hentries, List.map_append, List.append_assoc, hname]
      exact hnames
    obtain ⟨hg', hinserted, t', fields, hcell', ht', hall⟩ :=
      ih (fun fact hfact => hlasting fact (List.mem_cons_of_mem _ hfact)) hnames₂
        (fun hmem => href (List.mem_cons_of_mem _ hmem)) hg₂ hcell₂ htail
    have hinserted₂ := (inserted_withField part.1 v).trans hinserted
    refine ⟨hg', (inserted_of_grows hgrows r).trans hinserted₂, t', (part.1, v) :: fields, hcell',
      ?_, .cons ⟨hname, ?_⟩ hall⟩
    · rw [ht', hentries, List.append_assoc]
      rfl
    · exact hlasting fact List.mem_cons_self _ _ v (hinserted₂.stock hr) hfact

end Fill

/-! ## The walk -/

section Walk

variable {store : Store} {nodes : NodeRef → Prop} {filling : List Ref} {g g' : LiteralGenerator}
  {limit : UInt32} {n : NodeRef} {id : TypeId} {content : TypeContent} {position : Position}

/-- The generator with the data object of a type begun. -/
def begun (g : LiteralGenerator) (key : TypeId × TypeKind) (position : Position) :
    LiteralGenerator where
  heap := (g.heap.allocate (.object (Table.ofList (header key.2 position)))).2
  objects := (key, .node g.heap.size) :: g.objects

/-- A type that has a data object is handed it out again. -/
theorem run_data_again (room : Nat) (hnode : store.node? n = some ⟨id, some content⟩)
    {made : Value Expression} (hobject : g.objects.lookup (id, content.kind) = some made) :
    (data store limit room n position).run.run g = (.ok (handOut content.kind made), g) := by
  cases room <;>
    (unfold data; rw [hnode]; dsimp only; rw [run_bind_of_ok (run_get g), hobject]; rfl)

/-- A type without one gets a data object that is filled one level down. -/
theorem run_data_first (room : Nat) (hnode : store.node? n = some ⟨id, some content⟩)
    (hobject : g.objects.lookup (id, content.kind) = none) :
    (data store limit room n position).run.run g =
      match room with
      | 0 => (.error (.depthExceeded limit), begun g (id, content.kind) position)
      | room + 1 =>
          (fill (data store limit room) (.node g.heap.size) content >>= fun _ =>
            pure (handOut content.kind (.node g.heap.size))).run.run
              (begun g (id, content.kind) position) := by
  cases room <;>
    (unfold data; rw [hnode]; dsimp only; rw [run_bind_of_ok (run_get g), hobject]; rfl)

/-- Data is made of complete types only. -/
theorem exists_of_run_data (room : Nat) {v : Value Expression}
    (hrun : (data store limit room n position).run.run g = (.ok v, g')) :
    ∃ id content, store.node? n = some ⟨id, some content⟩ := by
  cases hnode : store.node? n with
  | none => cases room <;> (unfold data at hrun; rw [hnode] at hrun; cases hrun)
  | some node =>
    obtain ⟨id, content⟩ := node
    cases content with
    | none => cases room <;> (unfold data at hrun; rw [hnode] at hrun; cases hrun)
    | some content => exact ⟨id, content, rfl⟩

/-- The ways to the data of a type: its data object is handed out again, or one is begun and
filled one level down. -/
inductive Supplies (store : Store) (limit : UInt32) (n : NodeRef) (position : Position)
    (g : LiteralGenerator) : Nat → Value Expression → LiteralGenerator → Prop
  | again {room : Nat} {id : TypeId} {content : TypeContent} {made : Value Expression} :
      store.node? n = some ⟨id, some content⟩ →
        g.objects.lookup (id, content.kind) = some made →
          Supplies store limit n position g room (handOut content.kind made) g
  | first {room : Nat} {id : TypeId} {content : TypeContent} {g' : LiteralGenerator} :
      store.node? n = some ⟨id, some content⟩ → g.objects.lookup (id, content.kind) = none →
        (fill (data store limit room) (.node g.heap.size) content).run.run
            (begun g (id, content.kind) position) = (.ok (), g') →
          Supplies store limit n position g (room + 1) (handOut content.kind (.node g.heap.size)) g'

theorem supplies_of_run_data {room : Nat} {v : Value Expression}
    (hrun : (data store limit room n position).run.run g = (.ok v, g')) :
    Supplies store limit n position g room v g' := by
  obtain ⟨id, content, hnode⟩ := exists_of_run_data room hrun
  cases hobject : g.objects.lookup (id, content.kind) with
  | some made =>
    rw [run_data_again room hnode hobject] at hrun
    cases hrun
    exact .again hnode hobject
  | none =>
    rw [run_data_first room hnode hobject] at hrun
    cases room with
    | zero => cases hrun
    | succ room =>
      obtain ⟨_, g₁, hfill, hrest⟩ := ok_of_run_bind hrun
      cases hrest
      exact .first hnode hobject hfill

theorem lookup_begun {key key' : TypeId × TypeKind} :
    (begun g key position).objects.lookup key' =
      if key' = key then some (.node g.heap.size) else g.objects.lookup key' := by
  unfold begun
  rw [List.lookup_cons]
  by_cases hkey : key' = key
  · simp [hkey]
  · rw [beq_eq_false_iff_ne.2 hkey, if_neg hkey]

/-- A begun data object leaves all others as they were. -/
theorem grows_begun {key : TypeId × TypeKind} (hnone : g.objects.lookup key = none)
    (position : Position) : g.Grows (begun g key position) where
  heap := Heap.within_allocate g.heap _
  objects key' v hv := by
    rw [lookup_begun, if_neg, hv]
    intro heq
    subst heq
    rw [hnone] at hv
    cases hv

/-- No data object begins with containers. -/
theorem isContainer_header {kind : TypeKind} :
    ∀ v ∈ (header kind position).map Prod.snd, v.unwrap.isContainer = false := by
  simp only [header, List.map_cons, List.map_nil, List.forall_mem_cons, List.not_mem_nil,
    false_imp_iff, implies_true, and_true]
  refine ⟨rfl, ?_, ?_⟩
  · cases position.modifiers <;> rfl
  · cases position.initializer <;> rfl

theorem proper_begun (h : g.heap.Proper) (key : TypeId × TypeKind) (position : Position) :
    (begun g key position).heap.Proper := by
  have hentries : (Table.ofList (header key.2 position)).entries = header key.2 position :=
    Table.entries_ofList (by simp [header])
  refine h.allocate (Cell.plain_object fun v hv => ?_) fun v hv => ?_
  · rw [hentries] at hv
    simp [header, refKey] at hv
  · simp only [Cell.slots, Table.values, hentries] at hv
    exact Value.below_of_isContainer (isContainer_header v hv) _

/-- The new data object is being filled, and all others are what they were. -/
private theorem stock_begun {key : TypeId × TypeKind} (hnone : g.objects.lookup key = none)
    (position : Position) (filling : List Ref) :
    (g.stock filling).Within ((begun g key position).stock (g.heap.size :: filling)) := by
  have hgrows := grows_begun hnone position
  refine ⟨fun r c hc => ?_, hgrows.objects⟩
  simp only [LiteralGenerator.stock] at hc ⊢
  split at hc
  · cases hc
  · next hr =>
    have hlt := Heap.lt_size_of_cell? hc
    rw [if_neg, hgrows.heap.cell? hc]
    rw [List.mem_cons, not_or]
    exact ⟨Nat.ne_of_lt hlt, hr⟩

/-- A type that has no data object yet can begin one. -/
private theorem sound_begun (hg : Sound store nodes filling g) {key : TypeId × TypeKind}
    (hnone : g.objects.lookup key = none) (position : Position) :
    Sound store nodes (g.heap.size :: filling) (begun g key position) := by
  have hsize : (begun g key position).heap.size = g.heap.size + 1 := Heap.size_allocate _ _
  have hlookup : ∀ {key' v}, (begun g key position).objects.lookup key' = some v →
      (key' = key ∧ v = .node g.heap.size) ∨ g.objects.lookup key' = some v := by
    intro key' v hv
    rw [lookup_begun] at hv
    split at hv
    · next heq => exact .inl ⟨heq, (Option.some.inj hv).symm⟩
    · exact .inr hv
  have hnew : ∀ key', g.objects.lookup key' ≠ some (.node g.heap.size) := by
    intro key' hkey
    obtain ⟨r, hr, hlt⟩ := hg.object key' _ hkey
    obtain rfl := Value.node.inj hr
    exact Nat.lt_irrefl _ hlt
  refine ⟨fun key' v hv => ?_, fun key₁ key₂ v h₁ h₂ => ?_, fun r hr => ?_,
    proper_begun hg.proper key position, fun m id content r hm hnode hobject hr => ?_⟩
  · rw [hsize]
    rcases hlookup hv with ⟨_, hv⟩ | hv
    · exact ⟨_, hv, Nat.lt_succ_self _⟩
    · obtain ⟨r, hr, hlt⟩ := hg.object key' v hv
      exact ⟨r, hr, Nat.lt_succ_of_lt hlt⟩
  · rcases hlookup h₁ with ⟨rfl, rfl⟩ | h₁
    · rcases hlookup h₂ with ⟨rfl, _⟩ | h₂
      · rfl
      · exact absurd h₂ (hnew _)
    · rcases hlookup h₂ with ⟨_, rfl⟩ | h₂
      · exact absurd h₁ (hnew _)
      · exact hg.object_inj _ _ v h₁ h₂
  · rw [hsize]
    rcases List.mem_cons.1 hr with rfl | hr
    · exact Nat.lt_succ_self _
    · exact Nat.lt_succ_of_lt (hg.filling_lt r hr)
  · rw [List.mem_cons, not_or] at hr
    rcases hlookup hobject with ⟨_, heq⟩ | hobject
    · exact absurd (Value.node.inj heq) hr.1
    · exact (hg.shows m id content r hm hnode hobject hr.2).mono
        (stock_begun hnone position filling)

private theorem stock_of_cons (g : LiteralGenerator) (r : Ref) (filling : List Ref) :
    (g.stock (r :: filling)).Within (g.stock filling) where
  cell? s c hc := by
    simp only [LiteralGenerator.stock] at hc ⊢
    split at hc
    · cases hc
    · next hs =>
      rw [if_neg fun hmem => hs (List.mem_cons_of_mem _ hmem), hc]
  object? _ _ h := h

/-- A data object that shows its type is finished. -/
private theorem sound_finished {r : Ref} (hg : Sound store nodes (r :: filling) g)
    (hshows : ∀ n id content, nodes n → store.node? n = some ⟨id, some content⟩ →
      g.objects.lookup (id, content.kind) = some (.node r) →
        Shows store content (g.stock filling) r) :
    Sound store nodes filling g where
  object := hg.object
  object_inj := hg.object_inj
  filling_lt s hs := hg.filling_lt s (List.mem_cons_of_mem _ hs)
  proper := hg.proper
  shows n id content s hn hnode hobject hs := by
    by_cases heq : s = r
    · subst heq
      exact hshows n id content hn hnode hobject
    · have hs' : s ∉ r :: filling := by
        rw [List.mem_cons, not_or]
        exact ⟨heq, hs⟩
      exact (hg.shows n id content s hn hnode hobject hs').mono (stock_of_cons g r filling)

/-- The names in a data object are distinct, and none is that of a token. -/
private theorem nodup_names (store : Store) (content : TypeContent) (position : Position) :
    ((Table.ofList (header content.kind position)).keys ++
      (fieldFacts store content).map Prod.fst).Nodup ∧
        refKey ∉ (fieldFacts store content).map Prod.fst := by
  have hkeys : (Table.ofList (header content.kind position)).keys =
      ["kind", "modifiers", "initializer"] := rfl
  rw [hkeys]
  cases content with
  | classType content => cases hbase : content.base <;> simp [fieldFacts, refKey, hbase]
  | _ => simp [fieldFacts, refKey]

/-- A type that has a data object is handed out. -/
private theorem makes_again (hg : Sound store nodes filling g)
    (hnode : store.node? n = some ⟨id, some content⟩) {made : Value Expression}
    (hobject : g.objects.lookup (id, content.kind) = some made) :
    Sound store nodes filling g ∧ g.Grows g ∧
      Made filling (HandedOut store n) g (handOut content.kind made) := by
  obtain ⟨r, rfl, hlt⟩ := hg.object _ _ hobject
  refine ⟨hg, .refl _, fun s hs => ?_, id, content, r, hnode, hobject, rfl⟩
  rw [unwrap_handOut] at hs
  exact Value.node.inj hs ▸ hlt

/-- A type that has none gets a data object, and its fields are those of its
kind if the types inside are handed out one level down. -/
private theorem makes_first (D : Describable store nodes) {room : Nat}
    (hchild : ∀ n, nodes n → ∀ position,
      Makes store nodes (data store limit room n position) (HandedOut store n))
    (hn : nodes n) (hg : Sound store nodes filling g)
    (hnode : store.node? n = some ⟨id, some content⟩)
    (hnone : g.objects.lookup (id, content.kind) = none)
    (hfill : (fill (data store limit room) (.node g.heap.size) content).run.run
      (begun g (id, content.kind) position) = (.ok (), g')) :
    Sound store nodes filling g' ∧ g.Grows g' ∧
      Made filling (HandedOut store n) g' (handOut content.kind (.node g.heap.size)) := by
  have hcontent := Store.content?_of_node? hnode
  have hbegun := grows_begun hnone position
  have hcell : (begun g (id, content.kind) position).heap.cell? g.heap.size =
      some (.object (Table.ofList (header content.kind position))) :=
    Heap.cell?_allocate_self _ _
  obtain ⟨hnames, href⟩ := nodup_names store content position
  obtain ⟨hg', hinserted, t, fields, hcell', ht, hall⟩ := run_insertAll
    (makes_fields (fun m hm => hchild m (D.children n content hn hcontent m hm))
      (D.names n content hn hcontent))
    (lasting_fieldFacts store content) hnames href List.mem_cons_self
    (sound_begun hg hnone position) hcell hfill
  have hobject : g'.objects.lookup (id, content.kind) = some (.node g.heap.size) := by
    refine hinserted.objects _ _ ?_
    rw [lookup_begun, if_pos rfl]
  have hnew : g.heap.size ∉ filling := fun h => Nat.lt_irrefl _ (hg.filling_lt _ h)
  have hshows : Shows store content (g'.stock filling) g.heap.size := by
    have hentries : (Table.ofList (header content.kind position)).entries =
        header content.kind position := rfl
    refine ⟨t, position, fields, ?_, hentries ▸ ht, ?_⟩
    · simp only [LiteralGenerator.stock, if_neg hnew]
      exact hcell'
    · have hlasting := (List.forall₂_and_left _ _).2 ⟨lasting_fieldFacts store content, hall⟩
      exact hlasting.imp fun fact field h => ⟨h.2.1, h.1 _ _ _ (stock_of_cons g' _ filling) h.2.2⟩
  have hgrows : g.Grows g' := by
    refine ⟨⟨Nat.le_trans hbegun.heap.size_le hinserted.size_le, fun s hs => ?_⟩,
      fun key u hu => hinserted.objects key u (hbegun.objects key u hu)⟩
    rw [hinserted.cell?_eq s (Nat.lt_of_lt_of_le hs hbegun.heap.size_le) (Nat.ne_of_lt hs),
      hbegun.heap.cell?_eq s hs]
  refine ⟨sound_finished hg' fun n' id' content' hn' hnode' hobject' => ?_, hgrows, fun s hs => ?_,
    id, content, g.heap.size, hnode, hobject, rfl⟩
  · -- the types of one data object have one identity and kind
    obtain ⟨rfl, hkind⟩ := Prod.mk.inj (hg'.object_inj _ _ _ hobject' hobject)
    rw [D.content_eq n' n id' content' content hn' hn hnode' hnode hkind]
    exact hshows
  · rw [unwrap_handOut] at hs
    exact Value.node.inj hs ▸ Heap.lt_size_of_cell? hcell'

/-- The data of a node is what is handed out for it. -/
theorem makes_data (D : Describable store nodes) (limit : UInt32) (room : Nat) :
    ∀ n, nodes n → ∀ position,
      Makes store nodes (data store limit room n position) (HandedOut store n) := by
  induction room using Nat.strong_induction_on with
  | _ room ih =>
    intro n hn position filling g v g' hg _ hrun
    cases supplies_of_run_data hrun with
    | again hnode hobject => exact makes_again hg hnode hobject
    | first hnode hobject hfill =>
      exact makes_first D (ih _ (Nat.lt_succ_self _)) hn hg hnode hobject hfill

end Walk

end Generation

/-- A literal is made of data, which is encoded and written. -/
theorem LiteralGenerator.literal_eq_ok {g : LiteralGenerator} {limits : LiteralLimits}
    {store : Store} {n : NodeRef} {modifiers : Option Modifiers} {L : Literal}
    (h : g.literal limits store n modifiers = .ok L) :
    ∃ v g' t k, g.data limits store n ⟨modifiers, none⟩ = (.ok v, g') ∧
      g'.heap.encoded limits.codec v = .ok (t, k) ∧ k.toLiteral limits.depth t = .ok L := by
  rcases hrun : g.data limits store n ⟨modifiers, none⟩ with ⟨outcome, g'⟩
  unfold LiteralGenerator.literal at h
  rw [hrun] at h
  obtain ⟨v, houtcome, h⟩ := bind_eq_ok.1 h
  obtain ⟨⟨t, k⟩, hencoded, hwritten⟩ := bind_eq_ok.1 h
  obtain rfl : outcome = .ok v := houtcome
  exact ⟨v, g', t, k, rfl, mapError_eq_ok.1 hencoded, hwritten⟩

end TypeDescription
