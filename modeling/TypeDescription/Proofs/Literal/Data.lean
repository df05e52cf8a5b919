import Mathlib.Data.List.Forall2
import TypeDescription.Literal.Generate
import TypeDescription.Proofs.Literal.Rendering

/-!
# The data of reflected types

What the data objects of a generator hold.  While the fields of a type are made,
its own data object is unfinished, and so are those further up.  A `Stock` is what
is finished: it hides the containers that are being filled, so whatever it shows
stays as it is.

`Shows` says that the data object of a type has the fields of its kind, each with
what `fieldFacts` tells about it; the types inside are the values handed out for
them.  `Sound` is the invariant of the walk: all data objects that are not being
filled show their types.
-/

namespace TypeDescription

/-! ## What is finished -/

/-- The finished containers, and the data objects by identity and kind. -/
structure Stock where
  cell? : Ref → Option (Cell Expression)
  object? : TypeId × TypeKind → Option (Value Expression)

namespace Stock

/-- All that the first stock has is in the second. -/
structure Within (s s' : Stock) : Prop where
  cell? : ∀ r c, s.cell? r = some c → s'.cell? r = some c
  object? : ∀ key v, s.object? key = some v → s'.object? key = some v

end Stock

/-- What a generator has finished while it fills some containers. -/
def LiteralGenerator.stock (g : LiteralGenerator) (filling : List Ref) : Stock where
  cell? r := if r ∈ filling then none else g.heap.cell? r
  object? key := g.objects.lookup key

/-- A fact about a value that stays true when more is finished. -/
def Lasting (fact : Stock → Value Expression → Prop) : Prop :=
  ∀ s s' v, s.Within s' → fact s v → fact s' v

/-! ## What data shows -/

/-- The value is the one that is handed out for a node. -/
def HandedOut (store : Store) (n : NodeRef) (s : Stock) (v : Value Expression) : Prop :=
  ∃ id content r, store.node? n = some ⟨id, some content⟩ ∧
    s.object? (id, content.kind) = some (.node r) ∧
      v = Generation.handOut content.kind (.node r)

/-- The value is an array with one item for each element of a list. -/
def Lists {α : Type} (fact : α → Stock → Value Expression → Prop) (l : List α) (s : Stock)
    (v : Value Expression) : Prop :=
  ∃ r items, v = .node r ∧ s.cell? r = some (.array items) ∧
    List.Forall₂ (fun a item => fact a s item) l items

/-- The value is an object with some fields. -/
def HasFields (fields : List (String × Value Expression)) (s : Stock) (v : Value Expression) :
    Prop :=
  ∃ r t, v = .node r ∧ s.cell? r = some (.object t) ∧ t.entries = fields

/-- The value is an object with the types of properties under their names. -/
def ShowsProperties (store : Store) (members : List Member) (s : Stock) (v : Value Expression) :
    Prop :=
  ∃ values, HasFields ((members.map Member.name).zip values) s v ∧
    List.Forall₂ (fun member value => HandedOut store member.type s value) members values

/-- The value is the data of a constructor parameter. -/
def ShowsParameter (store : Store) (p : Member) (s : Stock) (v : Value Expression) : Prop :=
  ∃ type, HasFields [("name", .string p.name),
      ("modifiers", Generation.modifiersValue (some p.modifiers)), ("type", type)] s v ∧
    HandedOut store p.type s type

/-- The value is the data of a constructor. -/
def ShowsConstructor (store : Store) (c : Constructor) (s : Stock) (v : Value Expression) : Prop :=
  ∃ parameters, HasFields [("modifiers", Generation.modifiersValue (some c.modifiers)),
      ("parameters", parameters)] s v ∧
    Lists (ShowsParameter store) c.parameters s parameters

/-- The fields that the data object of a type has beside those of its position,
with what each one shows. -/
def fieldFacts (store : Store) : TypeContent → List (String × (Stock → Value Expression → Prop))
  | .object name members =>
      [("name", fun _ v => v = name.elim .undefined .string),
        ("properties", ShowsProperties store members)]
  | .classType content =>
      [("name", fun _ v => v = .string content.name),
        ("properties", ShowsProperties store content.properties),
        ("constructors", Lists (ShowsConstructor store) content.constructors)] ++
      content.base.toList.map fun base => ("extends", HandedOut store base)
  | .tuple elements => [("elementTypes", Lists (HandedOut store) elements)]
  | .union members => [("types", Lists (HandedOut store) members)]
  | .stringLiteral value => [("value", fun _ v => v = .string value)]
  | .numberLiteral value => [("value", fun _ v => v = .number value)]
  | .reference name arguments =>
      [("type", fun _ v => v = Generation.verbatim name),
        ("arguments", Lists (HandedOut store) arguments)]
  | _ => []

/-- A container is the data object of a type. -/
def Shows (store : Store) (content : TypeContent) (s : Stock) (r : Ref) : Prop :=
  ∃ t position fields, s.cell? r = some (.object t) ∧
    t.entries = Generation.header content.kind position ++ fields ∧
      List.Forall₂ (fun fact field => field.1 = fact.1 ∧ fact.2 s field.2)
        (fieldFacts store content) fields

theorem Generation.unwrap_handOut (kind : TypeKind) (r : Ref) :
    (Generation.handOut kind (.node r)).unwrap = .node r := by
  unfold Generation.handOut
  split <;> rfl

/-- What is handed out for a node is a container. -/
theorem HandedOut.isContainer {store : Store} {n : NodeRef} {s : Stock} {v : Value Expression}
    (h : HandedOut store n s v) : v.unwrap.isContainer = true := by
  obtain ⟨id, content, r, _, _, rfl⟩ := h
  rw [Generation.unwrap_handOut]
  rfl

section Lasting

variable {store : Store} {s s' : Stock} {v : Value Expression}

theorem lasting_handedOut (store : Store) (n : NodeRef) : Lasting (HandedOut store n) := by
  intro s s' v hs h
  obtain ⟨id, content, r, hnode, hobject, hv⟩ := h
  exact ⟨id, content, r, hnode, hs.object? _ _ hobject, hv⟩

theorem lasting_lists {α : Type} {fact : α → Stock → Value Expression → Prop}
    (hfact : ∀ a, Lasting (fact a)) (l : List α) : Lasting (Lists fact l) := by
  intro s s' v hs h
  obtain ⟨r, items, hv, hcell, hall⟩ := h
  exact ⟨r, items, hv, hs.cell? r _ hcell, hall.imp fun a item h => hfact a s s' item hs h⟩

theorem lasting_hasFields (fields : List (String × Value Expression)) :
    Lasting (HasFields fields) := by
  intro s s' v hs h
  obtain ⟨r, t, hv, hcell, ht⟩ := h
  exact ⟨r, t, hv, hs.cell? r _ hcell, ht⟩

theorem lasting_showsProperties (store : Store) (members : List Member) :
    Lasting (ShowsProperties store members) := by
  intro s s' v hs h
  obtain ⟨values, hfields, hall⟩ := h
  exact ⟨values, lasting_hasFields _ s s' v hs hfields,
    hall.imp fun member value h => lasting_handedOut store _ s s' value hs h⟩

theorem lasting_showsParameter (store : Store) (p : Member) :
    Lasting (ShowsParameter store p) := by
  intro s s' v hs h
  obtain ⟨type, hfields, htype⟩ := h
  exact ⟨type, lasting_hasFields _ s s' v hs hfields, lasting_handedOut store _ s s' type hs htype⟩

theorem lasting_showsConstructor (store : Store) (c : Constructor) :
    Lasting (ShowsConstructor store c) := by
  intro s s' v hs h
  obtain ⟨parameters, hfields, hparameters⟩ := h
  exact ⟨parameters, lasting_hasFields _ s s' v hs hfields,
    lasting_lists (lasting_showsParameter store) _ s s' parameters hs hparameters⟩

/-- What is told about fields stays true. -/
theorem lasting_fieldFacts (store : Store) (content : TypeContent) :
    ∀ fact ∈ fieldFacts store content, Lasting fact.2 := by
  have hfixed : ∀ value, Lasting fun _ v => v = value := fun _ _ _ _ _ h => h
  cases content with
  | object name members =>
    simp only [fieldFacts, List.forall_mem_cons, List.not_mem_nil, false_imp_iff, implies_true,
      and_true]
    exact ⟨hfixed _, lasting_showsProperties store members⟩
  | classType content =>
    simp only [fieldFacts, List.cons_append, List.nil_append, List.forall_mem_cons,
      List.forall_mem_map]
    exact ⟨hfixed _, lasting_showsProperties store _,
      lasting_lists (lasting_showsConstructor store) _, fun base _ => lasting_handedOut store base⟩
  | tuple elements =>
    intro fact hfact
    obtain rfl := List.mem_singleton.1 hfact
    exact lasting_lists (lasting_handedOut store) _
  | union members =>
    intro fact hfact
    obtain rfl := List.mem_singleton.1 hfact
    exact lasting_lists (lasting_handedOut store) _
  | stringLiteral value =>
    intro fact hfact
    obtain rfl := List.mem_singleton.1 hfact
    exact hfixed _
  | numberLiteral value =>
    intro fact hfact
    obtain rfl := List.mem_singleton.1 hfact
    exact hfixed _
  | reference name arguments =>
    simp only [fieldFacts, List.forall_mem_cons, List.not_mem_nil, false_imp_iff, implies_true,
      and_true]
    exact ⟨hfixed _, lasting_lists (lasting_handedOut store) _⟩
  | _ => exact fun fact hfact => absurd hfact List.not_mem_nil

/-- The data object of a type stays as it is. -/
theorem Shows.mono {content : TypeContent} {r : Ref} (hs : s.Within s')
    (h : Shows store content s r) : Shows store content s' r := by
  obtain ⟨t, position, fields, hcell, ht, hall⟩ := h
  refine ⟨t, position, fields, hs.cell? r _ hcell, ht, ?_⟩
  have hlasting := (List.forall₂_and_left _ _).2 ⟨lasting_fieldFacts store content, hall⟩
  exact hlasting.imp fun fact field h => ⟨h.2.1, h.1 s s' field.2 hs h.2.2⟩

end Lasting

/-! ## The invariant -/

/-- Nodes that contain each other only, that are told apart by identity and kind,
and that have no two properties of one name. -/
structure Describable (store : Store) (nodes : NodeRef → Prop) : Prop where
  children : ∀ n content, nodes n → store.content? n = some content →
    ∀ child ∈ content.children, nodes child
  content_eq : ∀ n n' id content content', nodes n → nodes n' →
    store.node? n = some ⟨id, some content⟩ → store.node? n' = some ⟨id, some content'⟩ →
      content.kind = content'.kind → content = content'
  names : ∀ n content, nodes n → store.content? n = some content →
    (content.properties.map Member.name).Nodup

/-- There is one data object for each identity and kind, and those that are not
being filled show their types. -/
structure Sound (store : Store) (nodes : NodeRef → Prop) (filling : List Ref)
    (g : LiteralGenerator) : Prop where
  object : ∀ key v, g.objects.lookup key = some v → ∃ r, v = .node r ∧ r < g.heap.size
  object_inj : ∀ key key' v, g.objects.lookup key = some v → g.objects.lookup key' = some v →
    key = key'
  filling_lt : ∀ r ∈ filling, r < g.heap.size
  proper : g.heap.Proper
  shows : ∀ n id content r, nodes n → store.node? n = some ⟨id, some content⟩ →
    g.objects.lookup (id, content.kind) = some (.node r) → r ∉ filling →
      Shows store content (g.stock filling) r

theorem sound_empty (store : Store) (nodes : NodeRef → Prop) :
    Sound store nodes [] LiteralGenerator.empty where
  object key v h := by cases h
  object_inj key key' v h := by cases h
  filling_lt r h := by cases h
  proper := ⟨fun r c h => by simp [LiteralGenerator.empty, Heap.empty, Heap.cell?] at h,
    fun r c h => by simp [LiteralGenerator.empty, Heap.empty, Heap.cell?] at h⟩
  shows n id content r hn hnode h := by cases h

/-- All that was made is still there. -/
structure LiteralGenerator.Grows (g g' : LiteralGenerator) : Prop where
  heap : g.heap.Within g'.heap
  objects : ∀ key v, g.objects.lookup key = some v → g'.objects.lookup key = some v

namespace LiteralGenerator

theorem Grows.refl (g : LiteralGenerator) : g.Grows g :=
  ⟨.refl _, fun _ _ h => h⟩

theorem Grows.trans {g g' g'' : LiteralGenerator} (h : g.Grows g') (h' : g'.Grows g'') :
    g.Grows g'' :=
  ⟨h.heap.trans h'.heap, fun key v hv => h'.objects key v (h.objects key v hv)⟩

/-- What is finished stays finished. -/
theorem Grows.stock {g g' : LiteralGenerator} (h : g.Grows g') (filling : List Ref) :
    (g.stock filling).Within (g'.stock filling) where
  cell? r c hc := by
    simp only [LiteralGenerator.stock] at hc ⊢
    split at hc
    · cases hc
    · next hr =>
      rw [if_neg hr]
      exact h.heap.cell? hc
  object? := h.objects

end LiteralGenerator

end TypeDescription
