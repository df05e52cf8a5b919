import TypeDescription.Proofs.Literal.Data

/-!
# What a literal says about a type

`Literal.Describes` says that a literal tells what a type is: its kind, the fields
that its kind has and no others, the names of its properties and the lengths of
its lists.  A `ChildStep` leads from a type to one inside it, and along
`ChildStep.route` from the literal of the one to the literal of the other.

Both are read off a rendering of the data objects.  A literal `Depicts` a node if
the data object of the node is rendered as it.  If that data object shows its type,
then the literal describes the type (`Shows.describes`), and each step into the
type leads to a literal that depicts the node inside (`Shows.exists_child`).
-/

namespace TypeDescription

/-! ## Types inside types -/

/-- A step from a type to one inside it. -/
inductive ChildStep where
  /-- The property with a name. -/
  | property (name : String)
  /-- A parameter of a constructor, both by their positions. -/
  | parameter (i j : Nat)
  /-- An element of a tuple. -/
  | element (i : Nat)
  /-- A member of a union. -/
  | member (i : Nat)
  /-- An argument of a reference. -/
  | argument (i : Nat)
  /-- The base of a class. -/
  | base
deriving DecidableEq

/-- Where the step leads in a literal. -/
def ChildStep.route : ChildStep → Path
  | property name => [.key "properties", .key name]
  | parameter i j =>
      [.key "constructors", .ofIndex i, .key "parameters", .ofIndex j, .key "type"]
  | element i => [.key "elementTypes", .ofIndex i]
  | member i => [.key "types", .ofIndex i]
  | argument i => [.key "arguments", .ofIndex i]
  | base => [.key "extends"]

namespace TypeContent

/-- The name of an object or class. -/
def name? : TypeContent → Option String
  | object name _ => name
  | classType content => some content.name
  | _ => none

/-- The value of a literal string or number. -/
def value? : TypeContent → Option Literal.Scalar
  | stringLiteral value => some (.string value)
  | numberLiteral value => some (.number value)
  | _ => none

/-- The identifier of a reference. -/
def reference? : TypeContent → Option Expression
  | reference name _ => some name
  | _ => none

/-- The properties, where a type can have some. -/
def properties? : TypeContent → Option (List Member)
  | object _ properties => some properties
  | classType content => some content.properties
  | _ => none

/-- The constructors of a class. -/
def constructors? : TypeContent → Option (List Constructor)
  | classType content => some content.constructors
  | _ => none

/-- The elements of a tuple. -/
def elements? : TypeContent → Option (List NodeRef)
  | tuple elements => some elements
  | _ => none

/-- The members of a union. -/
def members? : TypeContent → Option (List NodeRef)
  | union members => some members
  | _ => none

/-- The arguments of a reference. -/
def arguments? : TypeContent → Option (List NodeRef)
  | reference _ arguments => some arguments
  | _ => none

/-- The base of a class. -/
def base? : TypeContent → Option NodeRef
  | classType content => content.base
  | _ => none

/-- The node that a step leads to. -/
def child? (content : TypeContent) : ChildStep → Option NodeRef
  | .property name => (content.property? name).map Member.type
  | .parameter i j => do
      let constructors ← content.constructors?
      let c ← constructors[i]?
      let p ← c.parameters[j]?
      return p.type
  | .element i => content.elements?.bind fun l => l[i]?
  | .member i => content.members?.bind fun l => l[i]?
  | .argument i => content.arguments?.bind fun l => l[i]?
  | .base => content.base?

/-- Only objects and classes have properties. -/
theorem properties?_of_property? {content : TypeContent} {name : String} {member : Member}
    (h : content.property? name = some member) : content.properties? = some content.properties := by
  cases content with
  | object _ _ => rfl
  | classType _ => rfl
  | _ => cases h

/-- A step leads to a node that the type contains. -/
theorem mem_children_of_child? {content : TypeContent} {step : ChildStep} {m : NodeRef}
    (h : content.child? step = some m) : m ∈ content.children := by
  have hlist : ∀ {o : Option (List NodeRef)} {i : Nat}, (o.bind fun l => l[i]?) = some m →
      ∃ l, o = some l ∧ m ∈ l := by
    intro o i h
    obtain ⟨l, hl, h⟩ := Option.bind_eq_some_iff.1 h
    exact ⟨l, hl, List.mem_of_getElem? h⟩
  cases step with
  | property name =>
    obtain ⟨member, hmember, rfl⟩ := Option.map_eq_some_iff.1 h
    have hmem : member.type ∈ content.properties.map Member.type :=
      List.mem_map_of_mem (List.mem_of_find?_eq_some hmember)
    cases content with
    | object _ _ => exact hmem
    | classType _ => exact List.mem_append_left _ (List.mem_append_left _ hmem)
    | _ => cases hmember
  | parameter i j =>
    obtain ⟨l, hl, h⟩ := Option.bind_eq_some_iff.1 h
    obtain ⟨c, hc, h⟩ := Option.bind_eq_some_iff.1 h
    obtain ⟨p, hp, h⟩ := Option.bind_eq_some_iff.1 h
    obtain rfl := Option.some.inj h
    have hmem : p.type ∈ l.flatMap fun c => c.parameters.map Member.type :=
      List.mem_flatMap.2 ⟨c, List.mem_of_getElem? hc, List.mem_map_of_mem (List.mem_of_getElem? hp)⟩
    cases content with
    | classType _ =>
      obtain rfl := Option.some.inj hl
      exact List.mem_append_left _ (List.mem_append_right _ hmem)
    | _ => cases hl
  | element i =>
    obtain ⟨l, hl, hmem⟩ := hlist h
    cases content with
    | tuple _ =>
      obtain rfl := Option.some.inj hl
      exact hmem
    | _ => cases hl
  | member i =>
    obtain ⟨l, hl, hmem⟩ := hlist h
    cases content with
    | union _ =>
      obtain rfl := Option.some.inj hl
      exact hmem
    | _ => cases hl
  | argument i =>
    obtain ⟨l, hl, hmem⟩ := hlist h
    cases content with
    | reference _ _ =>
      obtain rfl := Option.some.inj hl
      exact hmem
    | _ => cases hl
  | base =>
    have h : content.base? = some m := h
    cases content with
    | classType c => exact List.mem_append_right _ (Option.mem_toList.2 h)
    | _ => cases h

end TypeContent

/-- Follow steps from a node. -/
def Store.descend (store : Store) (root : NodeRef) (steps : List ChildStep) : Option NodeRef :=
  steps.foldlM (fun n step => (store.content? n).bind fun content => content.child? step) root

/-! ## Descriptions -/

namespace Literal

/-- The literal stands for an object with the given names. -/
def HasNames (root : Literal) (names : List String) (here : Literal) : Prop :=
  ∃ fields, root.deref? here = some (.object fields) ∧ fields.map Prod.fst = names

/-- The literal stands for an array with one item for each element of a list. -/
def HasItems {α : Type} (root : Literal) (fact : α → Literal → Prop) (l : List α)
    (here : Literal) : Prop :=
  ∃ items, root.deref? here = some (.array items) ∧ List.Forall₂ fact l items

/-- The literal tells the name and the modifiers of a parameter. -/
def DescribesParameter (root : Literal) (p : Member) (here : Literal) : Prop :=
  ∃ M, root.deref? here = some M ∧ M.get? "name" = some (.leaf (.string p.name)) ∧
    M.get? "modifiers" = some (.leaf (.number (Double.ofNat p.modifiers.bits.toNat)))

/-- The literal tells the modifiers and the parameters of a constructor. -/
def DescribesConstructor (root : Literal) (c : Constructor) (here : Literal) : Prop :=
  ∃ M parameters, root.deref? here = some M ∧
    M.get? "modifiers" = some (.leaf (.number (Double.ofNat c.modifiers.bits.toNat))) ∧
    M.get? "parameters" = some parameters ∧
      root.HasItems root.DescribesParameter c.parameters parameters

/-- The item of a list of types stands for something. -/
def IsThere (root : Literal) (_ : NodeRef) (here : Literal) : Prop :=
  (root.deref? here).isSome = true

/-- The literal tells what a type is.  It has each field exactly if the type has
what the field is for. -/
structure Describes (root : Literal) (content : TypeContent) (M : Literal) : Prop where
  kind : M.get? "kind" = some (.leaf (.number (Double.ofNat content.kind.code)))
  name : M.get? "name" = content.name?.map fun s => .leaf (.string s)
  value : M.get? "value" = content.value?.map .leaf
  type : M.get? "type" = content.reference?.map fun e => .leaf (.verbatim e)
  properties : Option.Rel (fun members => root.HasNames (members.map Member.name))
    content.properties? (M.get? "properties")
  constructors : Option.Rel (root.HasItems root.DescribesConstructor) content.constructors?
    (M.get? "constructors")
  elements : Option.Rel (root.HasItems root.IsThere) content.elements? (M.get? "elementTypes")
  members : Option.Rel (root.HasItems root.IsThere) content.members? (M.get? "types")
  arguments : Option.Rel (root.HasItems root.IsThere) content.arguments? (M.get? "arguments")
  base : Option.Rel root.IsThere content.base? (M.get? "extends")

/-! ## Single steps -/

/-- A step to a field leads to what it stands for. -/
theorem hop_key {root M here M' : Literal} {name : String} (hhere : M.get? name = some here)
    (hM : root.deref? here = some M') : root.hop M (.key name) = some M' := by
  cases M with
  | leaf s => cases hhere
  | array items => cases hhere
  | object fields =>
    show ((Document.object fields).get? name).bind root.deref? = some M'
    rw [hhere, Option.bind_some, hM]

/-- A step to an item leads to what it stands for. -/
theorem hop_ofIndex {root here M' : Literal} {items : List Literal} {i : Nat}
    (hhere : items[i]? = some here) (hM : root.deref? here = some M') :
    root.hop (.array items) (.ofIndex i) = some M' := by
  simp only [hop, step?, Step.elementIndex?_ofIndex, Option.bind_some, hhere, hM]

theorem HasItems.imp {α : Type} {root here : Literal} {fact fact' : α → Literal → Prop}
    {l : List α} (h : root.HasItems fact l here)
    (himp : ∀ a item, fact a item → fact' a item) : root.HasItems fact' l here := by
  obtain ⟨items, hitems, hall⟩ := h
  exact ⟨items, hitems, hall.imp himp⟩

/-- A step to a position of an array leads to what is there. -/
theorem HasItems.exists_hop {α : Type} {root here : Literal} {fact : α → Literal → Prop}
    {l : List α} {i : Nat} {a : α} (h : root.HasItems fact l here) (ha : l[i]? = some a) :
    ∃ M item, root.deref? here = some M ∧ fact a item ∧
      ∀ M', root.deref? item = some M' → root.hop M (.ofIndex i) = some M' := by
  obtain ⟨items, hitems, hall⟩ := h
  obtain ⟨hi, rfl⟩ := List.getElem?_eq_some_iff.1 ha
  have hi' : i < items.length := hall.length_eq ▸ hi
  exact ⟨_, items[i], hitems, hall.get hi hi',
    fun M' hM' => hop_ofIndex (List.getElem?_eq_getElem hi') hM'⟩

end Literal

/-! ## Reading data -/

section Reading

variable {store : Store} {g : LiteralGenerator} {L : Literal} {R : Ref → Literal → Prop}
  {v : Value Expression} {here : Literal}

/-- The data object of a node is rendered as the literal. -/
def Depicts (store : Store) (g : LiteralGenerator) (R : Ref → Literal → Prop) (n : NodeRef)
    (M : Literal) : Prop :=
  ∃ id content r, store.node? n = some ⟨id, some content⟩ ∧
    g.objects.lookup (id, content.kind) = some (.node r) ∧ R r M

theorem cell?_stock_nil (g : LiteralGenerator) (r : Ref) :
    (g.stock []).cell? r = g.heap.cell? r := by
  simp [LiteralGenerator.stock]

private theorem rel_imp {α β : Type} {rel rel' : α → β → Prop} {o : Option α} {o' : Option β}
    (h : Option.Rel rel o o') (himp : ∀ a b, rel a b → rel' a b) : Option.Rel rel' o o' := by
  cases h with
  | none => exact .none
  | some hab => exact .some (himp _ _ hab)

private theorem exists_of_rel {α : Type} {rel : α → Literal → Prop} {a : α} {o : Option Literal}
    (h : Option.Rel rel (some a) o) : ∃ here, o = some here ∧ rel a here := by
  cases h with
  | some hhere => exact ⟨_, rfl, hhere⟩

namespace Literal

theorem Holds.of_node {r : Ref} (h : L.Holds R (.node r) here) :
    ∃ M, L.deref? here = some M ∧ R r M := by
  cases h with
  | container hv hM hR =>
    obtain rfl := Value.node.inj hv
    exact ⟨_, hM, hR⟩
  | scalar hv _ => cases hv

/-- A field with a scalar holds what is written for it. -/
theorem get?_of_rel {o : Option Literal} {w : Literal} (h : Option.Rel (L.Holds R) (some v) o)
    (hw : Heap.empty.toLiteralAt 0 0 v = .ok w) : o = some w := by
  cases h with
  | some hhere =>
    cases hhere with
    | container hv _ _ =>
      unfold Heap.toLiteralAt at hw
      rw [hv] at hw
      cases hw
    | scalar _ hwritten =>
      rw [hwritten] at hw
      rw [Except.ok.inj hw]

end Literal

/-- What is handed out for a node depicts it. -/
theorem HandedOut.depicts {n : NodeRef} (hv : HandedOut store n (g.stock []) v)
    (hhere : L.Holds R v here) : ∃ M, L.deref? here = some M ∧ Depicts store g R n M := by
  obtain ⟨id, content, r, hnode, hobject, rfl⟩ := hv
  cases hhere with
  | container hr hM hR =>
    obtain rfl := Value.node.inj ((Generation.unwrap_handOut _ r).symm.trans hr)
    exact ⟨_, hM, id, content, r, hnode, hobject, hR⟩
  | scalar hscalar _ =>
    rw [Generation.unwrap_handOut] at hscalar
    cases hscalar

theorem HandedOut.isDefined {n : NodeRef} {s : Stock} (h : HandedOut store n s v) :
    v.isDefined = true := by
  obtain ⟨id, content, r, _, _, rfl⟩ := h
  unfold Value.isDefined
  rw [Generation.unwrap_handOut]
  rfl

theorem HandedOut.isThere {n : NodeRef} (hv : HandedOut store n (g.stock []) v)
    (hhere : L.Holds R v here) : L.IsThere n here := by
  obtain ⟨M, hM, _⟩ := hv.depicts hhere
  exact Option.isSome_of_eq_some hM

theorem Lists.isDefined {α : Type} {fact : α → Stock → Value Expression → Prop} {l : List α}
    {s : Stock} (h : Lists fact l s v) : v.isDefined = true := by
  obtain ⟨r, items, rfl, _, _⟩ := h
  rfl

theorem ShowsProperties.isDefined {members : List Member} {s : Stock}
    (h : ShowsProperties store members s v) : v.isDefined = true := by
  obtain ⟨values, ⟨r, t, rfl, _, _⟩, _⟩ := h
  rfl

/-- An array is written item by item. -/
theorem Lists.hasItems {α : Type} {fact : α → Stock → Value Expression → Prop} {l : List α}
    (hv : Lists fact l (g.stock []) v) (H : g.heap.Renders L R) (hhere : L.Holds R v here) :
    L.HasItems (fun a item => ∃ u, fact a (g.stock []) u ∧ L.Holds R u item) l here := by
  obtain ⟨r, items, rfl, hcell, hall⟩ := hv
  obtain ⟨M, hM, hR⟩ := hhere.of_node
  rw [cell?_stock_nil] at hcell
  obtain ⟨written, rfl, hwritten⟩ := H.array hR hcell
  exact ⟨written, hM, forall₂_trans (fun a u item hu hitem => ⟨u, hu, hitem⟩) hall hwritten⟩

/-- The items of a list of types depict them. -/
theorem Lists.depicts {l : List NodeRef} (hv : Lists (HandedOut store) l (g.stock []) v)
    (H : g.heap.Renders L R) (hhere : L.Holds R v here) :
    L.HasItems (fun n item => ∃ M, L.deref? item = some M ∧ Depicts store g R n M) l here :=
  (hv.hasItems H hhere).imp fun _ _ ⟨_, hu, hitem⟩ => hu.depicts hitem

theorem Lists.isThere {l : List NodeRef} (hv : Lists (HandedOut store) l (g.stock []) v)
    (H : g.heap.Renders L R) (hhere : L.Holds R v here) : L.HasItems L.IsThere l here :=
  (hv.depicts H hhere).imp fun _ _ ⟨_, hM, _⟩ => Option.isSome_of_eq_some hM

/-- An object is written field by field, without the undefined ones. -/
theorem HasFields.fields {fields : List (String × Value Expression)}
    (hv : HasFields fields (g.stock []) v) (H : g.heap.Renders L R) (hhere : L.Holds R v here) :
    ∃ written, L.deref? here = some (.object written) ∧
      List.Forall₂ (fun entry field => field.1 = entry.1 ∧ L.Holds R entry.2 field.2)
        (fields.filter fun entry => entry.2.isDefined) written := by
  obtain ⟨r, t, rfl, hcell, rfl⟩ := hv
  obtain ⟨M, hM, hR⟩ := hhere.of_node
  rw [cell?_stock_nil] at hcell
  obtain ⟨written, rfl, hwritten⟩ := H.object hR hcell
  exact ⟨written, hM, hwritten⟩

/-- A field is found under its name. -/
theorem HasFields.get? {fields : List (String × Value Expression)}
    (hv : HasFields fields (g.stock []) v) (H : g.heap.Renders L R) (hhere : L.Holds R v here) :
    ∃ M, L.deref? here = some M ∧ ∀ name, Option.Rel (L.Holds R)
      (((fields.filter fun entry => entry.2.isDefined).find? fun entry => entry.1 == name).map
        Prod.snd) (M.get? name) := by
  obtain ⟨written, hM, hwritten⟩ := hv.fields H hhere
  exact ⟨_, hM, rel_find?_of_forall₂ hwritten⟩

/-! ## Properties and constructors -/

/-- Properties are written under their names, and their fields depict their types. -/
private theorem ShowsProperties.fields {members : List Member}
    (hv : ShowsProperties store members (g.stock []) v) (H : g.heap.Renders L R)
    (hhere : L.Holds R v here) :
    ∃ written, L.deref? here = some (.object written) ∧
      List.Forall₂ (fun entry field => field.1 = entry.1 ∧
          ∃ M, L.deref? field.2 = some M ∧ Depicts store g R entry.2.type M)
        (members.map fun member => (member.name, member)) written := by
  obtain ⟨values, hfields, hall⟩ := hv
  obtain ⟨written, hM, hwritten⟩ := hfields.fields H hhere
  have hdefined : ∀ value ∈ values, value.isDefined = true :=
    forall_mem_of_forall₂ hall fun _ _ h => h.isDefined
  rw [List.filter_eq_self.2 fun entry hentry => hdefined _ (List.of_mem_zip hentry).2] at hwritten
  have hsnd : (members.map fun member => (member.name, member)).map Prod.snd = members := by
    rw [List.map_map]
    exact List.map_id members
  have hfst : (members.map fun member => (member.name, member)).map Prod.fst =
      members.map Member.name := by
    rw [List.map_map]
    rfl
  have hentries := forall₂_zip (hsnd.symm ▸ hall)
  rw [hfst] at hentries
  refine ⟨written, hM, forall₂_trans ?_ hentries hwritten⟩
  intro entry value field hentry hwrite
  obtain ⟨hname, hvalue⟩ := hentry
  obtain ⟨hname', hfield⟩ := hwrite
  exact ⟨hname'.trans hname, hvalue.depicts hfield⟩

theorem ShowsProperties.hasNames {members : List Member}
    (hv : ShowsProperties store members (g.stock []) v) (H : g.heap.Renders L R)
    (hhere : L.Holds R v here) : L.HasNames (members.map Member.name) here := by
  obtain ⟨written, hM, hwritten⟩ := hv.fields H hhere
  refine ⟨written, hM, ?_⟩
  have hsame : List.Forall₂ (fun name name' => name' = name) (members.map Member.name)
      (written.map Prod.fst) := by
    rw [List.forall₂_map_left_iff] at hwritten ⊢
    rw [List.forall₂_map_right_iff]
    exact hwritten.imp fun _ _ h => h.1
  rw [List.forall₂_iff_get] at hsame
  exact List.ext_get hsame.1.symm fun i hi hi' => hsame.2 i hi' hi

/-- The field of a property depicts its type. -/
theorem ShowsProperties.exists_field {members : List Member} {name : String} {member : Member}
    (hv : ShowsProperties store members (g.stock []) v) (H : g.heap.Renders L R)
    (hhere : L.Holds R v here)
    (hmember : (members.find? fun member => member.name == name) = some member) :
    ∃ P field M, L.deref? here = some P ∧ P.get? name = some field ∧
      L.deref? field = some M ∧ Depicts store g R member.type M := by
  obtain ⟨written, hM, hwritten⟩ := hv.fields H hhere
  have hrel : Option.Rel
      (fun (member : Member) field =>
        ∃ M, L.deref? field = some M ∧ Depicts store g R member.type M) _ _ :=
    rel_find?_of_forall₂ hwritten name
  rw [List.find?_map, Function.comp_def, hmember] at hrel
  obtain ⟨field, hfield, M, hfield', hdepicts⟩ := exists_of_rel hrel
  exact ⟨_, field, M, hM, hfield, hfield', hdepicts⟩

theorem ShowsParameter.describes {p : Member} (hv : ShowsParameter store p (g.stock []) v)
    (H : g.heap.Renders L R) (hhere : L.Holds R v here) : L.DescribesParameter p here := by
  obtain ⟨type, hfields, htype⟩ := hv
  obtain ⟨M, hM, hget⟩ := hfields.get? H hhere
  exact ⟨M, hM, Literal.get?_of_rel (hget "name") rfl, Literal.get?_of_rel (hget "modifiers") rfl⟩

/-- The field of a parameter depicts its type. -/
theorem ShowsParameter.exists_type {p : Member} (hv : ShowsParameter store p (g.stock []) v)
    (H : g.heap.Renders L R) (hhere : L.Holds R v here) :
    ∃ P field M, L.deref? here = some P ∧ P.get? "type" = some field ∧
      L.deref? field = some M ∧ Depicts store g R p.type M := by
  obtain ⟨type, hfields, htype⟩ := hv
  obtain ⟨P, hP, hget⟩ := hfields.get? H hhere
  have hrel := hget "type"
  simp [List.filter_cons, htype.isDefined] at hrel
  obtain ⟨field, hfield, hhere'⟩ := exists_of_rel hrel
  obtain ⟨M, hM, hdepicts⟩ := htype.depicts hhere'
  exact ⟨P, field, M, hP, hfield, hM, hdepicts⟩

/-- The fields of a constructor tell its modifiers and hold its parameters. -/
private theorem ShowsConstructor.fields {c : Constructor}
    (hv : ShowsConstructor store c (g.stock []) v) (H : g.heap.Renders L R)
    (hhere : L.Holds R v here) :
    ∃ M parameters, L.deref? here = some M ∧
      M.get? "modifiers" = some (.leaf (.number (Double.ofNat c.modifiers.bits.toNat))) ∧
      M.get? "parameters" = some parameters ∧ L.HasItems (fun p item =>
        ∃ u, ShowsParameter store p (g.stock []) u ∧ L.Holds R u item) c.parameters parameters := by
  obtain ⟨parameters, hfields, hparameters⟩ := hv
  obtain ⟨M, hM, hget⟩ := hfields.get? H hhere
  obtain ⟨r, items, rfl, _, _⟩ := id hparameters
  obtain ⟨written, hwritten, hholds⟩ := exists_of_rel (hget "parameters")
  exact ⟨M, written, hM, Literal.get?_of_rel (hget "modifiers") rfl, hwritten,
    hparameters.hasItems H hholds⟩

theorem ShowsConstructor.describes {c : Constructor}
    (hv : ShowsConstructor store c (g.stock []) v) (H : g.heap.Renders L R)
    (hhere : L.Holds R v here) : L.DescribesConstructor c here := by
  obtain ⟨M, parameters, hM, hmodifiers, hfield, hitems⟩ := hv.fields H hhere
  exact ⟨M, parameters, hM, hmodifiers, hfield,
    hitems.imp fun _ _ ⟨_, hu, hitem⟩ => hu.describes H hitem⟩

/-- The steps to a parameter's type lead to what depicts it. -/
theorem ShowsConstructor.exists_chase {c : Constructor} {j : Nat} {p : Member}
    (hv : ShowsConstructor store c (g.stock []) v) (H : g.heap.Renders L R)
    (hhere : L.Holds R v here) (hp : c.parameters[j]? = some p) :
    ∃ C M, L.deref? here = some C ∧
      L.chase C [.key "parameters", .ofIndex j, .key "type"] = some M ∧
        Depicts store g R p.type M := by
  obtain ⟨C, parameters, hC, _, hfield, hitems⟩ := hv.fields H hhere
  obtain ⟨Ps, item, hPs, ⟨u, hu, hitem⟩, hhop⟩ := hitems.exists_hop hp
  obtain ⟨P, field, M, hP, htype, hM, hdepicts⟩ := hu.exists_type H hitem
  refine ⟨C, M, hC, ?_, hdepicts⟩
  rw [Literal.chase_cons (Literal.hop_key hfield hPs), Literal.chase_cons (hhop P hP),
    Literal.chase_cons (Literal.hop_key htype hM)]
  rfl

/-! ## Fields of data objects -/

/-- What is told about a field of the data object of a type. -/
def fieldFact? (store : Store) (content : TypeContent) (name : String) :
    Option (Stock → Value Expression → Prop) :=
  ((fieldFacts store content).find? fun fact => fact.1 == name).map Prod.snd

section Shows

variable {content : TypeContent} {r : Ref} {M : Literal} {name : String}

/-- A data object tells the kind of its type. -/
theorem Shows.get?_kind (h : Shows store content (g.stock []) r) (H : g.heap.Renders L R)
    (hM : R r M) : M.get? "kind" = some (.leaf (.number (Double.ofNat content.kind.code))) := by
  obtain ⟨t, position, fields, hcell, ht, _⟩ := h
  rw [cell?_stock_nil] at hcell
  have hget : t.get? "kind" = some (.number (Double.ofNat content.kind.code)) := by
    rw [Table.get?_eq_some_iff, ht]
    exact List.mem_append_left _ List.mem_cons_self
  have hrel := H.get? hM hcell "kind"
  rw [hget] at hrel
  exact Literal.get?_of_rel hrel rfl

/-- Beside the fields of its position a data object has those of its kind. -/
private theorem Shows.exists_found (h : Shows store content (g.stock []) r)
    (H : g.heap.Renders L R) (hM : R r M)
    (hname : name ∉ ["kind", "modifiers", "initializer"]) :
    ∃ found, Option.Rel (fun fact v => fact (g.stock []) v) (fieldFact? store content name) found ∧
      Option.Rel (L.Holds R) (found.filter Value.isDefined) (M.get? name) := by
  obtain ⟨t, position, fields, hcell, ht, hall⟩ := h
  rw [cell?_stock_nil] at hcell
  have hget : t.get? name = (fields.find? fun field => field.1 == name).map Prod.snd := by
    have hheader : (Generation.header content.kind position).find? (fun field => field.1 == name) =
        none := by
      rw [List.find?_eq_none]
      intro field hfield heq
      have hkeys : field.1 ∈ (Generation.header content.kind position).map Prod.fst :=
        List.mem_map_of_mem hfield
      rw [eq_of_beq heq] at hkeys
      exact hname hkeys
    unfold Table.get?
    rw [ht, List.find?_append, hheader, Option.none_or]
  refine ⟨t.get? name, ?_, H.get? hM hcell name⟩
  rw [hget]
  exact rel_find?_of_forall₂ hall name

/-- A field with a container is there exactly if the type has something to put
into it. -/
private theorem Shows.rel_get? {α : Type} {o : Option α}
    {fact : α → Stock → Value Expression → Prop} (h : Shows store content (g.stock []) r)
    (H : g.heap.Renders L R) (hM : R r M)
    (hname : name ∉ ["kind", "modifiers", "initializer"])
    (hfact : fieldFact? store content name = o.map fact)
    (hdefined : ∀ a v, fact a (g.stock []) v → v.isDefined = true) :
    Option.Rel (fun a here => ∃ v, fact a (g.stock []) v ∧ L.Holds R v here) o (M.get? name) := by
  obtain ⟨found, hfound, hrel⟩ := h.exists_found H hM hname
  rw [hfact] at hfound
  cases o with
  | none =>
    cases hfound
    cases hM' : M.get? name with
    | none => exact .none
    | some here =>
      rw [hM'] at hrel
      cases hrel
  | some a =>
    cases hfound with
    | @some _ v hv =>
      rw [Option.filter_some_pos (hdefined a v hv)] at hrel
      obtain ⟨here, hhere, hholds⟩ := exists_of_rel hrel
      rw [hhere]
      exact .some ⟨v, hv, hholds⟩

/-- A field with a scalar holds what is written for it, and is left out if that is
undefined. -/
private theorem Shows.get?_scalar {o : Option (Value Expression)} {w : Option Literal}
    (h : Shows store content (g.stock []) r) (H : g.heap.Renders L R) (hM : R r M)
    (hname : name ∉ ["kind", "modifiers", "initializer"])
    (hfact : fieldFact? store content name = o.map fun value _ v => v = value)
    (hw : Option.Rel (fun value here => Heap.empty.toLiteralAt 0 0 value = .ok here)
      (o.filter Value.isDefined) w) :
    M.get? name = w := by
  obtain ⟨found, hfound, hrel⟩ := h.exists_found H hM hname
  obtain rfl : found = o := by
    rw [hfact] at hfound
    cases o with
    | none =>
      cases hfound
      rfl
    | some value =>
      cases hfound with
      | some hv => rw [hv]
  generalize found.filter Value.isDefined = written at hrel hw
  cases hw with
  | none =>
    cases hM' : M.get? name with
    | none => rfl
    | some here =>
      rw [hM'] at hrel
      cases hrel
  | some hwritten => exact Literal.get?_of_rel hrel hwritten

end Shows

/-! ## One lemma a field -/

section Facts

variable (store : Store) (content : TypeContent)

private theorem fieldFact?_classType_eq_none (content : ClassContent) {name : String}
    (hname : name ∉ ["name", "properties", "constructors", "extends"]) :
    fieldFact? store (.classType content) name = none := by
  have hnone :
      (fieldFacts store (.classType content)).find? (fun fact => fact.1 == name) = none := by
    rw [List.find?_eq_none]
    intro fact hfact heq
    rw [← eq_of_beq heq] at hname
    refine hname ?_
    simp only [fieldFacts, List.mem_append, List.mem_cons, List.not_mem_nil, or_false,
      List.mem_map] at hfact
    rcases hfact with (rfl | rfl | rfl) | ⟨base, _, rfl⟩ <;> simp
  unfold fieldFact?
  rw [hnone]
  rfl

private theorem fieldFact?_properties :
    fieldFact? store content "properties" = content.properties?.map (ShowsProperties store) := by
  cases content <;> simp [fieldFact?, fieldFacts, TypeContent.properties?]

private theorem fieldFact?_constructors :
    fieldFact? store content "constructors" =
      content.constructors?.map (Lists (ShowsConstructor store)) := by
  cases content <;> simp [fieldFact?, fieldFacts, TypeContent.constructors?]

private theorem fieldFact?_elementTypes :
    fieldFact? store content "elementTypes" = content.elements?.map (Lists (HandedOut store)) := by
  cases content with
  | classType content => exact fieldFact?_classType_eq_none store content (by simp)
  | _ => simp [fieldFact?, fieldFacts, TypeContent.elements?]

private theorem fieldFact?_types :
    fieldFact? store content "types" = content.members?.map (Lists (HandedOut store)) := by
  cases content with
  | classType content => exact fieldFact?_classType_eq_none store content (by simp)
  | _ => simp [fieldFact?, fieldFacts, TypeContent.members?]

private theorem fieldFact?_arguments :
    fieldFact? store content "arguments" = content.arguments?.map (Lists (HandedOut store)) := by
  cases content with
  | classType content => exact fieldFact?_classType_eq_none store content (by simp)
  | _ => simp [fieldFact?, fieldFacts, TypeContent.arguments?]

private theorem fieldFact?_extends :
    fieldFact? store content "extends" = content.base?.map (HandedOut store) := by
  cases content with
  | classType content =>
    cases hbase : content.base <;> simp [fieldFact?, fieldFacts, TypeContent.base?, hbase]
  | _ => simp [fieldFact?, fieldFacts, TypeContent.base?]

end Facts

section Fields

variable {content : TypeContent} {r : Ref} {M : Literal}

theorem Shows.get?_name (h : Shows store content (g.stock []) r) (H : g.heap.Renders L R)
    (hM : R r M) : M.get? "name" = content.name?.map fun s => .leaf (.string s) := by
  have hname : "name" ∉ ["kind", "modifiers", "initializer"] := by simp
  cases content with
  | object name members =>
    refine h.get?_scalar H hM hname (o := some (name.elim .undefined .string)) rfl ?_
    cases name with
    | none => exact .none
    | some s => exact .some rfl
  | classType content =>
    exact h.get?_scalar H hM hname (o := some (.string content.name)) rfl (.some rfl)
  | _ => exact h.get?_scalar H hM hname (o := none) rfl .none

theorem Shows.get?_value (h : Shows store content (g.stock []) r) (H : g.heap.Renders L R)
    (hM : R r M) : M.get? "value" = content.value?.map .leaf := by
  have hname : "value" ∉ ["kind", "modifiers", "initializer"] := by simp
  cases content with
  | stringLiteral value =>
    exact h.get?_scalar H hM hname (o := some (.string value)) rfl (.some rfl)
  | numberLiteral value =>
    exact h.get?_scalar H hM hname (o := some (.number value)) rfl (.some rfl)
  | classType content =>
    exact h.get?_scalar H hM hname (o := none)
      (fieldFact?_classType_eq_none store content (by simp)) .none
  | _ => exact h.get?_scalar H hM hname (o := none) (by simp [fieldFact?, fieldFacts]) .none

theorem Shows.get?_type (h : Shows store content (g.stock []) r) (H : g.heap.Renders L R)
    (hM : R r M) : M.get? "type" = content.reference?.map fun e => .leaf (.verbatim e) := by
  have hname : "type" ∉ ["kind", "modifiers", "initializer"] := by simp
  cases content with
  | reference e arguments =>
    exact h.get?_scalar H hM hname (o := some (Generation.verbatim e)) rfl (.some rfl)
  | classType content =>
    exact h.get?_scalar H hM hname (o := none)
      (fieldFact?_classType_eq_none store content (by simp)) .none
  | _ => exact h.get?_scalar H hM hname (o := none) (by simp [fieldFact?, fieldFacts]) .none

/-- What a data object that shows a type is rendered as describes the type. -/
theorem Shows.describes (h : Shows store content (g.stock []) r) (H : g.heap.Renders L R)
    (hM : R r M) : L.Describes content M where
  kind := h.get?_kind H hM
  name := h.get?_name H hM
  value := h.get?_value H hM
  type := h.get?_type H hM
  properties := rel_imp
    (h.rel_get? H hM (by simp) (fieldFact?_properties store content) fun _ _ hv => hv.isDefined)
    fun _ _ ⟨_, hv, hhere⟩ => hv.hasNames H hhere
  constructors := rel_imp
    (h.rel_get? H hM (by simp) (fieldFact?_constructors store content) fun _ _ hv => hv.isDefined)
    fun _ _ ⟨_, hv, hhere⟩ =>
      (hv.hasItems H hhere).imp fun _ _ ⟨_, hu, hitem⟩ => hu.describes H hitem
  elements := rel_imp
    (h.rel_get? H hM (by simp) (fieldFact?_elementTypes store content) fun _ _ hv => hv.isDefined)
    fun _ _ ⟨_, hv, hhere⟩ => hv.isThere H hhere
  members := rel_imp
    (h.rel_get? H hM (by simp) (fieldFact?_types store content) fun _ _ hv => hv.isDefined)
    fun _ _ ⟨_, hv, hhere⟩ => hv.isThere H hhere
  arguments := rel_imp
    (h.rel_get? H hM (by simp) (fieldFact?_arguments store content) fun _ _ hv => hv.isDefined)
    fun _ _ ⟨_, hv, hhere⟩ => hv.isThere H hhere
  base := rel_imp
    (h.rel_get? H hM (by simp) (fieldFact?_extends store content) fun _ _ hv => hv.isDefined)
    fun _ _ ⟨_, hv, hhere⟩ => hv.isThere hhere

/-! ## Steps -/

/-- The steps to a type in a list lead to what depicts it. -/
private theorem Shows.exists_chase_list {o : Option (List NodeRef)} {key : String} {i : Nat}
    {m : NodeRef} (h : Shows store content (g.stock []) r) (H : g.heap.Renders L R) (hM : R r M)
    (hkey : key ∉ ["kind", "modifiers", "initializer"])
    (hfact : fieldFact? store content key = o.map (Lists (HandedOut store)))
    (hm : (o.bind fun l => l[i]?) = some m) :
    ∃ M', L.chase M [.key key, .ofIndex i] = some M' ∧ Depicts store g R m M' := by
  obtain ⟨l, rfl, hm⟩ := Option.bind_eq_some_iff.1 hm
  obtain ⟨here, hhere, v, hv, hholds⟩ :=
    exists_of_rel (h.rel_get? H hM hkey hfact fun _ _ hv => hv.isDefined)
  obtain ⟨A, item, hA, ⟨M', hM', hdepicts⟩, hhop⟩ := (hv.depicts H hholds).exists_hop hm
  refine ⟨M', ?_, hdepicts⟩
  rw [Literal.chase_cons (Literal.hop_key hhere hA), Literal.chase_cons (hhop M' hM')]
  rfl

/-- A step into a type leads to what depicts the type inside. -/
theorem Shows.exists_child {step : ChildStep} {m : NodeRef}
    (h : Shows store content (g.stock []) r) (H : g.heap.Renders L R) (hM : R r M)
    (hm : content.child? step = some m) :
    ∃ M', L.chase M step.route = some M' ∧ Depicts store g R m M' := by
  cases step with
  | property name =>
    obtain ⟨member, hmember, rfl⟩ := Option.map_eq_some_iff.1 hm
    have hproperties := fieldFact?_properties store content
    rw [TypeContent.properties?_of_property? hmember] at hproperties
    obtain ⟨here, hhere, v, hv, hholds⟩ :=
      exists_of_rel (h.rel_get? H hM (by simp) hproperties fun _ _ hv => hv.isDefined)
    obtain ⟨P, field, M', hP, hfield, hM', hdepicts⟩ := hv.exists_field H hholds hmember
    refine ⟨M', ?_, hdepicts⟩
    show L.chase M [.key "properties", .key name] = some M'
    rw [Literal.chase_cons (Literal.hop_key hhere hP),
      Literal.chase_cons (Literal.hop_key hfield hM')]
    rfl
  | parameter i j =>
    obtain ⟨l, hl, hm⟩ := Option.bind_eq_some_iff.1 hm
    obtain ⟨c, hc, hm⟩ := Option.bind_eq_some_iff.1 hm
    obtain ⟨p, hp, hm⟩ := Option.bind_eq_some_iff.1 hm
    obtain rfl := Option.some.inj hm
    have hconstructors := fieldFact?_constructors store content
    rw [hl] at hconstructors
    obtain ⟨here, hhere, v, hv, hholds⟩ :=
      exists_of_rel (h.rel_get? H hM (by simp) hconstructors fun _ _ hv => hv.isDefined)
    obtain ⟨A, item, hA, ⟨u, hu, hitem⟩, hhop⟩ := (hv.hasItems H hholds).exists_hop hc
    obtain ⟨C, M', hC, hchase, hdepicts⟩ := hu.exists_chase H hitem hp
    refine ⟨M', ?_, hdepicts⟩
    show L.chase M [.key "constructors", .ofIndex i, .key "parameters", .ofIndex j, .key "type"] =
      some M'
    rw [Literal.chase_cons (Literal.hop_key hhere hA), Literal.chase_cons (hhop C hC), hchase]
  | element i => exact h.exists_chase_list H hM (by simp) (fieldFact?_elementTypes store content) hm
  | member i => exact h.exists_chase_list H hM (by simp) (fieldFact?_types store content) hm
  | argument i => exact h.exists_chase_list H hM (by simp) (fieldFact?_arguments store content) hm
  | base =>
    have hbase := fieldFact?_extends store content
    have hm : content.base? = some m := hm
    rw [hm] at hbase
    obtain ⟨here, hhere, v, hv, hholds⟩ :=
      exists_of_rel (h.rel_get? H hM (by simp) hbase fun _ _ hv => hv.isDefined)
    obtain ⟨M', hM', hdepicts⟩ := hv.depicts hholds
    refine ⟨M', ?_, hdepicts⟩
    show L.chase M [.key "extends"] = some M'
    rw [Literal.chase_cons (Literal.hop_key hhere hM')]
    rfl

end Fields

end Reading

end TypeDescription
