import TypeDescription.Proofs.Reflected.Matching

/-!
# Outlines of types

What a type is, the host and the scope alone say: the walk only puts the nodes in.
`TypeHost.outline?` is the type with the types that it contains in place of their
nodes, if the host has all that the walk asks for.

`describes_content` is the connection to the walk: to describe a type is to walk the
types of its outline in order, to join them if it is a union, and to build the type
from the nodes.  Only the report may differ.
-/

namespace TypeDescription

variable {τ σ : Type}

/-- A type with the types that it contains in place of their nodes. -/
inductive Outline (τ σ : Type) where
  | leaf (content : TypeContent) (childless : content.children = [])
  | tuple (elements : List τ)
  | union (members : List τ)
  | reference (name : Expression) (arguments : List τ)
  /-- A generic type that has no value.  Its arguments are walked and left out. -/
  | declared (name : String) (arguments : List τ)
  /-- An object by the symbols of its properties and their types. -/
  | object (name : Option String) (properties : List (σ × τ))

namespace Outline

/-- The types that are walked, in order. -/
def types : Outline τ σ → List τ
  | leaf _ _ => []
  | tuple elements => elements
  | union members => members
  | reference _ arguments => arguments
  | declared _ arguments => arguments
  | object _ properties => properties.map Prod.snd

/-- A property whose type has a node. -/
def property (host : TypeHost τ σ) (symbol : σ) (node : NodeRef) : Member where
  name := host.propertyName symbol
  modifiers := host.modifiers symbol
  type := node
  initializer := (host.initializer? symbol).map .deferred

/-- The type itself, given the nodes of its types. -/
def build (host : TypeHost τ σ) : Outline τ σ → List NodeRef → TypeContent
  | leaf content _, _ => content
  | tuple _, nodes => .tuple nodes
  | union _, nodes => .union nodes
  | reference name _, nodes => .reference name nodes
  | declared name _, _ => .object (some name) []
  | object name properties, nodes =>
      .object name (properties.zipWith (fun entry node => property host entry.1 node) nodes)

/-- The nodes as they are put in, and the store after that: those of a union are
joined. -/
def joined (s : Store) (nodes : List NodeRef) : Outline τ σ → List NodeRef × Store
  | union _ => s.normalizeUnion nodes
  | _ => (nodes, s)

/-- The kind of the type, whatever its nodes. -/
def kind (host : TypeHost τ σ) (o : Outline τ σ) : TypeKind :=
  (o.build host []).kind

theorem kind_build (host : TypeHost τ σ) (o : Outline τ σ) (nodes : List NodeRef) :
    (o.build host nodes).kind = o.kind host := by
  cases o <;> rfl

/-- Nothing is walked for a type of the boolean family. -/
theorem types_of_boolean {host : TypeHost τ σ} {o : Outline τ σ}
    (h : (o.kind host).isBooleanLike = true) : ∃ content childless, o = leaf content childless := by
  cases o with
  | leaf content childless => exact ⟨content, childless, rfl⟩
  | _ => cases h

private theorem alike_properties {R : NodeRef → NodeRef → Prop} (host : TypeHost τ σ)
    (properties : List (σ × τ)) {nodes nodes' : List NodeRef} (h : List.Forall₂ R nodes nodes') :
    List.Forall₂ (Member.Alike R)
      (properties.zipWith (fun entry node => property host entry.1 node) nodes)
      (properties.zipWith (fun entry node => property host entry.1 node) nodes') := by
  induction h generalizing properties with
  | nil =>
    rw [List.zipWith_nil_right]
    exact .nil
  | cons hn _ ih =>
    cases properties with
    | nil => exact .nil
    | cons entry rest => exact .cons ⟨rfl, rfl, rfl, hn⟩ (ih rest)

/-- From related nodes the same type is built, but for these nodes. -/
theorem alike_build {R : NodeRef → NodeRef → Prop} (host : TypeHost τ σ) (o : Outline τ σ)
    {nodes nodes' : List NodeRef} (h : List.Forall₂ R nodes nodes') :
    (o.build host nodes).Alike R (o.build host nodes') := by
  cases o with
  | leaf content childless => exact .leaf childless
  | tuple elements => exact .tuple h
  | union members => exact .union h
  | reference name arguments => exact .reference name h
  | declared name arguments => exact .object _ .nil
  | object name properties => exact .object name (alike_properties host properties h)

/-- Only the given nodes are put in. -/
theorem mem_of_mem_children {host : TypeHost τ σ} {o : Outline τ σ} {nodes : List NodeRef}
    {n : NodeRef} (h : n ∈ (o.build host nodes).children) : n ∈ nodes := by
  cases o with
  | leaf content childless =>
    rw [build, childless] at h
    cases h
  | tuple elements => exact h
  | union members => exact h
  | reference name arguments => exact h
  | declared name arguments => cases h
  | object name properties =>
    obtain ⟨member, hmember, rfl⟩ := List.mem_map.1 h
    obtain ⟨i, hi, rfl⟩ := List.mem_iff_getElem.1 hmember
    rw [List.getElem_zipWith]
    exact List.getElem_mem _

/-- Joining adds at most a `boolean`, to a union. -/
theorem joined_cases (o : Outline τ σ) (s : Store) (nodes : List NodeRef) :
    (∃ all, o.joined s nodes = (all, s) ∧ ∀ n ∈ all, n ∈ nodes) ∨
      ∃ all, o.joined s nodes = (all, (s.add ⟨.synthetic, some .boolean⟩).2) ∧
        ∀ n ∈ all, n ∈ nodes ∨ n = s.size := by
  cases o with
  | union members => exact s.normalizeUnion_cases nodes
  | _ => exact .inl ⟨nodes, rfl, fun _ h => h⟩

/-- Related nodes are joined alike. -/
theorem joined_related {s s' : Store} {R : NodeRef → NodeRef → Prop} (host : TypeHost τ σ)
    (o : Outline τ σ) {nodes nodes' : List NodeRef}
    (h : List.Forall₂ (s.AgreeAlong s' R) nodes nodes') :
    (∃ all all', List.Forall₂ R all all' ∧ o.joined s nodes = (all, s) ∧
        o.joined s' nodes' = (all', s')) ∨
      (∀ all, o.build host all = .union all) ∧
        ∃ others others', List.Forall₂ R others others' ∧
          o.joined s nodes = (others ++ [s.size], (s.add ⟨.synthetic, some .boolean⟩).2) ∧
          o.joined s' nodes' =
            (others' ++ [s'.size], (s'.add ⟨.synthetic, some .boolean⟩).2) := by
  cases o with
  | union members => exact (Store.normalizeUnion_related h).imp_right fun h => ⟨fun _ => rfl, h⟩
  | _ => exact .inl ⟨nodes, nodes', h.imp fun _ _ hn => hn.1, rfl, rfl⟩

end Outline

/-! ## What the host says -/

namespace TypeHost

/-- The identifier of a declaration, if the host tells its symbol. -/
def identifier? (host : TypeHost τ σ) (scope : UInt32) (type : τ) : Option Expression :=
  (host.symbol? type).map fun symbol =>
    .identifier ((host.referenceName? type).getD (host.symbolName symbol)) scope

/-- The outline of a generic type with its arguments. -/
def referenceOutline? (host : TypeHost τ σ) (scope : UInt32) (type : τ) : Option (Outline τ σ) :=
  (host.referenceTarget? type).bind fun target =>
    if (host.objectFlags target).contains .tuple then
      some (.tuple (host.typeArguments type))
    else
      (host.symbol? target).bind fun symbol =>
        if host.hasValueDeclaration symbol then
          (host.identifier? scope target).map fun name =>
            .reference name (host.typeArguments type)
        else
          some (.declared (host.symbolName symbol) (host.typeArguments type))

/-- A property with its type, if the host tells it. -/
def typedProperty? (host : TypeHost τ σ) (symbol : σ) : Option (σ × τ) :=
  (host.typeOfSymbol? symbol).map fun type => (symbol, type)

/-- The outline of an object type. -/
def objectOutline? (host : TypeHost τ σ) (scope : UInt32) (type : τ) : Option (Outline τ σ) :=
  if (host.objectFlags type).contains .reference then
    host.referenceOutline? scope type
  else
    (host.symbol? type).bind fun symbol =>
      if (host.symbolFlags symbol).contains .method then
        some (.leaf .function rfl)
      else if host.hasValueDeclaration symbol then
        (host.identifier? scope type).map fun name => .reference name []
      else if 0 < host.callSignatureCount type then
        some (.leaf .function rfl)
      else
        let name :=
          if (host.objectFlags type).contains .anonymous then none
          else some (host.symbolName symbol)
        ((host.properties type).mapM host.typedProperty?).map (.object name)

/-- The outline of a type, unless the host lacks something that it needs. -/
def outline? (host : TypeHost τ σ) (scope : UInt32) (type : τ) : Option (Outline τ σ) :=
  let flags := host.typeFlags type
  if flags.contains .any then some (.leaf .any rfl)
  else if flags.contains .string then some (.leaf .string rfl)
  else if flags.contains .number then some (.leaf .number rfl)
  else if flags.contains .boolean then some (.leaf .boolean rfl)
  else if flags.contains .booleanLiteral then
    match host.booleanLiteral? type with
    | some true => some (.leaf .trueLiteral rfl)
    | some false => some (.leaf .falseLiteral rfl)
    | none => some (.leaf .unsupported rfl)
  else if flags.contains .esSymbol then some (.leaf .esSymbol rfl)
  else if flags.contains .void then some (.leaf .void rfl)
  else if flags.contains .undefined then some (.leaf .undefined rfl)
  else if flags.contains .null then some (.leaf .null rfl)
  else if flags.contains .never then some (.leaf .never rfl)
  else if flags.contains .unknown then some (.leaf .unknown rfl)
  else if flags.contains .object then host.objectOutline? scope type
  else if flags.contains .union then some (.union (host.unionMembers type))
  else some (.leaf .unsupported rfl)

/-- The kind of a type, if it is one of the boolean family, whatever the scope.  Literal
strings and numbers are none, whatever their flags. -/
def booleanKind? (host : TypeHost τ σ) (type : τ) : Option TypeKind :=
  if (host.typeFlags type).isPerPosition then none
  else ((host.outline? 0 type).map (Outline.kind host)).filter TypeKind.isBooleanLike

section Kind

variable {host : TypeHost τ σ} (scope scope' : UInt32) {type : τ}

private theorem kind_identifier (arguments : List τ) :
    ((host.identifier? scope type).map fun name => .reference name arguments).map
        (Outline.kind host) =
      ((host.identifier? scope' type).map fun name => .reference name arguments).map
        (Outline.kind host) := by
  simp only [identifier?, Option.map_map]
  rfl

private theorem kind_referenceOutline? :
    (host.referenceOutline? scope type).map (Outline.kind host) =
      (host.referenceOutline? scope' type).map (Outline.kind host) := by
  unfold referenceOutline?
  simp only [Option.map_bind, Function.comp_def, apply_ite (Option.map (Outline.kind host)),
    kind_identifier scope scope']

private theorem kind_objectOutline? :
    (host.objectOutline? scope type).map (Outline.kind host) =
      (host.objectOutline? scope' type).map (Outline.kind host) := by
  unfold objectOutline?
  simp only [Option.map_bind, Function.comp_def, apply_ite (Option.map (Outline.kind host)),
    kind_referenceOutline? scope scope',
    kind_identifier scope scope']

/-- The kind of a type does not depend on the scope. -/
theorem kind_outline? :
    (host.outline? scope type).map (Outline.kind host) =
      (host.outline? scope' type).map (Outline.kind host) := by
  unfold outline?
  simp only [apply_ite (Option.map (Outline.kind host)),
    kind_objectOutline? scope scope']

/-- In every scope a type has its outline of the kind that it has. -/
theorem booleanKind?_eq {o : Outline τ σ} {scope : UInt32}
    (hflags : ¬ (host.typeFlags type).isPerPosition = true)
    (ho : host.outline? scope type = some o) :
    host.booleanKind? type = (some (o.kind host)).filter TypeKind.isBooleanLike := by
  rw [booleanKind?, if_neg hflags, kind_outline? 0 scope, ho]
  rfl

end Kind

end TypeHost

/-! ## What the walk does -/

namespace Reflection

variable {α β : Type} {s : Reflecting σ} {r : Reflector}

/-- A step succeeds and leaves a reflector, whatever it reports. -/
def Gives (step : Reflection σ α) (s : Reflecting σ) (a : α) (r : Reflector) : Prop :=
  ∃ report, step.run.run s = (.ok a, ⟨r, report⟩)

theorem gives_bind_iff {step : Reflection σ α} {next : α → Reflection σ β} {b : β} :
    Gives (step >>= next) s b r ↔
      ∃ a u, step.run.run s = (.ok a, u) ∧ Gives (next a) u b r := by
  constructor
  · rintro ⟨report, hrun⟩
    obtain ⟨a, u, hstep, hnext⟩ := ok_of_run_bind hrun
    exact ⟨a, u, hstep, report, hnext⟩
  · rintro ⟨a, u, hstep, report, hnext⟩
    exact ⟨report, (run_bind_of_ok hstep).trans hnext⟩

theorem gives_pure_iff {a b : α} :
    Gives (pure a : Reflection σ α) s b r ↔ b = a ∧ r = s.reflector := by
  constructor
  · rintro ⟨report, hrun⟩
    cases hrun
    exact ⟨rfl, rfl⟩
  · rintro ⟨rfl, rfl⟩
    exact ⟨s.report, rfl⟩

theorem gives_require_iff {what : HostDatum} {id : TypeId} {datum : Option α}
    {next : α → Reflection σ β} {b : β} :
    Gives (require what id datum >>= next) s b r ↔ ∃ a, datum = some a ∧ Gives (next a) s b r := by
  rw [gives_bind_iff]
  cases datum with
  | none =>
    constructor
    · rintro ⟨a, u, hrun, _⟩
      cases hrun
    · rintro ⟨a, ha, _⟩
      cases ha
  | some a =>
    constructor
    · rintro ⟨a', u, hrun, h⟩
      cases hrun
      exact ⟨a, rfl, h⟩
    · rintro ⟨a', ha, h⟩
      obtain rfl := Option.some.inj ha
      exact ⟨a, s, rfl, h⟩

theorem gives_unsupported_iff {host : TypeHost τ σ} {request : Request} {type : τ}
    {content : TypeContent} :
    Gives (unsupported host request type) s content r ↔
      content = .unsupported ∧ r = s.reflector := by
  constructor
  · rintro ⟨report, hrun⟩
    cases hrun
    exact ⟨rfl, rfl⟩
  · rintro ⟨rfl, rfl⟩
    exact ⟨_, rfl⟩

/-- An identifier depends on the scope only. -/
theorem gives_identifierFor_iff {host : TypeHost τ σ} {request : Request} {type : τ} {id : TypeId}
    {name : Expression} :
    Gives (identifierFor host request type id) s name r ↔
      host.identifier? request.scope type = some name ∧ r = s.reflector := by
  unfold identifierFor TypeHost.identifier?
  rw [gives_require_iff]
  cases host.symbol? type with
  | none => simp
  | some symbol =>
    simp only [Option.some.injEq, exists_eq_left', Option.map_some]
    cases host.referenceName? type with
    | none => simp [gives_pure_iff, eq_comm]
    | some written =>
      constructor
      · rintro ⟨report, hrun⟩
        cases hrun
        exact ⟨rfl, rfl⟩
      · rintro ⟨rfl, rfl⟩
        exact ⟨_, rfl⟩

theorem gives_named_iff {host : TypeHost τ σ} {request : Request} {type : τ} {id : TypeId}
    {g : Expression → α} {a : α} :
    Gives (identifierFor host request type id >>= fun name => pure (g name)) s a r ↔
      ∃ name, host.identifier? request.scope type = some name ∧ a = g name ∧ r = s.reflector := by
  rw [gives_bind_iff]
  constructor
  · rintro ⟨name, u, hrun, h⟩
    obtain ⟨ha, hr⟩ := gives_pure_iff.1 h
    obtain ⟨hname, hu⟩ := gives_identifierFor_iff.1 ⟨u.report, hrun⟩
    exact ⟨name, hname, ha, hr.trans hu⟩
  · rintro ⟨name, hname, ha, hr⟩
    obtain ⟨report, hrun⟩ := gives_identifierFor_iff.2 ⟨hname, rfl⟩
    exact ⟨name, _, hrun, gives_pure_iff.2 ⟨ha, hr⟩⟩

end Reflection

/-- The walk of an outline: its types in order, then the type itself. -/
def Outline.Walked (host : TypeHost τ σ) (child : τ → Reflection σ NodeRef) (o : Outline τ σ)
    (s : Reflecting σ) (content : TypeContent) (r : Reflector) : Prop :=
  ∃ nodes u, (o.types.mapM child).run.run s = (.ok nodes, u) ∧
    content = o.build host (o.joined u.reflector.store nodes).1 ∧
      r = { u.reflector with store := (o.joined u.reflector.store nodes).2 }

namespace Reflection

/-- A description succeeds where the walk of an outline does, and there is one. -/
def Describes (host : TypeHost τ σ) (child : τ → Reflection σ NodeRef)
    (outline? : Option (Outline τ σ)) (step : Reflection σ TypeContent) : Prop :=
  ∀ s content r, Gives step s content r ↔
    ∃ o, outline? = some o ∧ o.Walked host child s content r

section Describes

variable {host : TypeHost τ σ} {request : Request} {child : τ → Reflection σ NodeRef}
  {s : Reflecting σ} {id : TypeId} {type : τ}

/-! ### Single steps -/

private theorem describes_some {o : Outline τ σ} {step : Reflection σ TypeContent}
    (h : ∀ s content r, Gives step s content r ↔ o.Walked host child s content r) :
    Describes host child (some o) step := by
  intro s content r
  rw [h]
  simp

/-- Nothing is walked for a leaf. -/
private theorem walked_leaf_iff {leaf content : TypeContent} {r : Reflector}
    {childless : leaf.children = []} :
    (Outline.leaf leaf childless : Outline τ σ).Walked host child s content r ↔
      content = leaf ∧ r = s.reflector := by
  constructor
  · rintro ⟨nodes, u, hrun, hcontent, hr⟩
    cases hrun
    exact ⟨hcontent, hr⟩
  · rintro ⟨rfl, rfl⟩
    exact ⟨[], s, rfl, rfl, rfl⟩

private theorem describes_leaf {content : TypeContent} (childless : content.children = []) :
    Describes host child (some (.leaf content childless)) (pure content) :=
  describes_some fun _ _ _ => gives_pure_iff.trans walked_leaf_iff.symm

private theorem describes_unsupported :
    Describes host child (some (.leaf .unsupported rfl)) (unsupported host request type) :=
  describes_some fun _ _ _ => gives_unsupported_iff.trans walked_leaf_iff.symm

private theorem describes_ite {c : Prop} [Decidable c] {o? o?' : Option (Outline τ σ)}
    {step step' : Reflection σ TypeContent} (h : Describes host child o? step)
    (h' : Describes host child o?' step') :
    Describes host child (if c then o? else o?') (if c then step else step') := by
  split
  · exact h
  · exact h'

private theorem describes_require {α : Type} {what : HostDatum} {datum : Option α}
    {next : α → Reflection σ TypeContent} {o? : α → Option (Outline τ σ)}
    (h : ∀ a, Describes host child (o? a) (next a)) :
    Describes host child (datum.bind o?) (require what id datum >>= next) := by
  intro s content r
  rw [gives_require_iff]
  cases datum with
  | none => simp
  | some a => simp [h a s content r]

/-- When its types were walked, a type is concluded from their nodes. -/
private theorem describes_walked {types : List τ} {o? : Option (Outline τ σ)}
    {next : List NodeRef → Reflection σ TypeContent}
    (hplain : ∀ o, o? = some o → o.types = types ∧ ∀ s nodes, o.joined s nodes = (nodes, s))
    (hnext : ∀ nodes u content r, Gives (next nodes) u content r ↔
      ∃ o, o? = some o ∧ content = o.build host nodes ∧ r = u.reflector) :
    Describes host child o? (types.mapM child >>= next) := by
  intro s content r
  rw [gives_bind_iff]
  constructor
  · rintro ⟨nodes, u, hrun, hgives⟩
    obtain ⟨o, ho, rfl, rfl⟩ := (hnext _ _ _ _).1 hgives
    obtain ⟨rfl, hjoined⟩ := hplain o ho
    exact ⟨o, ho, nodes, u, hrun, by rw [hjoined], by rw [hjoined]⟩
  · rintro ⟨o, ho, nodes, u, hrun, rfl, rfl⟩
    obtain ⟨rfl, hjoined⟩ := hplain o ho
    refine ⟨nodes, u, hrun, (hnext _ _ _ _).2 ⟨o, ho, by rw [hjoined], by rw [hjoined]⟩⟩

/-! ### Objects -/

/-- A property succeeds if the host tells its type and the walk of that succeeds. -/
private theorem run_property_iff {owner : TypeId} {symbol : σ} {u : Reflecting σ}
    {member : Member} :
    (property host child owner symbol).run.run s = (.ok member, u) ↔
      ∃ type node, host.typeOfSymbol? symbol = some type ∧
        (child type).run.run s = (.ok node, u) ∧ member = Outline.property host symbol node := by
  unfold property
  cases host.typeOfSymbol? symbol with
  | none =>
    constructor
    · intro hrun
      cases hrun
    · rintro ⟨type, node, htype, _⟩
      cases htype
  | some type =>
    have hrequire : (require .propertyType owner (some type) : Reflection σ τ).run.run s =
      (.ok type, s) := rfl
    rw [run_bind_of_ok hrequire]
    constructor
    · intro hrun
      obtain ⟨node, v, hnode, hrun⟩ := ok_of_run_bind hrun
      cases hrun
      exact ⟨type, node, rfl, hnode, rfl⟩
    · rintro ⟨type', node, htype, hnode, rfl⟩
      obtain rfl := Option.some.inj htype
      exact run_bind_of_ok hnode

/-- The properties of an object are walked by walking their types. -/
private theorem run_properties_iff {owner : TypeId} {symbols : List σ} {u : Reflecting σ}
    {members : List Member} :
    (symbols.mapM (property host child owner)).run.run s = (.ok members, u) ↔
      ∃ entries nodes, symbols.mapM host.typedProperty? = some entries ∧
        ((entries.map Prod.snd).mapM child).run.run s = (.ok nodes, u) ∧
          members =
            entries.zipWith (fun entry node => Outline.property host entry.1 node) nodes := by
  induction symbols generalizing s members with
  | nil =>
    constructor
    · intro hrun
      cases hrun
      exact ⟨[], [], rfl, rfl, rfl⟩
    · rintro ⟨entries, nodes, hentries, hrun, rfl⟩
      cases hentries
      cases hrun
      rfl
  | cons symbol symbols ih =>
    rw [List.mapM_cons, List.mapM_cons]
    constructor
    · intro hrun
      obtain ⟨member, v, hmember, hrun⟩ := ok_of_run_bind hrun
      obtain ⟨rest, w, hrest, hrun⟩ := ok_of_run_bind hrun
      cases hrun
      obtain ⟨type, node, htype, hnode, rfl⟩ := run_property_iff.1 hmember
      obtain ⟨entries, nodes, hentries, hnodes, rfl⟩ := ih.1 hrest
      refine ⟨(symbol, type) :: entries, node :: nodes, ?_, ?_, rfl⟩
      · simp [TypeHost.typedProperty?, htype, hentries]
      · rw [List.map_cons, List.mapM_cons, run_bind_of_ok hnode, run_bind_of_ok hnodes]
        rfl
    · rintro ⟨entries, nodes, hentries, hrun, rfl⟩
      obtain ⟨entry, hentry, hentries⟩ := Option.bind_eq_some_iff.1 hentries
      obtain ⟨rest, hrest, hentries⟩ := Option.bind_eq_some_iff.1 hentries
      obtain rfl := Option.some.inj hentries
      obtain ⟨type, htype, rfl⟩ := Option.map_eq_some_iff.1 hentry
      rw [List.map_cons, List.mapM_cons] at hrun
      obtain ⟨node, v, hnode, hrun⟩ := ok_of_run_bind hrun
      obtain ⟨nodes, w, hnodes, hrun⟩ := ok_of_run_bind hrun
      cases hrun
      rw [run_bind_of_ok (run_property_iff.2 ⟨type, node, htype, hnode, rfl⟩),
        run_bind_of_ok (ih.2 ⟨rest, nodes, hrest, hnodes, rfl⟩)]
      rfl

theorem describes_referenceContent :
    Describes host child (host.referenceOutline? request.scope type)
      (referenceContent host request child type id) := by
  unfold referenceContent TypeHost.referenceOutline?
  refine describes_walked (fun o ho => ?_) fun nodes u content r => ?_
  · obtain ⟨target, _, ho⟩ := Option.bind_eq_some_iff.1 ho
    split at ho
    · cases ho
      exact ⟨rfl, fun _ _ => rfl⟩
    · obtain ⟨symbol, _, ho⟩ := Option.bind_eq_some_iff.1 ho
      split at ho
      · obtain ⟨name, _, rfl⟩ := Option.map_eq_some_iff.1 ho
        exact ⟨rfl, fun _ _ => rfl⟩
      · cases ho
        exact ⟨rfl, fun _ _ => rfl⟩
  · rw [gives_require_iff]
    cases host.referenceTarget? type with
    | none => simp
    | some target =>
      simp only [Option.some.injEq, exists_eq_left', Option.bind_some]
      split
      · simp [gives_pure_iff, Outline.build]
      · rw [gives_require_iff]
        cases host.symbol? target with
        | none => simp
        | some symbol =>
          simp only [Option.some.injEq, exists_eq_left', Option.bind_some]
          split
          · rw [gives_named_iff]
            simp [Outline.build]
          · simp [gives_pure_iff, Outline.build]

theorem describes_objectContent :
    Describes host child (host.objectOutline? request.scope type)
      (objectContent host request child type id) := by
  refine describes_ite describes_referenceContent (describes_require fun symbol => ?_)
  refine describes_ite (describes_leaf rfl)
    (describes_ite ?_ (describes_ite (describes_leaf rfl) ?_))
  · intro s content r
    rw [gives_named_iff]
    constructor
    · rintro ⟨name, hname, rfl, rfl⟩
      exact ⟨.reference name [], by rw [hname]; rfl, [], s, rfl, rfl, rfl⟩
    · rintro ⟨o, ho, nodes, u, hrun, rfl, rfl⟩
      obtain ⟨name, hname, rfl⟩ := Option.map_eq_some_iff.1 ho
      cases hrun
      exact ⟨name, hname, rfl, rfl⟩
  · intro s content r
    rw [gives_bind_iff]
    constructor
    · rintro ⟨members, u, hrun, hgives⟩
      obtain ⟨entries, nodes, hentries, hnodes, rfl⟩ := run_properties_iff.1 hrun
      obtain ⟨rfl, rfl⟩ := gives_pure_iff.1 hgives
      exact ⟨.object _ entries, by rw [hentries]; rfl, nodes, u, hnodes, rfl, rfl⟩
    · rintro ⟨o, ho, nodes, u, hnodes, rfl, rfl⟩
      obtain ⟨entries, hentries, rfl⟩ := Option.map_eq_some_iff.1 ho
      exact ⟨_, u, run_properties_iff.2 ⟨entries, nodes, hentries, hnodes, rfl⟩,
        gives_pure_iff.2 ⟨rfl, rfl⟩⟩

theorem describes_unionContent :
    Describes host child (some (.union (host.unionMembers type)))
      (unionContent host child type) := by
  refine describes_some fun s content r => ?_
  unfold unionContent
  rw [gives_bind_iff]
  constructor
  · rintro ⟨nodes, u, hnodes, report, hrun⟩
    cases hrun
    exact ⟨nodes, u, hnodes, rfl, rfl⟩
  · rintro ⟨nodes, u, hnodes, rfl, rfl⟩
    exact ⟨nodes, u, hnodes, u.report, rfl⟩

/-- To describe a type is to walk its outline, whatever is reported. -/
theorem describes_content :
    Describes host child (host.outline? request.scope type)
      (Reflection.content host request child type id (host.typeFlags type)) := by
  unfold Reflection.content TypeHost.outline?
  dsimp only
  -- one flag after the other, in the order of the tests
  refine describes_ite (describes_leaf rfl) (describes_ite (describes_leaf rfl) ?_)
  refine describes_ite (describes_leaf rfl) (describes_ite (describes_leaf rfl) ?_)
  refine describes_ite ?_
    (describes_ite (describes_leaf rfl) (describes_ite (describes_leaf rfl) ?_))
  · cases host.booleanLiteral? type with
    | none => exact describes_unsupported
    | some value => cases value <;> exact describes_leaf rfl
  refine describes_ite (describes_leaf rfl) (describes_ite (describes_leaf rfl) ?_)
  refine describes_ite (describes_leaf rfl) (describes_ite (describes_leaf rfl) ?_)
  refine describes_ite describes_objectContent (describes_ite describes_unionContent ?_)
  exact describes_unsupported

end Describes

end Reflection

end TypeDescription
