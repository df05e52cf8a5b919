import TypeDescription.Depth
import TypeDescription.Diagnostic
import TypeDescription.Host
import TypeDescription.Reflected.Union

/-!
# Reflection

A `Reflector` turns the types of a host into nodes.  Its cache holds the node
of every type reflected so far, except literal strings and numbers, which get
a node at each place.  A node is cached as a shell before its children are
reflected, so a type that contains itself ends at its own shell.

* `Reflector.reflectType` reflects any type.
* `Reflector.reflectClass` reflects a declared class with its own properties,
  its constructors and its first base.

A journal lists what the current call has cached.  When the call fails,
`Reflector.settle` takes that back, entry by entry; what the call reported
before it failed stays reported.
-/

namespace TypeDescription

/-! ## Errors -/

/-- What every checked program has and a host may fail to give. -/
inductive HostDatum where
  | symbol
  | referenceTarget
  | propertyType
  | parameterType
deriving DecidableEq

/-- Why reflection failed. -/
inductive ReflectError where
  | missingHostData (what : HostDatum) (id : TypeId)
  /-- The type nests deeper than the limit. -/
  | depthExceeded (limit : UInt32)
deriving DecidableEq

/-- The noun for a missing datum. -/
def HostDatum.noun : HostDatum → String
  | symbol => "symbol"
  | referenceTarget => "reference target"
  | propertyType => "property type"
  | parameterType => "parameter type"

/-- The report of an error. -/
def ReflectError.message : ReflectError → String
  | missingHostData what id => "host has no " ++ what.noun ++ " for type " ++ id.text
  | depthExceeded limit =>
      "type nesting exceeds the maximum reflection depth of " ++ toString limit.toNat

/-! ## State -/

/-- The node cached for each type, no type twice. -/
abbrev Cache : Type :=
  List (TypeId × NodeRef)

/-- A type that was cached, with the node that stood there before. -/
abbrev Registration : Type :=
  TypeId × Option NodeRef

namespace Cache

/-- Cache a node: in the place of another one of the same type, else at the
end. -/
def put (id : TypeId) (node : NodeRef) : Cache → Cache
  | [] => [(id, node)]
  | entry :: rest => if entry.1 = id then (id, node) :: rest else entry :: put id node rest

/-- Forget the node of a type. -/
def remove (id : TypeId) (cache : Cache) : Cache :=
  cache.filter fun entry => entry.1 != id

/-- Take a registration back. -/
def undo (cache : Cache) : Registration → Cache
  | (id, some previous) => cache.put id previous
  | (id, none) => cache.remove id

end Cache

/-- The nodes made so far, which of them are cached, and how deep the current
call is. -/
structure Reflector where
  store : Store
  cache : Cache
  /-- What the current call has cached, the last first. -/
  journal : List Registration
  depth : DepthCounter

/-- What a call asks for besides the type. -/
structure Request where
  /-- The scope of the identifiers in the answer. -/
  scope : UInt32
  /-- The place that warnings are about. -/
  location : Location
deriving Inhabited

/-- What a call reports: warnings, and symbols that the answer refers to. -/
structure Report (σ : Type) where
  warnings : List Warning
  referenced : List σ

/-- No reports. -/
def Report.empty {σ : Type} : Report σ :=
  ⟨[], []⟩

/-- The state of a call. -/
structure Reflecting (σ : Type) where
  reflector : Reflector
  report : Report σ

/-- A step of a call.  A failure keeps the state it happened in. -/
abbrev Reflection (σ α : Type) : Type :=
  ExceptT ReflectError (StateM (Reflecting σ)) α

namespace Reflection

variable {τ σ : Type}

/-- Change the reflector. -/
def update (f : Reflector → Reflector) : Reflection σ Unit :=
  modify fun s => { s with reflector := f s.reflector }

/-- The node cached for a type. -/
def cached? (id : TypeId) : Reflection σ (Option NodeRef) := do
  return (← get).reflector.cache.lookup id

/-- Add a node to the store. -/
def addNode (node : TypeNode) : Reflection σ NodeRef := do
  let s ← get
  let (r, store) := s.reflector.store.add node
  update fun reflector => { reflector with store := store }
  return r

/-- Cache a node, and note in the journal what stood there. -/
def register (id : TypeId) (node : NodeRef) : Reflection σ Unit :=
  update fun reflector =>
    { reflector with
      cache := reflector.cache.put id node
      journal := (id, reflector.cache.lookup id) :: reflector.journal }

/-- Fill a shell. -/
def fill (shell : NodeRef) (content : TypeContent) : Reflection σ Unit :=
  update fun reflector => { reflector with store := reflector.store.fill shell content }

/-- Join the boolean members of a union. -/
def normalizeMembers (members : List NodeRef) : Reflection σ (List NodeRef) := do
  let s ← get
  let (members, store) := s.reflector.store.normalizeUnion members
  update fun reflector => { reflector with store := store }
  return members

/-- Enter a level, unless the limit is reached. -/
def enter : Reflection σ Unit := do
  let s ← get
  let (entered, depth) := s.reflector.depth.enter
  update fun reflector => { reflector with depth := depth }
  if entered then return () else throw (.depthExceeded depth.limit)

/-- Leave a level. -/
def leave : Reflection σ Unit :=
  update fun reflector => { reflector with depth := reflector.depth.leave }

/-- Take a step that may fail, and go on with its outcome. -/
def attempt {α : Type} (step : Reflection σ α) : Reflection σ (Except ReflectError α) :=
  ExceptT.mk (Except.ok <$> step.run)

/-- Make the node of a type one level down.  Its shell is cached before it is
described; the level is left even if that fails. -/
def nested (id : TypeId) (describe : Reflection σ TypeContent) : Reflection σ NodeRef := do
  enter
  let shell ← addNode ⟨id, none⟩
  register id shell
  let outcome ← attempt describe
  leave
  let content ← liftExcept outcome
  fill shell content
  return shell

/-- Change the report. -/
def note (f : Report σ → Report σ) : Reflection σ Unit :=
  modify fun s => { s with report := f s.report }

/-- Report that a symbol is referred to. -/
def markReferenced (symbol : σ) : Reflection σ Unit :=
  note fun report => { report with referenced := report.referenced ++ [symbol] }

/-- Report a type that reflection does not understand. -/
def unsupported (host : TypeHost τ σ) (request : Request) (type : τ) :
    Reflection σ TypeContent := do
  let warning : Warning := ⟨"unknown type, " ++ host.display type, request.location⟩
  note fun report => { report with warnings := report.warnings ++ [warning] }
  return .unsupported

/-- A datum that the host must give. -/
def require {α : Type} (what : HostDatum) (id : TypeId) : Option α → Reflection σ α
  | some a => return a
  | none => throw (.missingHostData what id)

/-! ## Identifiers -/

/-- The identifier of the declaration that a type names.  When the host writes
the type as a reference, the symbol behind it, through an alias, is reported
as referred to. -/
def identifierFor (host : TypeHost τ σ) (request : Request) (type : τ) (id : TypeId) :
    Reflection σ Expression := do
  let symbol ← require .symbol id (host.symbol? type)
  match host.referenceName? type with
  | some name =>
      let target :=
        if (host.symbolFlags symbol).contains .aliasSymbol then
          (host.aliasedSymbol? symbol).getD symbol
        else
          symbol
      markReferenced target
      return .identifier name request.scope
  | none => return .identifier (host.symbolName symbol) request.scope

/-! ## Members -/

/-- Reflect a property. -/
def property (host : TypeHost τ σ) (child : τ → Reflection σ NodeRef) (owner : TypeId)
    (symbol : σ) : Reflection σ Member := do
  let type ← require .propertyType owner (host.typeOfSymbol? symbol)
  let node ← child type
  return {
    name := host.propertyName symbol
    modifiers := host.modifiers symbol
    type := node
    initializer := (host.initializer? symbol).map .deferred }

/-- Reflect a constructor parameter. -/
def parameter (host : TypeHost τ σ) (child : τ → Reflection σ NodeRef) (owner : TypeId)
    (symbol : σ) : Reflection σ Member := do
  let type ← require .parameterType owner (host.typeOfSymbol? symbol)
  let node ← child type
  return {
    name := host.symbolName symbol
    modifiers := host.modifiers symbol
    type := node
    initializer := (host.initializer? symbol).map .deferred }

/-! ## Objects -/

/-- Reflect a generic type with its arguments. -/
def referenceContent (host : TypeHost τ σ) (request : Request)
    (child : τ → Reflection σ NodeRef) (type : τ) (id : TypeId) :
    Reflection σ TypeContent := do
  let arguments ← (host.typeArguments type).mapM child
  let target ← require .referenceTarget id (host.referenceTarget? type)
  if (host.objectFlags target).contains .tuple then
    return .tuple arguments
  else
    let symbol ← require .symbol id (host.symbol? target)
    if host.hasValueDeclaration symbol then
      let name ← identifierFor host request target id
      return .reference name arguments
    else
      return .object (some (host.symbolName symbol)) []

/-- Reflect an object type. -/
def objectContent (host : TypeHost τ σ) (request : Request)
    (child : τ → Reflection σ NodeRef) (type : τ) (id : TypeId) :
    Reflection σ TypeContent := do
  let flags := host.objectFlags type
  if flags.contains .reference then
    referenceContent host request child type id
  else
    let symbol ← require .symbol id (host.symbol? type)
    if (host.symbolFlags symbol).contains .method then
      return .function
    else if host.hasValueDeclaration symbol then
      let name ← identifierFor host request type id
      return .reference name []
    else if 0 < host.callSignatureCount type then
      return .function
    else
      let name := if flags.contains .anonymous then none else some (host.symbolName symbol)
      let properties ← (host.properties type).mapM (property host child id)
      return .object name properties

/-! ## Dispatch -/

/-- What a literal string or number is, if the host tells. -/
def literalContent? (host : TypeHost τ σ) (type : τ) (flags : TypeFlags) : Option TypeContent :=
  if flags.contains .stringLiteral then (host.stringLiteral? type).map .stringLiteral
  else (host.numberLiteral? type).map .numberLiteral

/-- Reflect a literal string or number. -/
def literalContent (host : TypeHost τ σ) (request : Request) (type : τ)
    (flags : TypeFlags) : Reflection σ TypeContent :=
  match literalContent? host type flags with
  | some content => return content
  | none => unsupported host request type

/-- Reflect a union. -/
def unionContent (host : TypeHost τ σ) (child : τ → Reflection σ NodeRef) (type : τ) :
    Reflection σ TypeContent := do
  let members ← (host.unionMembers type).mapM child
  return .union (← normalizeMembers members)

/-- Reflect a type by the first of its flags that is known. -/
def content (host : TypeHost τ σ) (request : Request) (child : τ → Reflection σ NodeRef)
    (type : τ) (id : TypeId) (flags : TypeFlags) : Reflection σ TypeContent :=
  if flags.contains .any then return .any
  else if flags.contains .string then return .string
  else if flags.contains .number then return .number
  else if flags.contains .boolean then return .boolean
  else if flags.contains .booleanLiteral then
    match host.booleanLiteral? type with
    | some true => return .trueLiteral
    | some false => return .falseLiteral
    | none => unsupported host request type
  else if flags.contains .esSymbol then return .esSymbol
  else if flags.contains .void then return .void
  else if flags.contains .undefined then return .undefined
  else if flags.contains .null then return .null
  else if flags.contains .never then return .never
  else if flags.contains .unknown then return .unknown
  else if flags.contains .object then objectContent host request child type id
  else if flags.contains .union then unionContent host child type
  else unsupported host request type

/-- The node of a type: the cached one, a new one for a literal, or a shell
that is described one level down. -/
def typeNode (host : TypeHost τ σ) (request : Request) (type : τ)
    (describe : Reflection σ TypeContent) : Reflection σ NodeRef := do
  let id := host.typeId type
  match ← cached? id with
  | some node => return node
  | none =>
      let flags := host.typeFlags type
      if flags.isPerPosition then
        let content ← literalContent host request type flags
        addNode ⟨id, some content⟩
      else
        nested id describe

/-- Reflect a type with `room` levels left.  The depth counter stops the walk
before they are used up. -/
def reflect (host : TypeHost τ σ) (request : Request) : Nat → τ → Reflection σ NodeRef
  | 0, type => typeNode host request type (throw (.depthExceeded 0))
  | room + 1, type =>
      typeNode host request type
        (content host request (reflect host request room) type (host.typeId type)
          (host.typeFlags type))

/-! ## Classes -/

/-- Reflect a constructor. -/
def constructor (host : TypeHost τ σ) (child : τ → Reflection σ NodeRef) (owner : TypeId)
    (signature : Signature σ) : Reflection σ Constructor := do
  let parameters ← signature.parameters.mapM (parameter host child owner)
  return ⟨signature.modifiers, parameters⟩

/-- Reflect the first base, the properties and the constructors of a class. -/
def classContent (host : TypeHost τ σ) (child : τ → Reflection σ NodeRef) (type : τ)
    (id : TypeId) : Reflection σ TypeContent := do
  let base ← (host.baseTypes type).head?.mapM child
  let symbol ← require .symbol id (host.symbol? type)
  let data := (host.declaredProperties type).filter fun member =>
    (host.symbolFlags member).contains .property
  let properties ← data.mapM (property host child id)
  let constructors ← (host.constructSignatures symbol).mapM (constructor host child id)
  return .classType ⟨host.symbolName symbol, properties, constructors, base⟩

end Reflection

/-! ## Calls -/

/-- What a call answers: the outcome, the reports, and the reflector after
it. -/
structure Reflected (σ : Type) where
  outcome : Except ReflectError NodeRef
  report : Report σ
  reflector : Reflector

namespace Reflector

variable {τ σ : Type}

/-- No nodes yet, and types may nest at most `limit` deep. -/
def ofLimit (limit : UInt32) : Reflector :=
  ⟨.empty, [], [], .ofLimit limit⟩

/-- Forget which nodes are cached.  The nodes themselves stay. -/
def reset (r : Reflector) : Reflector :=
  { r with cache := [], journal := [], depth := r.depth.reset }

/-- The node cached for a type. -/
def cached? (r : Reflector) (id : TypeId) : Option NodeRef :=
  r.cache.lookup id

/-- How many nodes are cached. -/
def cacheSize (r : Reflector) : Nat :=
  r.cache.length

/-- Take back all that the journal lists, the last first. -/
def rollback (r : Reflector) : Reflector :=
  { r with cache := r.journal.foldl Cache.undo r.cache, journal := [] }

/-- End a call that began with `size` nodes.  A failed call is rolled back, and
its nodes are dropped: nothing refers to them any more. -/
def settle (r : Reflector) (size : Nat) {α : Type} : Except ReflectError α → Reflector
  | .ok _ => { r with journal := [] }
  | .error _ => { r.rollback with store := r.store.truncate size }

/-- Run a call. -/
def run (r : Reflector) (call : Reflection σ NodeRef) : Reflected σ :=
  let (outcome, state) := call.run.run ⟨{ r with journal := [] }, .empty⟩
  ⟨outcome, state.report, state.reflector.settle r.store.size outcome⟩

/-- How many levels a call may still enter. -/
def room (r : Reflector) : Nat :=
  r.depth.limit.toNat - r.depth.depth.toNat

/-- Reflect a type. -/
def reflectType (r : Reflector) (host : TypeHost τ σ) (request : Request) (type : τ) :
    Reflected σ :=
  r.run (Reflection.reflect host request r.room type)

/-- The node cached for a class, if it is one or not yet complete. -/
def cachedClass? (r : Reflector) (id : TypeId) : Option NodeRef :=
  (r.cached? id).filter fun node =>
    match r.store.kind? node with
    | some kind => kind == .classType
    | none => true

/-- Reflect a declared class, unless its node is cached.  Another node cached
for it is displaced. -/
def reflectClass (r : Reflector) (host : TypeHost τ σ) (request : Request) (type : τ) :
    Reflected σ :=
  let id := host.typeId type
  match r.cachedClass? id with
  | some node => ⟨.ok node, .empty, r⟩
  | none =>
      let child := Reflection.reflect host request (r.room - 1)
      r.run (Reflection.nested id (Reflection.classContent host child type id))

end Reflector

end TypeDescription
