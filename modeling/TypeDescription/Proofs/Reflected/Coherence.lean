import Mathlib.Logic.Function.Basic
import TypeDescription.Proofs.Reflected.State
import TypeDescription.Proofs.Reflected.Steps
import TypeDescription.Proofs.Yields

/-!
# Coherent caches

A node is `Placed` where a type may stand if it is the node of a literal, a
`boolean` that a union made, or the one node kept for its type.  `Coherent` says
that every kept node carries the identity it is kept for and has placed children.
It holds in the middle of a walk too, where some kept nodes are still shells.

Besides the cached nodes those count as kept that the walk of a class has
displaced, since nodes from before may contain them.  They are no part of the
state of a reflector; a `History` names them, at most one for each type.

The `regime` of walks is to keep the cache coherent and to add to the reflector;
the lemmas `yields_*` say what each step yields under it.  `yields_reflect` is the
main fact about walks: they give placed nodes.
-/

namespace TypeDescription

variable {τ σ : Type}

/-! ## Placed nodes -/

/-- The node of a literal string or number. -/
def literalNode (host : TypeHost τ σ) (type : τ) : TypeNode :=
  ⟨host.typeId type,
    some ((Reflection.literalContent? host type (host.typeFlags type)).getD .unsupported)⟩

/-- Whether the types with an identity get a node at each place. -/
def TypeHost.IsPerPosition (host : TypeHost τ σ) (id : TypeId) : Prop :=
  ∃ type, host.typeId type = id ∧ (host.typeFlags type).isPerPosition = true

/-- What calls for classes did to the cache: the node that each one displaced,
and the types that were asked for. -/
structure History where
  displaced : TypeId → Option NodeRef
  asked : TypeId → Prop

/-- No class was asked for. -/
def History.none : History :=
  ⟨fun _ => .none, fun _ => False⟩

namespace Reflector

/-- A node is cached for a type, or was displaced by the one that is. -/
def Keeps (r : Reflector) (old : History) (id : TypeId) (n : NodeRef) : Prop :=
  r.cache.lookup id = some n ∨ old.displaced id = some n

/-- A node that may stand for a type. -/
inductive Placed (host : TypeHost τ σ) (old : History) (r : Reflector) (n : NodeRef) : Prop
  | literal {type : τ} : (host.typeFlags type).isPerPosition = true →
      r.store.node? n = some (literalNode host type) → Placed host old r n
  | synthetic : r.store.node? n = some ⟨.synthetic, some .boolean⟩ → Placed host old r n
  | kept {id : TypeId} {content : Option TypeContent} :
      r.store.node? n = some ⟨id, content⟩ → r.Keeps old id n → Placed host old r n

/-- The kept nodes carry their identities and have placed children.  A displaced
node is complete and no class, while the one in its place is a class; a node
kept for a literal is a class too. -/
structure Coherent (host : TypeHost τ σ) (old : History) (r : Reflector) : Prop where
  node? : ∀ id n, r.Keeps old id n → ∃ content, r.store.node? n = some ⟨id, content⟩
  asked : ∀ id n, r.Keeps old id n → host.IsPerPosition id → old.asked id
  children : ∀ id n content, r.Keeps old id n → r.store.node? n = some ⟨id, some content⟩ →
    ∀ child ∈ content.children, r.Placed host old child
  cached : ∀ id n, old.displaced id = some n → ∃ m, r.cache.lookup id = some m
  kind_displaced : ∀ id n, old.displaced id = some n → ¬ host.IsPerPosition id ∧
    ∃ content, r.store.content? n = some content ∧ content.kind ≠ .classType
  kind_cached : ∀ id m content, (∃ n, old.displaced id = some n) ∨ host.IsPerPosition id →
    r.cache.lookup id = some m → r.store.content? m = some content → content.kind = .classType

/-! ## Growth -/

/-- What a walk adds to a reflector: nodes that are complete, and types in the
cache. -/
structure Extends (r r' : Reflector) : Prop where
  size_le : r.store.size ≤ r'.store.size
  node?_eq : ∀ n, n < r.store.size → r'.store.node? n = r.store.node? n
  lookup : ∀ id n, r.cache.lookup id = some n → r'.cache.lookup id = some n
  shells : ∀ n id, r'.store.node? n = some ⟨id, none⟩ → r.store.node? n = some ⟨id, none⟩

theorem Extends.refl (r : Reflector) : r.Extends r :=
  ⟨Nat.le_refl _, fun _ _ => rfl, fun _ _ h => h, fun _ _ h => h⟩

theorem Extends.trans {r r' r'' : Reflector} (h : r.Extends r') (h' : r'.Extends r'') :
    r.Extends r'' where
  size_le := Nat.le_trans h.size_le h'.size_le
  node?_eq n hn := by
    rw [h'.node?_eq n (Nat.lt_of_lt_of_le hn h.size_le), h.node?_eq n hn]
  lookup id n hn := h'.lookup id n (h.lookup id n hn)
  shells n id hn := h.shells n id (h'.shells n id hn)

section Extends

variable {host : TypeHost τ σ} {old : History} {r r' : Reflector}

theorem Extends.node? (h : r.Extends r') {n : NodeRef} {node : TypeNode}
    (hn : r.store.node? n = some node) : r'.store.node? n = some node := by
  rw [h.node?_eq n (Store.lt_size_of_node? hn), hn]

theorem Extends.keeps (h : r.Extends r') {id : TypeId} {n : NodeRef} (hn : r.Keeps old id n) :
    r'.Keeps old id n :=
  hn.imp (h.lookup id n) fun hold => hold

theorem Extends.placed (h : r.Extends r') {n : NodeRef} (hn : r.Placed host old n) :
    r'.Placed host old n := by
  cases hn with
  | literal hflags hnode => exact .literal hflags (h.node? hnode)
  | synthetic hnode => exact .synthetic (h.node? hnode)
  | kept hnode hkeeps => exact .kept (h.node? hnode) (h.keeps hkeeps)

/-- More complete nodes leave a cache coherent. -/
theorem Coherent.extend (C : r.Coherent host old) (h : r.Extends r')
    (hcache : r'.cache = r.cache) : r'.Coherent host old := by
  have hkeeps : ∀ {id n}, r'.Keeps old id n → r.Keeps old id n := by
    intro id n hn
    unfold Keeps at hn ⊢
    rwa [hcache] at hn
  have hcontent : ∀ {id n}, r.Keeps old id n → r'.store.content? n = r.store.content? n := by
    intro id n hn
    obtain ⟨content, hnode⟩ := C.node? id n hn
    unfold Store.content?
    rw [h.node? hnode, hnode]
  refine ⟨fun id n hn => ?_, fun id n hn => C.asked id n (hkeeps hn), ?_, ?_, ?_, ?_⟩
  · obtain ⟨content, hnode⟩ := C.node? id n (hkeeps hn)
    exact ⟨content, h.node? hnode⟩
  · intro id n content hn hnode child hchild
    obtain ⟨content', hnode'⟩ := C.node? id n (hkeeps hn)
    have heq := Option.some.inj ((h.node? hnode').symm.trans hnode)
    rw [heq] at hnode'
    exact h.placed (C.children id n content (hkeeps hn) hnode' child hchild)
  · intro id n hn
    rw [hcache]
    exact C.cached id n hn
  · intro id n hn
    rw [hcontent (.inr hn)]
    exact C.kind_displaced id n hn
  · intro id m content hid hm hcontent'
    rw [hcache] at hm
    rw [hcontent (.inl hm)] at hcontent'
    exact C.kind_cached id m content hid hm hcontent'

/-- An added complete node extends a reflector. -/
theorem extends_add (r : Reflector) (id : TypeId) (content : TypeContent) :
    r.Extends { r with store := (r.store.add ⟨id, some content⟩).2 } where
  size_le := by
    show r.store.size ≤ (r.store.add _).2.size
    rw [Store.size_add]
    omega
  node?_eq n hn := Store.node?_add_of_lt _ hn
  lookup _ _ h := h
  shells n id' hn := by
    have hlt := Store.lt_size_of_node? hn
    simp only [Store.size_add] at hlt
    rcases Nat.lt_succ_iff_lt_or_eq.1 hlt with hlt | rfl
    · exact (Store.node?_add_of_lt _ hlt).symm.trans hn
    · rw [Store.node?_add_self] at hn
      cases hn

end Extends

end Reflector

/-! ## What steps yield -/

namespace Reflection

open Regime

/-- Walks keep the cache coherent and only add to the reflector. -/
def regime (host : TypeHost τ σ) (old : History) : Regime (Reflecting σ) Reflector where
  view := Reflecting.reflector
  Holds := Reflector.Coherent host old
  Grows := Reflector.Extends
  refl := .refl
  trans := .trans

section Yields

variable {host : TypeHost τ σ} {old : History} {α β : Type} {P : Reflector → Prop}

/-- What a step yields, read off one run. -/
theorem run_of_yields {step : Reflection σ α} {Q : Reflector → α → Prop}
    (h : (regime host old).Yields P step Q) {s s' : Reflecting σ} {a : α}
    (C : s.reflector.Coherent host old) (hp : P s.reflector)
    (hrun : step.run.run s = (.ok a, s')) :
    s'.reflector.Coherent host old ∧ s.reflector.Extends s'.reflector ∧ Q s'.reflector a :=
  h s a s' C hp hrun

theorem stable_placed (n : NodeRef) : (regime host old).Stable fun r => r.Placed host old n :=
  fun _ _ h hn => h.placed hn

/-! ## Nodes that are complete at once -/

theorem yields_addNode (id : TypeId) (content : TypeContent) :
    (regime host old).Yields (fun _ => True) (addNode ⟨id, some content⟩ : Reflection σ _)
      fun r n => r.store.node? n = some ⟨id, some content⟩ := by
  intro s n s' C _ hrun
  have hgrown := Reflector.extends_add s.reflector id content
  cases hrun
  exact ⟨C.extend hgrown rfl, hgrown, Store.node?_add_self _ _⟩

/-- The members of a union stay, but for a `boolean` that may be added. -/
theorem yields_normalizeMembers (members : List NodeRef) :
    (regime host old).Yields (fun _ => True) (normalizeMembers members : Reflection σ _)
      fun r joined => ∀ n ∈ joined, n ∈ members ∨ r.Placed host old n := by
  intro s joined s' C _ hrun
  have hjoined : joined = (s.reflector.store.normalizeUnion members).1 ∧
      s' = { s with reflector := { s.reflector with
        store := (s.reflector.store.normalizeUnion members).2 } } := by
    cases hrun
    exact ⟨rfl, rfl⟩
  obtain ⟨rfl, rfl⟩ := hjoined
  rcases s.reflector.store.normalizeUnion_cases members with ⟨_, heq, hall⟩ | ⟨_, heq, hall⟩
  · rw [heq]
    exact ⟨C, .refl _, fun n hn => .inl (hall n hn)⟩
  · rw [heq]
    have hgrown := Reflector.extends_add s.reflector .synthetic .boolean
    refine ⟨C.extend hgrown rfl, hgrown, fun n hn => ?_⟩
    rcases hall n hn with hmem | rfl
    · exact .inl hmem
    · exact .inr (.synthetic (Store.node?_add_self _ _))

/-- A step whose result contains no nodes only has to keep the cache
coherent. -/
theorem composes_yields :
    Composes fun _ (step _ : Reflection σ _) =>
      (regime host old).Yields (fun _ => True) step fun _ _ => True where
  pure _ := Yields.pure fun _ _ => trivial
  bind hstep hnext := Yields.bind stable_true hstep fun a => (hnext a).weaken fun _ h => h.1
  throw _ _ _ _ _ _ hrun := by cases hrun
  note _ s _ _ C _ hrun := by
    cases hrun
    exact ⟨C, .refl _, trivial⟩
  cached? _ s _ _ C _ hrun := by
    cases hrun
    exact ⟨C, .refl _, trivial⟩
  addNode id content := (yields_addNode id content).imp fun _ _ _ => trivial
  normalizeMembers members := (yields_normalizeMembers members).imp fun _ _ _ => trivial

/-- To ask the host for a datum yields nothing. -/
theorem yields_require (hP : (regime host old).Stable P) (what : HostDatum) (id : TypeId)
    (datum : Option α) {next : α → Reflection σ β} {Q : Reflector → β → Prop}
    (hnext : ∀ a, (regime host old).Yields P (next a) Q) :
    (regime host old).Yields P (require what id datum >>= next) Q :=
  Yields.bind hP ((composes_yields.require what id datum).weaken fun _ _ => trivial)
    fun a => (hnext a).weaken fun _ h => h.1

/-! ## Descriptions -/

/-- What a type contains is placed. -/
abbrev Placeable (host : TypeHost τ σ) (old : History) (r : Reflector) (content : TypeContent) :
    Prop :=
  ∀ child ∈ content.children, r.Placed host old child

/-- A type that contains nothing. -/
private theorem yields_childless {content : TypeContent} (h : content.children = []) :
    (regime host old).Yields P (Pure.pure content : Reflection σ _) (Placeable host old) :=
  Yields.pure fun _ _ _ hchild => absurd (h ▸ hchild) List.not_mem_nil

theorem yields_unsupported (request : Request) (type : τ) :
    (regime host old).Yields (fun _ => True) (unsupported host request type) (Placeable host old) :=
  Yields.bind stable_true (composes_yields.note _) fun _ => yields_childless rfl

section Described

variable {child : τ → Reflection σ NodeRef} {request : Request}
  (hchild : ∀ type, (regime host old).Yields (fun _ => True) (child type)
    fun r n => r.Placed host old n)

include hchild

theorem yields_property (owner : TypeId) (symbol : σ) :
    (regime host old).Yields (fun _ => True) (property host child owner symbol)
      fun r member => r.Placed host old member.type :=
  yields_require stable_true _ _ _ fun type =>
    Yields.bind stable_true (hchild type) fun _ => Yields.pure fun _ h => h.2

theorem yields_parameter (owner : TypeId) (symbol : σ) :
    (regime host old).Yields (fun _ => True) (parameter host child owner symbol)
      fun r member => r.Placed host old member.type :=
  yields_require stable_true _ _ _ fun type =>
    Yields.bind stable_true (hchild type) fun _ => Yields.pure fun _ h => h.2

theorem yields_children (types : List τ) :
    (regime host old).Yields (fun _ => True) (types.mapM child)
      fun r ns => ∀ n ∈ ns, r.Placed host old n :=
  Yields.mapM_forall stable_true stable_placed hchild types

theorem yields_properties (owner : TypeId) (symbols : List σ) :
    (regime host old).Yields (fun _ => True) (symbols.mapM (property host child owner))
      fun r members => ∀ member ∈ members, r.Placed host old member.type :=
  Yields.mapM_forall stable_true (fun member : Member => stable_placed member.type)
    (yields_property hchild owner) symbols

theorem yields_referenceContent (type : τ) (id : TypeId) :
    (regime host old).Yields (fun _ => True) (referenceContent host request child type id)
      (Placeable host old) := by
  refine Yields.bind stable_true (yields_children hchild _) fun arguments => ?_
  have hstable : (regime host old).Stable fun r => True ∧ ∀ n ∈ arguments, r.Placed host old n :=
    stable_and stable_true (stable_forall arguments stable_placed)
  refine yields_require hstable _ _ _ fun target => ?_
  refine Yields.ite (Yields.pure fun _ h => h.2) (yields_require hstable _ _ _ fun symbol => ?_)
  refine Yields.ite ?_ (yields_childless rfl)
  refine Yields.bind hstable
    ((composes_yields.identifierFor host request target id).weaken fun _ _ => trivial)
    fun name => ?_
  exact Yields.pure fun _ h => h.1.2

theorem yields_objectContent (type : τ) (id : TypeId) :
    (regime host old).Yields (fun _ => True) (objectContent host request child type id)
      (Placeable host old) := by
  refine Yields.ite (yields_referenceContent hchild type id) ?_
  refine yields_require stable_true _ _ _ fun symbol => ?_
  refine Yields.ite (yields_childless rfl) (Yields.ite ?_ (Yields.ite (yields_childless rfl) ?_))
  · exact Yields.bind stable_true (composes_yields.identifierFor host request type id) fun name =>
      yields_childless rfl
  · refine Yields.bind stable_true (yields_properties hchild id _) fun properties => ?_
    refine Yields.pure fun r h n hn => ?_
    obtain ⟨member, hmember, rfl⟩ := List.mem_map.1 hn
    exact h.2 member hmember

theorem yields_unionContent (type : τ) :
    (regime host old).Yields (fun _ => True) (unionContent host child type)
      (Placeable host old) := by
  refine Yields.bind stable_true (yields_children hchild _) fun members => ?_
  refine Yields.bind (stable_and stable_true (stable_forall members stable_placed))
    ((yields_normalizeMembers members).weaken fun _ _ => trivial) fun joined => ?_
  refine Yields.pure fun r h n hn => ?_
  rcases h.2 n hn with hmem | hplaced
  · exact h.1.2 n hmem
  · exact hplaced

theorem yields_content (type : τ) (id : TypeId) (flags : TypeFlags) :
    (regime host old).Yields (fun _ => True) (content host request child type id flags)
      (Placeable host old) := by
  have hnone : ∀ {content : TypeContent}, content.children = [] →
      (regime host old).Yields (fun _ => True) (Pure.pure content : Reflection σ _)
        (Placeable host old) :=
    yields_childless
  refine Yields.ite (hnone rfl) (Yields.ite (hnone rfl) (Yields.ite (hnone rfl) ?_))
  refine Yields.ite (hnone rfl) (Yields.ite ?_ (Yields.ite (hnone rfl) ?_))
  · split
    · exact hnone rfl
    · exact hnone rfl
    · exact yields_unsupported request type
  refine Yields.ite (hnone rfl) (Yields.ite (hnone rfl) (Yields.ite (hnone rfl) ?_))
  refine Yields.ite (hnone rfl) (Yields.ite (hnone rfl) (Yields.ite ?_ (Yields.ite ?_ ?_)))
  · exact yields_objectContent hchild type id
  · exact yields_unionContent hchild type
  · exact yields_unsupported request type

theorem yields_base (base : Option τ) :
    (regime host old).Yields (fun _ => True) (base.mapM child)
      fun r base => ∀ n ∈ base.toList, r.Placed host old n := by
  cases base with
  | none => exact Yields.pure fun _ _ n hn => absurd hn List.not_mem_nil
  | some type =>
    refine Yields.bind stable_true (hchild type) fun node => Yields.pure fun r h n hn => ?_
    obtain rfl := List.mem_singleton.1 hn
    exact h.2

theorem yields_constructor (owner : TypeId) (signature : Signature σ) :
    (regime host old).Yields (fun _ => True) (constructor host child owner signature)
      fun r c => ∀ parameter ∈ c.parameters, r.Placed host old parameter.type :=
  Yields.bind stable_true
    (Yields.mapM_forall stable_true (fun parameter : Member => stable_placed parameter.type)
      (yields_parameter hchild owner) _)
    fun _ => Yields.pure fun _ h => h.2

theorem yields_classContent (type : τ) (id : TypeId) :
    (regime host old).Yields (fun _ => True) (classContent host child type id)
      fun r content => Placeable host old r content ∧ content.kind = .classType := by
  refine Yields.bind stable_true (yields_base hchild _) fun base => ?_
  have hbase : (regime host old).Stable fun r => True ∧ ∀ n ∈ base.toList, r.Placed host old n :=
    stable_and stable_true (stable_forall base.toList stable_placed)
  refine yields_require hbase _ _ _ fun symbol => ?_
  refine Yields.bind hbase ((yields_properties hchild id _).weaken fun _ _ => trivial)
    fun properties => ?_
  refine Yields.bind
    (stable_and hbase (stable_forall properties fun member => stable_placed member.type))
    ((Yields.mapM_forall stable_true
      (fun c : Constructor => stable_forall c.parameters fun parameter =>
        stable_placed parameter.type)
      (yields_constructor hchild id) _).weaken fun _ _ => trivial) fun constructors => ?_
  refine Yields.pure fun r h => ⟨fun n hn => ?_, rfl⟩
  obtain ⟨⟨⟨_, hbase⟩, hproperties⟩, hconstructors⟩ := h
  rcases List.mem_append.1 hn with hn | hn
  · rcases List.mem_append.1 hn with hn | hn
    · obtain ⟨member, hmember, rfl⟩ := List.mem_map.1 hn
      exact hproperties member hmember
    · obtain ⟨c, hc, hn⟩ := List.mem_flatMap.1 hn
      obtain ⟨parameter, hparameter, rfl⟩ := List.mem_map.1 hn
      exact hconstructors c hc parameter hparameter
  · exact hbase n hn

end Described

end Yields

end Reflection

end TypeDescription
