import TypeDescription.Proofs.Reflected.CacheInvariant
import TypeDescription.Proofs.Reflected.Outline

/-!
# Nodes drawn from outlines

As long as only types are reflected, each cached node is drawn from the outline of its
type in the scope of some call (`Reflector.Drawn`): its children stand for the types of
the outline, in order, and a child that stands for no type is a `boolean` that was made
for this union and for no other.  So what is cached for a type does not depend on the
calls that were made before, if these were made in one scope.

Walks keep this (`yields_drawing`), and so do calls, whether they succeed or fail
(`Settled.after_type`).  Which members of a union are joined depends on the nodes in
the store when it is walked, some of which are shells; but no shell is of the boolean
family, as nothing is walked for those types.
-/

namespace TypeDescription

variable {τ σ : Type}

/-- What a literal is, is not of the boolean family. -/
theorem isBooleanLike_literalNode (host : TypeHost τ σ) (type : τ) {content : TypeContent}
    (h : (literalNode host type).content = some content) : content.kind.isBooleanLike = false := by
  obtain rfl := Option.some.inj h
  unfold Reflection.literalContent?
  split
  · cases host.stringLiteral? type <;> rfl
  · cases host.numberLiteral? type <;> rfl

theorem literalNode_ne_synthesizedBoolean (host : TypeHost τ σ) (type : τ) :
    literalNode host type ≠ synthesizedBoolean := by
  intro heq
  cases isBooleanLike_literalNode host type (congrArg TypeNode.content heq)

namespace Reflector

/-! ## Nodes that stand for types -/

/-- A node stands for a type: it is cached for it, or it is a node of this
literal. -/
def Stands (host : TypeHost τ σ) (r : Reflector) (type : τ) (n : NodeRef) : Prop :=
  r.cache.lookup (host.typeId type) = some n ∨
    (host.typeFlags type).isPerPosition = true ∧ r.store.node? n = some (literalNode host type)

/-- A `boolean` that is not cached. -/
structure Alone (r : Reflector) (b : NodeRef) : Prop where
  node? : r.store.node? b = some synthesizedBoolean
  uncached : ∀ id, r.cache.lookup id ≠ some b

/-- A `boolean` that is not cached and not contained in a cached node. -/
structure Unclaimed (r : Reflector) (b : NodeRef) : Prop extends r.Alone b where
  outside : ∀ id u content, r.cache.lookup id = some u → r.store.content? u = some content →
    b ∉ content.children

/-- The `boolean` that was made for a union, as its last member. -/
structure Owns (host : TypeHost τ σ) (r : Reflector) (type : τ) (b : NodeRef) : Prop where
  alone : r.Alone b
  last : ∃ u members, r.cache.lookup (host.typeId type) = some u ∧
    r.store.content? u = some (.union members) ∧ members.getLast? = some b

/-- A content shows an outline: it is built from nodes that stand for the types of
the outline.  They were joined in some store that agrees with the types in what is
boolean, and if a `boolean` was made there, it is of a kind. -/
def Shows (host : TypeHost τ σ) (r : Reflector) (Made : NodeRef → Prop) (o : Outline τ σ)
    (content : TypeContent) : Prop :=
  ∃ (s : Store) (nodes : List NodeRef),
    List.Forall₂ (fun type n =>
      r.Stands host type n ∧ s.booleanKind? n = host.booleanKind? type) o.types nodes ∧
    content = o.build host (o.joined s nodes).1 ∧ ((o.joined s nodes).2 = s ∨ Made s.size)

/-- The cached nodes are drawn from the outlines of their types in some scopes, and what
was made for one union belongs to no other. -/
structure Drawn (host : TypeHost τ σ) (scopes : UInt32 → Prop) (r : Reflector) : Prop where
  shows_outline : ∀ type n content, r.cache.lookup (host.typeId type) = some n →
    r.store.content? n = some content → ∃ scope, scopes scope ∧
      ∃ o, host.outline? scope type = some o ∧ r.Shows host r.Alone o content
  owner : ∀ type type' b, r.Owns host type b → r.Owns host type' b →
    host.typeId type = host.typeId type'

/-- No type of the boolean family is in the middle of its walk. -/
def NoBooleanOpen (host : TypeHost τ σ) (r : Reflector) : Prop :=
  ∀ type n, r.cache.lookup (host.typeId type) = some n →
    r.store.node? n = some ⟨host.typeId type, none⟩ → host.booleanKind? type = none

/-- What holds in the middle of a walk. -/
structure Drawing (host : TypeHost τ σ) (scopes : UInt32 → Prop) (r : Reflector) : Prop where
  coherent : r.Coherent host .none
  drawn : r.Drawn host scopes
  noBooleanOpen : r.NoBooleanOpen host

/-! ## Growth -/

/-- What a step adds: nodes, and types in the cache by new nodes. -/
structure Adds (r r' : Reflector) : Prop where
  size_le : r.store.size ≤ r'.store.size
  node?_eq : ∀ n, n < r.store.size → r'.store.node? n = r.store.node? n
  lookup : ∀ id n, r.cache.lookup id = some n → r'.cache.lookup id = some n
  new : ∀ id n, r'.cache.lookup id = some n → r.cache.lookup id = some n ∨ r.store.size ≤ n

theorem Adds.refl (r : Reflector) : r.Adds r :=
  ⟨Nat.le_refl _, fun _ _ => rfl, fun _ _ h => h, fun _ _ h => .inl h⟩

theorem Adds.trans {r r' r'' : Reflector} (h : r.Adds r') (h' : r'.Adds r'') : r.Adds r'' where
  size_le := Nat.le_trans h.size_le h'.size_le
  node?_eq n hn := by
    rw [h'.node?_eq n (Nat.lt_of_lt_of_le hn h.size_le), h.node?_eq n hn]
  lookup id n hn := h'.lookup id n (h.lookup id n hn)
  new id n hn := by
    rcases h'.new id n hn with hn | hn
    · exact h.new id n hn
    · exact .inr (Nat.le_trans h.size_le hn)

section Adds

variable {host : TypeHost τ σ} {scopes : UInt32 → Prop} {r r' : Reflector}

theorem Adds.node? (h : r.Adds r') {n : NodeRef} {node : TypeNode}
    (hn : r.store.node? n = some node) : r'.store.node? n = some node := by
  rw [h.node?_eq n (Store.lt_size_of_node? hn), hn]

theorem Adds.stands (h : r.Adds r') {type : τ} {n : NodeRef} (hn : r.Stands host type n) :
    r'.Stands host type n :=
  hn.imp (h.lookup _ n) fun hn => ⟨hn.1, h.node? hn.2⟩

theorem Adds.alone (h : r.Adds r') {b : NodeRef} (hb : r.Alone b) : r'.Alone b where
  node? := h.node? hb.node?
  uncached id hid := by
    rcases h.new id b hid with hid | hle
    · exact hb.uncached id hid
    · exact absurd (Store.lt_size_of_node? hb.node?) (Nat.not_lt.2 hle)

theorem Shows.imp {Made Made' : NodeRef → Prop} {o : Outline τ σ} {content : TypeContent}
    (hstands : ∀ type n, r.Stands host type n → r'.Stands host type n)
    (hmade : ∀ b, Made b → Made' b) (h : r.Shows host Made o content) :
    r'.Shows host Made' o content := by
  obtain ⟨s, nodes, hnodes, hcontent, hboolean⟩ := h
  exact ⟨s, nodes, hnodes.imp fun _ _ hn => ⟨hstands _ _ hn.1, hn.2⟩, hcontent,
    hboolean.imp_right (hmade _)⟩

/-- Placed nodes are in the store. -/
theorem Placed.lt_size {old : History} {n : NodeRef} (hn : r.Placed host old n) :
    n < r.store.size := by
  cases hn with
  | literal _ hnode => exact Store.lt_size_of_node? hnode
  | synthetic hnode => exact Store.lt_size_of_node? hnode
  | kept hnode _ => exact Store.lt_size_of_node? hnode

/-- What a cached node contains is in the store. -/
theorem Coherent.child_lt_size (C : r.Coherent host .none) {id : TypeId} {u child : NodeRef}
    {content : TypeContent} (hu : r.cache.lookup id = some u)
    (hcontent : r.store.content? u = some content) (hchild : child ∈ content.children) :
    child < r.store.size := by
  obtain ⟨content', hnode⟩ := C.node? id u (.inl hu)
  obtain rfl : content' = some content := (Store.content?_of_node? hnode).symm.trans hcontent
  exact (C.children id u content (.inl hu) hnode child hchild).lt_size

/-- A node that stands for a type is no `boolean` made for a union. -/
theorem Stands.not_alone {type : τ} {n : NodeRef} (hn : r.Stands host type n) : ¬ r.Alone n := by
  intro halone
  rcases hn with hn | ⟨_, hnode⟩
  · exact halone.uncached _ hn
  · exact literalNode_ne_synthesizedBoolean host type
      (Option.some.inj (hnode.symm.trans halone.node?))

/-- If the types with complete nodes were cached before, then nothing new is drawn. -/
theorem Drawn.adds (C : r.Coherent host .none) (D : r.Drawn host scopes) (h : r.Adds r')
    (hold : ∀ id n content, r'.cache.lookup id = some n → r'.store.content? n = some content →
      r.cache.lookup id = some n) : r'.Drawn host scopes := by
  have hcontent : ∀ {id n}, r.cache.lookup id = some n →
      r'.store.content? n = r.store.content? n := by
    intro id n hn
    obtain ⟨content, hnode⟩ := C.node? id n (.inl hn)
    unfold Store.content?
    rw [h.node? hnode, hnode]
  have howns : ∀ {type b}, r'.Owns host type b → r.Owns host type b := by
    rintro type b ⟨⟨hnode, huncached⟩, u, members, hu, hmembers, hlast⟩
    have hu := hold _ u _ hu hmembers
    rw [hcontent hu] at hmembers
    have hlt := C.child_lt_size hu hmembers (List.mem_of_getLast? hlast)
    exact ⟨⟨(h.node?_eq b hlt).symm.trans hnode, fun id hid => huncached id (h.lookup id b hid)⟩,
      u, members, hu, hmembers, hlast⟩
  refine ⟨fun type n content hn hcontent' => ?_, fun type type' b hb hb' =>
    D.owner type type' b (howns hb) (howns hb')⟩
  have hn := hold _ n content hn hcontent'
  rw [hcontent hn] at hcontent'
  obtain ⟨scope, hscope, o, ho, hshows⟩ := D.shows_outline type n content hn hcontent'
  exact ⟨scope, hscope, o, ho, hshows.imp (fun _ _ => h.stands) fun _ => h.alone⟩

/-- An added complete node. -/
theorem adds_add (r : Reflector) (id : TypeId) (content : TypeContent) :
    r.Adds { r with store := (r.store.add ⟨id, some content⟩).2 } where
  size_le := (extends_add r id content).size_le
  node?_eq := (extends_add r id content).node?_eq
  lookup _ _ h := h
  new _ _ h := .inl h

theorem Drawing.add (D : r.Drawing host scopes) (id : TypeId) (content : TypeContent) :
    Drawing host scopes { r with store := (r.store.add ⟨id, some content⟩).2 } where
  coherent := D.coherent.extend (extends_add r id content) rfl
  drawn := by
    refine D.drawn.adds D.coherent (adds_add r id content) fun _ _ _ hn _ => hn
  noBooleanOpen type n hn hnode :=
    D.noBooleanOpen type n hn ((extends_add r id content).shells n _ hnode)

end Adds

/-! ## Going one level down -/

section Nested

open Reflection (shelled filled)

variable {host : TypeHost τ σ} {scopes : UInt32 → Prop} {s : Reflecting σ} {type : τ} {n : NodeRef}
  {content : TypeContent} {o : Outline τ σ}

theorem adds_shelled {id : TypeId} (hnone : s.reflector.cache.lookup id = none) :
    s.reflector.Adds (shelled id s).reflector where
  size_le := by
    simp only [shelled, Store.size_add]
    exact Nat.le_succ _
  node?_eq _ hn := Store.node?_add_of_lt _ hn
  lookup id' m hm := by
    refine (Cache.lookup_put_of_ne _ ?_).trans hm
    rintro rfl
    rw [hnone] at hm
    cases hm
  new id' m hm := by
    by_cases heq : id' = id
    · subst heq
      obtain rfl := Option.some.inj ((Cache.lookup_put_self _ _ _).symm.trans hm)
      exact .inr (Nat.le_refl _)
    · exact .inl ((Cache.lookup_put_of_ne _ heq).symm.trans hm)

/-- A shell is not drawn yet. -/
theorem Drawn.shelled (C : s.reflector.Coherent host .none) (D : s.reflector.Drawn host scopes)
    {id : TypeId} (hnone : s.reflector.cache.lookup id = none) :
    (shelled id s).reflector.Drawn host scopes := by
  refine D.adds C (adds_shelled hnone) fun id' m content hm hcontent => ?_
  by_cases heq : id' = id
  · subst heq
    obtain rfl := Option.some.inj ((Cache.lookup_put_self _ _ _).symm.trans hm)
    have hshell : (Reflection.shelled id' s).reflector.store.content? s.reflector.store.size =
        none := Store.content?_of_node? (Store.node?_add_self _ _)
    rw [hshell] at hcontent
    cases hcontent
  · exact (Cache.lookup_put_of_ne _ heq).symm.trans hm

private theorem stands_filled {id : TypeId} (hshell : s.reflector.store.node? n = some ⟨id, none⟩)
    {type : τ} {m : NodeRef} (hm : s.reflector.Stands host type m) :
    (filled n content s).reflector.Stands host type m := by
  refine hm.imp_right fun hm => ⟨hm.1, ?_⟩
  have hne : m ≠ n := by
    rintro rfl
    cases hm.2.symm.trans hshell
  exact (Store.node?_fill_of_ne content hne).trans hm.2

private theorem alone_filled_iff {id : TypeId} (hn : s.reflector.cache.lookup id = some n)
    {b : NodeRef} : (filled n content s).reflector.Alone b ↔ s.reflector.Alone b := by
  have hnode : (∀ id, s.reflector.cache.lookup id ≠ some b) →
      (filled n content s).reflector.store.node? b = s.reflector.store.node? b := by
    intro huncached
    refine Store.node?_fill_of_ne content ?_
    rintro rfl
    exact huncached id hn
  constructor
  · rintro ⟨hb, huncached⟩
    exact ⟨(hnode huncached).symm.trans hb, huncached⟩
  · rintro ⟨hb, huncached⟩
    exact ⟨(hnode huncached).trans hb, huncached⟩

/-- What a type contains that stands for no type was made for it. -/
private theorem Shows.not_owned (h : s.reflector.Shows host s.reflector.Unclaimed o content)
    {b : NodeRef} (hb : b ∈ content.children) {type' : τ} :
    ¬ s.reflector.Owns host type' b := by
  rintro ⟨halone, u, members, hu, hmembers, hlast⟩
  obtain ⟨store, nodes, hnodes, rfl, hmade⟩ := h
  have hnot : ∀ m ∈ nodes, m ≠ b := by
    rintro m hm rfl
    obtain ⟨type, _, hstands, _⟩ := exists_mem_of_forall₂ hnodes m hm
    exact hstands.not_alone halone
  have hmem := Outline.mem_of_mem_children hb
  rcases o.joined_cases store nodes with ⟨all, heq, hall⟩ | ⟨all, heq, hall⟩
  · rw [heq] at hmem
    exact hnot b (hall b hmem) rfl
  · rw [heq] at hmem hmade
    rcases hall b hmem with hmem | rfl
    · exact hnot b hmem rfl
    · rcases hmade with hsame | hunclaimed
      · exact store.add_ne _ hsame
      · exact hunclaimed.outside _ u _ hu hmembers (List.mem_of_getLast? hlast)

/-- A shell is filled with what shows the outline of its type. -/
theorem Drawn.filled (hinj : Function.Injective host.typeId) (C : s.reflector.Coherent host .none)
    (D : s.reflector.Drawn host scopes)
    (hn : s.reflector.cache.lookup (host.typeId type) = some n)
    (hshell : s.reflector.store.node? n = some ⟨host.typeId type, none⟩)
    {scope : UInt32} (hscope : scopes scope) (ho : host.outline? scope type = some o)
    (hshows : s.reflector.Shows host s.reflector.Unclaimed o content) :
    (filled n content s).reflector.Drawn host scopes := by
  have hself : (Reflection.filled n content s).reflector.store.content? n = some content :=
    Store.content?_of_node? (Store.node?_fill_self hshell content)
  have hother : ∀ {m}, m ≠ n → (Reflection.filled n content s).reflector.store.content? m =
      s.reflector.store.content? m := fun h => Store.content?_fill_of_ne content h
  have hid : ∀ {id}, s.reflector.cache.lookup id = some n → id = host.typeId type := by
    intro id hm
    obtain ⟨content', hnode⟩ := C.node? id n (.inl hm)
    exact congrArg TypeNode.id (Option.some.inj (hnode.symm.trans hshell))
  -- a `boolean` belongs to the new node or to one from before, never to both
  have howns : ∀ {type' b}, (Reflection.filled n content s).reflector.Owns host type' b →
      (host.typeId type' = host.typeId type ∧ b ∈ content.children) ∨
        s.reflector.Owns host type' b := by
    rintro type' b ⟨halone, u, members, hu, hmembers, hlast⟩
    by_cases heq : u = n
    · subst heq
      obtain rfl := Option.some.inj (hself.symm.trans hmembers)
      exact .inl ⟨hid hu, List.mem_of_getLast? hlast⟩
    · rw [hother heq] at hmembers
      exact .inr ⟨(alone_filled_iff hn).1 halone, u, members, hu, hmembers, hlast⟩
  refine ⟨fun type' m content' hm hcontent => ?_, fun type' type'' b hb hb' => ?_⟩
  · by_cases heq : m = n
    · subst heq
      obtain rfl := Option.some.inj (hself.symm.trans hcontent)
      obtain rfl := hinj (hid hm)
      exact ⟨scope, hscope, o, ho, hshows.imp (fun _ _ => stands_filled hshell)
        fun b hb => (alone_filled_iff hn).2 hb.toAlone⟩
    · rw [hother heq] at hcontent
      obtain ⟨scope', hscope', o', ho', hshows'⟩ := D.shows_outline type' m content' hm hcontent
      exact ⟨scope', hscope', o', ho', hshows'.imp (fun _ _ => stands_filled hshell)
        fun b => (alone_filled_iff hn).2⟩
  · rcases howns hb with ⟨hid', hmem⟩ | howned <;> rcases howns hb' with ⟨hid'', hmem'⟩ | howned'
    · exact hid'.trans hid''.symm
    · exact absurd howned' (hshows.not_owned hmem)
    · exact absurd howned (hshows.not_owned hmem')
    · exact D.owner type' type'' b howned howned'

/-- In the middle of a walk the nodes that stand for types are boolean if the types
are. -/
theorem Drawing.booleanKind?_eq {r : Reflector} (D : r.Drawing host scopes)
    (hn : r.Stands host type n) : r.store.booleanKind? n = host.booleanKind? type := by
  unfold Store.booleanKind? Store.kind?
  rcases hn with hn | ⟨hflags, hnode⟩
  · obtain ⟨content, hnode⟩ := D.coherent.node? _ n (.inl hn)
    have hcontent := Store.content?_of_node? hnode
    rw [hcontent]
    cases content with
    | none => exact (D.noBooleanOpen type n hn hnode).symm
    | some content =>
      obtain ⟨scope, _, o, ho, _, _, _, rfl, _⟩ :=
        D.drawn.shows_outline type n content hn hcontent
      have hflags : ¬ (host.typeFlags type).isPerPosition = true := fun hflags =>
        D.coherent.asked _ n (.inl hn) ⟨type, rfl, hflags⟩
      rw [TypeHost.booleanKind?_eq hflags ho, Option.map_some, Outline.kind_build]
  · have hcontent := Store.content?_of_node? hnode
    unfold TypeHost.booleanKind?
    rw [hcontent, if_pos hflags, Option.map_some, Option.filter_some,
      isBooleanLike_literalNode host type rfl]
    rfl

end Nested

end Reflector

/-! ## Walks -/

namespace Reflection

open Regime
open Reflector (Adds Drawing)

/-- Walks draw nodes from outlines and only add to the reflector. -/
def drawing (host : TypeHost τ σ) (scopes : UInt32 → Prop) : Regime (Reflecting σ) Reflector where
  view := Reflecting.reflector
  Holds := Drawing host scopes
  Grows := Adds
  refl := .refl
  trans := .trans

section Walks

variable {host : TypeHost τ σ} {scopes : UInt32 → Prop} {request : Request} {type : τ}
  {s : Reflecting σ} {r : Reflector} {content : TypeContent}

/-- What a description leaves: a content that shows the outline of its type. -/
structure Pictures (host : TypeHost τ σ) (scopes : UInt32 → Prop) (type : τ) (r r' : Reflector)
    (content : TypeContent) : Prop where
  coherent : r'.Coherent host .none
  drawn : r'.Drawn host scopes
  adds : r.Adds r'
  shows_outline : ∃ scope, scopes scope ∧ ∃ o, host.outline? scope type = some o ∧
    r'.Shows host r'.Unclaimed o content

/-- A description whose contents show the outline of a type.  Its own shell is open; if
the type is of the boolean family, others need not be looked at. -/
def PicturesType (host : TypeHost τ σ) (scopes : UInt32 → Prop) (type : τ)
    (describe : Reflection σ TypeContent) : Prop :=
  ∀ s content r, s.reflector.Coherent host .none → s.reflector.Drawn host scopes →
    (host.booleanKind? type = none → s.reflector.NoBooleanOpen host) →
      Gives describe s content r → Pictures host scopes type s.reflector r content

/-- Joining makes a `boolean` that nothing contains. -/
private theorem unclaimed_add (D : r.Drawing host scopes) :
    Reflector.Unclaimed { r with store := (r.store.add ⟨.synthetic, some .boolean⟩).2 }
      r.store.size where
  node? := Store.node?_add_self _ _
  uncached id hid := by
    obtain ⟨content, hnode⟩ := D.coherent.node? id _ (.inl hid)
    exact Nat.lt_irrefl _ (Store.lt_size_of_node? hnode)
  outside id u content hu hcontent hmem := by
    obtain ⟨content', hnode⟩ := D.coherent.node? id u (.inl hu)
    have hsame : r.store.content? u = some content := by
      unfold Store.content? at hcontent ⊢
      rwa [Store.node?_add hnode, ← hnode] at hcontent
    exact Nat.lt_irrefl _ (D.coherent.child_lt_size hu hsame hmem)

/-- The walk of an outline shows it. -/
private theorem pictures_walked {child : τ → Reflection σ NodeRef} {o : Outline τ σ}
    (hchild : ∀ type, (drawing host scopes).Yields (fun _ => True) (child type)
      fun r n => r.Stands host type n)
    (D : s.reflector.Drawing host scopes) {scope : UInt32} (hscope : scopes scope)
    (ho : host.outline? scope type = some o) (h : o.Walked host child s content r) :
    Pictures host scopes type s.reflector r content := by
  obtain ⟨nodes, u, hrun, rfl, rfl⟩ := h
  have hstable : ∀ type n, (drawing host scopes : Regime (Reflecting σ) Reflector).Stable
      fun r => r.Stands host type n := fun type n _ _ h hn => Adds.stands h hn
  have hall := Yields.mapM stable_true hstable o.types fun type _ => hchild type
  obtain ⟨Du, hadds, hstands⟩ := hall s nodes u D trivial hrun
  have hnodes : List.Forall₂ (fun type n => u.reflector.Stands host type n ∧
      u.reflector.store.booleanKind? n = host.booleanKind? type) o.types nodes :=
    hstands.imp fun type n hn => ⟨hn, Du.booleanKind?_eq hn⟩
  rcases o.joined_cases u.reflector.store nodes with ⟨all, heq, _⟩ | ⟨all, heq, _⟩
  · rw [heq]
    exact ⟨Du.coherent, Du.drawn, hadds, scope, hscope, o, ho, u.reflector.store, nodes, hnodes,
      by rw [heq], .inl (by rw [heq])⟩
  · rw [heq]
    have hadd := Reflector.adds_add u.reflector .synthetic .boolean
    have D' := Du.add .synthetic .boolean
    refine ⟨D'.coherent, D'.drawn, hadds.trans hadd, scope, hscope, o, ho, u.reflector.store, nodes,
      ?_, by rw [heq], .inr (unclaimed_add Du)⟩
    exact hnodes.imp fun type n hn => ⟨hadd.stands hn.1, hn.2⟩

/-- A description shows the outline of its type. -/
private theorem pictures_content {child : τ → Reflection σ NodeRef} {id : TypeId}
    (hscope : scopes request.scope)
    (hchild : ∀ type, (drawing host scopes).Yields (fun _ => True) (child type)
      fun r n => r.Stands host type n) :
    PicturesType host scopes type
      (Reflection.content host request child type id (host.typeFlags type)) := by
  intro s content r C D hopen h
  obtain ⟨o, ho, hwalked⟩ := (describes_content _ _ _).1 h
  cases hkind : host.booleanKind? type with
  | none => exact pictures_walked hchild ⟨C, D, hopen hkind⟩ hscope ho hwalked
  | some kind =>
    have hflags : ¬ (host.typeFlags type).isPerPosition = true := by
      intro hflags
      rw [TypeHost.booleanKind?, if_pos hflags] at hkind
      cases hkind
    have hboolean : (o.kind host).isBooleanLike = true := by
      rw [TypeHost.booleanKind?_eq hflags ho] at hkind
      obtain ⟨heq, hlike⟩ := Option.filter_eq_some_iff.1 hkind
      obtain rfl := Option.some.inj heq
      exact hlike
    obtain ⟨leaf, childless, rfl⟩ := Outline.types_of_boolean hboolean
    obtain ⟨nodes, u, hrun, rfl, rfl⟩ := hwalked
    cases hrun
    exact ⟨C, D, .refl _, _, hscope, _, ho, s.reflector.store, [], .nil, rfl, .inl rfl⟩

/-- A filled shell and what was added to it. -/
theorem adds_filled {id : TypeId} {t : Reflecting σ}
    (hnone : s.reflector.cache.lookup id = none)
    (h : (shelled id s).reflector.Adds t.reflector) :
    s.reflector.Adds (filled s.reflector.store.size content t).reflector := by
  have hadds := (Reflector.adds_shelled hnone).trans h
  refine ⟨?_, fun m hm => ?_, hadds.lookup, hadds.new⟩
  · simp only [filled, Store.size_fill]
    exact hadds.size_le
  · exact (Store.node?_fill_of_ne content (Nat.ne_of_lt hm)).trans (hadds.node?_eq m hm)

/-- A type that is not cached is drawn one level down. -/
private theorem drawn_nested (hinj : Function.Injective host.typeId)
    (hflags : ¬ (host.typeFlags type).isPerPosition = true) {describe : Reflection σ TypeContent}
    (hdescribe : PicturesType host scopes type describe)
    {s' : Reflecting σ} {n : NodeRef} (D : s.reflector.Drawing host scopes)
    (hnone : s.reflector.cache.lookup (host.typeId type) = none)
    (hrun : (nested (host.typeId type) describe).run.run s = (.ok n, s')) :
    s'.reflector.Drawn host scopes ∧ s.reflector.Adds s'.reflector ∧
      s'.reflector.Stands host type n := by
  obtain ⟨_, content, t, hinner, rfl, rfl⟩ := described_of_run_nested hrun
  have hper := not_isPerPosition hinj hflags
  have hopen : host.booleanKind? type = none →
      (shelled (host.typeId type) s).reflector.NoBooleanOpen host := by
    intro hkind type' m hm hnode
    by_cases heq : host.typeId type' = host.typeId type
    · rw [hinj heq]
      exact hkind
    · have hm' : s.reflector.cache.lookup (host.typeId type') = some m :=
        (Cache.lookup_put_of_ne _ heq).symm.trans hm
      obtain ⟨content', hnode'⟩ := D.coherent.node? _ m (.inl hm')
      have hsame := (Store.node?_add hnode' _).symm.trans hnode
      rw [hsame] at hnode'
      exact D.noBooleanOpen type' m hm' hnode'
  obtain ⟨Ct, Dt, hadds, scope, hscope, o, ho, hshows⟩ := hdescribe _ content t.reflector
    (D.coherent.shelled (admits_uncached D.coherent hper hnone))
    (D.drawn.shelled D.coherent hnone) hopen ⟨t.report, hinner⟩
  have hcached : t.reflector.cache.lookup (host.typeId type) = some s.reflector.store.size :=
    hadds.lookup _ _ (Cache.lookup_put_self _ _ _)
  have hshell : t.reflector.store.node? s.reflector.store.size =
      some ⟨host.typeId type, none⟩ := hadds.node? (Store.node?_add_self _ _)
  exact ⟨Dt.filled hinj Ct hcached hshell hscope ho hshows, adds_filled hnone hadds,
    .inl hcached⟩

/-- The node of a type stands for it, if its description shows its outline. -/
private theorem drawing_typeNode (hinj : Function.Injective host.typeId)
    {describe : Reflection σ TypeContent}
    (hdescribe : PicturesType host scopes type describe)
    {s' : Reflecting σ} {n : NodeRef} (D : s.reflector.Drawing host scopes)
    (C' : s'.reflector.Coherent host .none) (hext : s.reflector.Extends s'.reflector)
    (hrun : (typeNode host request type describe).run.run s = (.ok n, s')) :
    s'.reflector.Drawing host scopes ∧ s.reflector.Adds s'.reflector ∧
      s'.reflector.Stands host type n := by
  cases obtains_of_run_typeNode hrun with
  | cached hlookup => exact ⟨D, .refl _, .inl hlookup⟩
  | literal report _ hflags =>
    exact ⟨D.add _ _, Reflector.adds_add _ _ _, .inr ⟨hflags, Store.node?_add_self _ _⟩⟩
  | nested hlookup hflags hrun =>
    obtain ⟨D', hadds, hstands⟩ := drawn_nested hinj hflags hdescribe D hlookup hrun
    refine ⟨⟨C', D', fun type' m hm hnode => ?_⟩, hadds, hstands⟩
    -- the open shells are those from before
    have hnode' := hext.shells m _ hnode
    rcases hadds.new _ m hm with hm' | hle
    · exact D.noBooleanOpen type' m hm' hnode'
    · exact absurd (Store.lt_size_of_node? hnode') (Nat.not_lt.2 hle)

/-- The walk of a type yields a node that stands for it. -/
theorem yields_drawing (hinj : Function.Injective host.typeId) (request : Request)
    (hscope : scopes request.scope) (room : Nat) :
    ∀ type, (drawing host scopes).Yields (fun _ => True) (reflect host request room type)
      fun r n => r.Stands host type n := by
  induction room with
  | zero =>
    intro type s n s' D _ hrun
    obtain ⟨C', hext, _⟩ := yields_reflect hinj request 0 type s n s' D.coherent trivial hrun
    refine drawing_typeNode hinj (fun s content r _ _ _ h => ?_) D C' hext hrun
    obtain ⟨report, h⟩ := h
    cases h
  | succ room ih =>
    intro type s n s' D _ hrun
    obtain ⟨C', hext, _⟩ :=
      yields_reflect hinj request (room + 1) type s n s' D.coherent trivial hrun
    exact drawing_typeNode hinj (pictures_content hscope ih) D C' hext hrun

end Walks

end Reflection

/-! ## Calls -/

/-- A call for a type in a scope. -/
def Call.AsksForType (scope : UInt32) : Call τ → Prop
  | .type request _ => request.scope = scope
  | _ => False

/-- A call for a type in one of some scopes, or a reset. -/
def Call.AsksForTypes (scopes : UInt32 → Prop) : Call τ → Prop
  | .type request _ => scopes request.scope
  | .classType _ _ => False
  | .reset => True

namespace Reflector

open Reflection (keepsBalance_reflect yields_drawing)

section Calls

variable {host : TypeHost τ σ} {scopes : UInt32 → Prop} {scope limit : UInt32} {r r' : Reflector}

/-- What holds between calls for types. -/
structure Settled (host : TypeHost τ σ) (scopes : UInt32 → Prop) (limit : UInt32)
    (r : Reflector) : Prop where
  atRest : r.AtRest
  consistent : r.Consistent host .none
  drawn : r.Drawn host scopes
  limit_eq : r.depth.limit = limit

theorem Settled.drawing (S : r.Settled host scopes limit) : r.Drawing host scopes where
  coherent := S.consistent.coherent
  drawn := S.drawn
  noBooleanOpen _ n _ hnode := absurd hnode (S.consistent.complete n _)

/-- Only the store and the cache matter for what is drawn. -/
private theorem Drawn.congr (D : r.Drawn host scopes) (hstore : r'.store = r.store)
    (hcache : r'.cache = r.cache) : r'.Drawn host scopes := by
  obtain ⟨store, cache, journal, depth⟩ := r
  obtain ⟨store', cache', journal', depth'⟩ := r'
  obtain rfl : store' = store := hstore
  obtain rfl : cache' = cache := hcache
  have hshows : ∀ {o : Outline τ σ} {content : TypeContent},
      Shows host ⟨store', cache', journal, depth⟩ (Alone ⟨store', cache', journal, depth⟩)
          o content →
        Shows host ⟨store', cache', journal', depth'⟩
          (Alone ⟨store', cache', journal', depth'⟩) o content :=
    fun h => h.imp (fun _ _ hn => hn) fun _ hb => ⟨hb.node?, hb.uncached⟩
  refine ⟨fun type n content hn hcontent => ?_, fun type type' b hb hb' =>
    D.owner type type' b ⟨⟨hb.alone.node?, hb.alone.uncached⟩, hb.last⟩
      ⟨⟨hb'.alone.node?, hb'.alone.uncached⟩, hb'.last⟩⟩
  obtain ⟨scope, hscope, o, ho, h⟩ := D.shows_outline type n content hn hcontent
  exact ⟨scope, hscope, o, ho, hshows h⟩

/-- Where nothing is cached nothing is drawn. -/
theorem drawn_of_cache_nil (hcache : r.cache = []) : r.Drawn host scopes := by
  have hnone : ∀ {id n}, r.cache.lookup id ≠ some n := by
    intro id n hn
    rw [hcache] at hn
    cases hn
  refine ⟨fun type n content hn => absurd hn hnone, fun type type' b hb => ?_⟩
  obtain ⟨u, _, hu, _⟩ := hb.last
  exact absurd hu hnone

theorem settled_fresh (host : TypeHost τ σ) (scopes : UInt32 → Prop) (limit : UInt32) :
    (ofLimit limit).Settled host scopes limit where
  atRest := ⟨rfl, rfl⟩
  consistent := consistent_ofLimit limit
  drawn := drawn_of_cache_nil rfl
  limit_eq := rfl

/-- A call for a type, successful or failed, leaves nodes that are drawn from
outlines, and what it answers stands for the type. -/
theorem Settled.after_type (hinj : Function.Injective host.typeId) (request : Request) (type : τ)
    (hscope : scopes request.scope) (S : r.Settled host scopes limit) :
    (r.reflectType host request type).reflector.Settled host scopes limit ∧
      ∀ n, (r.reflectType host request type).outcome = .ok n →
        (r.reflectType host request type).reflector.Stands host type n := by
  have hwalk := keepsBalance_reflect host request r.room type
  have hrest : (r.reflectType host request type).reflector.AtRest := S.atRest.run hwalk
  cases houtcome : (r.reflectType host request type).outcome with
  | error e =>
    have halike := alike_of_run_error S.atRest hwalk houtcome
    refine ⟨⟨hrest, S.consistent.congr halike.store_eq halike.cache_eq,
      S.drawn.congr halike.store_eq halike.cache_eq, halike.limit_eq.trans S.limit_eq⟩, ?_⟩
    intro n hn
    cases hn
  | ok n =>
    obtain ⟨s, hbalanced, ⟨m, hwalked, hrun⟩ | ⟨e, hrun⟩⟩ := S.atRest.run_cases hwalk
    · obtain ⟨C', _⟩ := S.consistent.run_type hinj hwalked
      obtain ⟨D', _, hstands⟩ := yields_drawing hinj request hscope r.room type ⟨r, .empty⟩ m s
        S.drawing trivial hwalked
      have hsame : r.reflectType host request type =
        ⟨.ok m, s.report, { s.reflector with journal := [] }⟩ := hrun
      rw [hsame] at hrest houtcome ⊢
      refine ⟨⟨hrest, C'.congr rfl rfl, D'.drawn.congr rfl rfl,
        hbalanced.limit_eq.trans S.limit_eq⟩, fun k hk => ?_⟩
      obtain rfl : m = k := (Except.ok.inj houtcome).trans (Except.ok.inj hk)
      exact hstands
    · have hsame : (r.reflectType host request type).outcome = .error e := by
        show (r.run _).outcome = _
        rw [hrun]
      rw [hsame] at houtcome
      cases houtcome

/-- A reset leaves nothing cached. -/
theorem Settled.after_reset (S : r.Settled host scopes limit) :
    r.reset.Settled host scopes limit where
  atRest := ⟨rfl, rfl⟩
  consistent := consistent_of_cache_nil rfl S.consistent.complete
  drawn := drawn_of_cache_nil rfl
  limit_eq := S.limit_eq

/-- After any calls for types and resets the cached nodes are drawn from the outlines of
their types. -/
theorem Reached.settled_of_types (hinj : Function.Injective host.typeId)
    (hr : Reached host (fun _ => Call.AsksForTypes scopes) limit r) :
    r.Settled host scopes limit := by
  induction hr with
  | start => exact settled_fresh host scopes limit
  | @after r c _ hc ih =>
    cases c with
    | type request type => exact (ih.after_type hinj request type hc).1
    | classType request type => exact hc.elim
    | reset => exact ih.after_reset

/-! ### One scope -/

theorem settled_ofLimit (host : TypeHost τ σ) (scope limit : UInt32) :
    (ofLimit limit).Settled host (Eq scope) limit :=
  settled_fresh host (Eq scope) limit

theorem Settled.reflectType (hinj : Function.Injective host.typeId) (request : Request) (type : τ)
    (S : r.Settled host (Eq request.scope) limit) :
    (r.reflectType host request type).reflector.Settled host (Eq request.scope) limit ∧
      ∀ n, (r.reflectType host request type).outcome = .ok n →
        (r.reflectType host request type).reflector.Stands host type n :=
  S.after_type hinj request type rfl

/-- After any calls for types in one scope the cached nodes are drawn from the
outlines of their types. -/
theorem Reached.settled (hinj : Function.Injective host.typeId)
    (hr : Reached host (fun _ => Call.AsksForType scope) limit r) :
    r.Settled host (Eq scope) limit := by
  induction hr with
  | start => exact settled_ofLimit host scope limit
  | @after r c _ hc ih =>
    cases c with
    | type request type =>
      obtain rfl : request.scope = scope := hc
      exact (ih.reflectType hinj request type).1
    | classType request type => exact hc.elim
    | reset => exact hc.elim

end Calls

end Reflector

end TypeDescription
