import TypeDescription.Proofs.Reflected.Asking
import TypeDescription.Proofs.Reflected.Collapse
import TypeDescription.Proofs.Reflected.Drawn

/-!
# Unions in the finished graph

A union is joined when its members were walked, and some of them may still be shells: types
in the middle of their walk.  No shell is boolean then, and it must not become boolean
later.  It does not: nothing is walked for a type of the boolean family, so no union can
have met its shell; and the shell of any other type, or of a class, is filled with what is
not boolean.

`Reflector.Collapsing` is the invariant.  Walks keep it (`yields_collapsing_reflect`), and
so do calls, whether they succeed or fail.
-/

namespace TypeDescription

variable {τ σ : Type}

namespace TypeHost

/-- What the complete node of a type may be: a class, or boolean as the type is. -/
def Allows (host : TypeHost τ σ) (type : τ) (content : TypeContent) : Prop :=
  content.kind = .classType ∨
    host.booleanKind? type = (some content.kind).filter TypeKind.isBooleanLike

/-- If there is an outline and it is of a union, it has the members that the host tells. -/
private def Unites (host : TypeHost τ σ) (type : τ) (outline? : Option (Outline τ σ)) : Prop :=
  ∀ o, outline? = some o → o.kind host = .union → o = .union (host.unionMembers type)

section Unites

variable {host : TypeHost τ σ} {type : τ} {o? o?' : Option (Outline τ σ)}

private theorem unites_ite {c : Prop} [Decidable c] (h : host.Unites type o?)
    (h' : host.Unites type o?') : host.Unites type (if c then o? else o?') := by
  split
  · exact h
  · exact h'

private theorem unites_bind {α : Type} {datum : Option α} {next : α → Option (Outline τ σ)}
    (h : ∀ a, host.Unites type (next a)) : host.Unites type (datum.bind next) := by
  cases datum with
  | none => intro o ho; cases ho
  | some a => exact h a

private theorem unites_map {α : Type} {datum : Option α} {g : α → Outline τ σ}
    (h : ∀ a, (g a).kind host ≠ .union) : host.Unites type (datum.map g) := by
  intro o ho hkind
  obtain ⟨a, _, rfl⟩ := Option.map_eq_some_iff.1 ho
  exact absurd hkind (h a)

private theorem unites_some {o : Outline τ σ} (h : o.kind host ≠ .union) :
    host.Unites type (some o) := by
  intro o' ho hkind
  obtain rfl := Option.some.inj ho
  exact absurd hkind h

private theorem unites_referenceOutline? (scope : UInt32) :
    host.Unites type (host.referenceOutline? scope type) := by
  refine unites_bind fun target => unites_ite (unites_some nofun) ?_
  refine unites_bind fun symbol => unites_ite (unites_map fun _ => nofun) (unites_some nofun)

private theorem unites_objectOutline? (scope : UInt32) :
    host.Unites type (host.objectOutline? scope type) := by
  refine unites_ite (unites_referenceOutline? scope) (unites_bind fun symbol => ?_)
  refine unites_ite (unites_some nofun) (unites_ite (unites_map fun _ => nofun) ?_)
  exact unites_ite (unites_some nofun) (unites_map fun _ => nofun)

/-- The outline of a union has the members that the host tells. -/
theorem eq_union_of_outline? {scope : UInt32} {o : Outline τ σ}
    (ho : host.outline? scope type = some o) (hkind : o.kind host = .union) :
    o = .union (host.unionMembers type) := by
  refine (?_ : host.Unites type (host.outline? scope type)) o ho hkind
  -- one flag after the other, in the order of the tests
  refine unites_ite (unites_some nofun) (unites_ite (unites_some nofun) ?_)
  refine unites_ite (unites_some nofun) (unites_ite (unites_some nofun) ?_)
  refine unites_ite ?_ (unites_ite (unites_some nofun) (unites_ite (unites_some nofun) ?_))
  · cases host.booleanLiteral? type with
    | none => exact unites_some nofun
    | some value => cases value <;> exact unites_some nofun
  refine unites_ite (unites_some nofun) (unites_ite (unites_some nofun) ?_)
  refine unites_ite (unites_some nofun) (unites_ite (unites_some nofun) ?_)
  refine unites_ite (unites_objectOutline? scope) (unites_ite ?_ (unites_some nofun))
  intro o ho _
  exact (Option.some.inj ho).symm

end Unites

end TypeHost

namespace Store

/-! ## Nodes of types -/

/-- A store goes on from another one: it has the same nodes, and maybe more. -/
structure Begins (s s' : Store) : Prop where
  size_le : s.size ≤ s'.size
  node?_eq : ∀ n, n < s.size → s'.node? n = s.node? n

/-- A node is that of a type: it carries its identity, and it is a shell or what the type
allows. -/
def Fits (host : TypeHost τ σ) (s : Store) (type : τ) (n : NodeRef) : Prop :=
  ∃ found, s.node? n = some ⟨host.typeId type, found⟩ ∧
    ∀ content, found = some content → host.Allows type content

section Fits

variable {host : TypeHost τ σ} {s s' s'' : Store} {type : τ} {n : NodeRef} {node : TypeNode}
  {id : TypeId} {content : TypeContent}

theorem Begins.refl (s : Store) : s.Begins s :=
  ⟨Nat.le_refl _, fun _ _ => rfl⟩

theorem Begins.trans (h : s.Begins s') (h' : s'.Begins s'') : s.Begins s'' where
  size_le := Nat.le_trans h.size_le h'.size_le
  node?_eq n hn := (h'.node?_eq n (Nat.lt_of_lt_of_le hn h.size_le)).trans (h.node?_eq n hn)

theorem Begins.node? (h : s.Begins s') (hn : s.node? n = some node) : s'.node? n = some node :=
  (h.node?_eq n (lt_size_of_node? hn)).trans hn

theorem Begins.booleanKind? (h : s.Begins s') (hn : n < s.size) :
    s'.booleanKind? n = s.booleanKind? n :=
  booleanKind?_congr (kind?_congr (h.node?_eq n hn))

theorem begins_add (s : Store) (node : TypeNode) : s.Begins (s.add node).2 where
  size_le := by
    rw [size_add]
    exact Nat.le_succ _
  node?_eq _ hn := node?_add_of_lt node hn

/-- To fill a new shell leaves the store from before. -/
theorem Begins.fill (h : s.Begins s') (hn : s.size ≤ n) (content : TypeContent) :
    s.Begins (s'.fill n content) where
  size_le := by
    rw [size_fill]
    exact h.size_le
  node?_eq m hm :=
    (node?_fill_of_ne content (Nat.ne_of_lt (Nat.lt_of_lt_of_le hm hn))).trans (h.node?_eq m hm)

theorem begins_normalizeUnion (s : Store) (members : List NodeRef) :
    s.Begins (s.normalizeUnion members).2 := by
  rcases s.normalizeUnion_cases members with ⟨_, heq, _⟩ | ⟨_, heq, _⟩
  · rw [heq]
    exact .refl s
  · rw [heq]
    exact s.begins_add _

theorem Fits.lt_size (h : s.Fits host type n) : n < s.size := by
  obtain ⟨_, hnode, _⟩ := h
  exact lt_size_of_node? hnode

theorem Fits.of_begins (h : s.Fits host type n) (hs : s.Begins s') : s'.Fits host type n := by
  obtain ⟨found, hnode, hallows⟩ := h
  exact ⟨found, hs.node? hnode, hallows⟩

/-- A shell is filled with what is not boolean. -/
theorem booleanKind?_fill (hshell : s.node? n = some ⟨id, none⟩)
    (hlike : content.kind.isBooleanLike = false) (m : NodeRef) :
    (s.fill n content).booleanKind? m = s.booleanKind? m := by
  by_cases heq : m = n
  · subst heq
    have hfilled := content?_of_node? (node?_fill_self hshell content)
    unfold booleanKind? kind?
    rw [hfilled, content?_of_node? hshell, Option.map_some, Option.filter_some, hlike]
    rfl
  · exact booleanKind?_congr (kind?_congr (node?_fill_of_ne content heq))

end Fits

end Store

namespace Reflector

/-! ## The invariant -/

/-- What is cached for a type is a node of it, and every union is what the nodes of its
members are joined to. -/
structure Collapsing (host : TypeHost τ σ) (r : Reflector) : Prop where
  cached : ∀ type n, r.cache.lookup (host.typeId type) = some n → r.store.Fits host type n
  unions : ∀ n id members, r.store.node? n = some ⟨id, some (.union members)⟩ →
    ∃ type nodes, host.typeId type = id ∧
      List.Forall₂ (r.store.Fits host) (host.unionMembers type) nodes ∧
        r.store.Collapses nodes members

section Collapsing

open Reflection (shelled filled)

variable {host : TypeHost τ σ} {r r' : Reflector} {s : Reflecting σ} {type : τ} {n : NodeRef}
  {content : TypeContent}

/-- New nodes that are no unions, some of them cached. -/
theorem Collapsing.of_begins (C : r.Collapsing host) (h : r.store.Begins r'.store)
    (hcached : ∀ type n, r'.cache.lookup (host.typeId type) = some n →
      r.cache.lookup (host.typeId type) = some n ∨ r'.store.Fits host type n)
    (hnew : ∀ n id members, r.store.size ≤ n →
      r'.store.node? n ≠ some ⟨id, some (.union members)⟩) : r'.Collapsing host where
  cached type n hn := (hcached type n hn).elim (fun hn => (C.cached type n hn).of_begins h) id
  unions n id members hn := by
    by_cases hlt : n < r.store.size
    · rw [h.node?_eq n hlt] at hn
      obtain ⟨type, nodes, hid, hnodes, hcollapses⟩ := C.unions n id members hn
      have hsize : ∀ m ∈ nodes, m < r.store.size :=
        forall_mem_of_forall₂ hnodes fun _ _ hm => hm.lt_size
      refine ⟨type, nodes, hid, hnodes.imp fun _ _ hm => hm.of_begins h, ?_⟩
      exact hcollapses.of_booleanKind? (fun m hm => h.booleanKind? (hsize m hm))
        fun m hm => h.booleanKind? (hcollapses.lt_size hsize m hm)
    · exact absurd hn (hnew n id members (Nat.le_of_not_lt hlt))

/-- An added node that is no union. -/
theorem Collapsing.add (C : r.Collapsing host) {node : TypeNode}
    (hnode : ∀ members, node.content ≠ some (.union members)) :
    Collapsing host { r with store := (r.store.add node).2 } := by
  refine C.of_begins (r.store.begins_add node) (fun _ _ hn => .inl hn) fun n id members hn heq => ?_
  have hlt := Store.lt_size_of_node? heq
  rw [Store.size_add] at hlt
  obtain rfl := Nat.le_antisymm (Nat.le_of_lt_succ hlt) hn
  rw [Store.node?_add_self] at heq
  exact hnode members (congrArg TypeNode.content (Option.some.inj heq))

/-- Joining makes no union. -/
theorem Collapsing.normalizeUnion (C : r.Collapsing host) (members : List NodeRef) :
    Collapsing host { r with store := (r.store.normalizeUnion members).2 } := by
  rcases r.store.normalizeUnion_cases members with ⟨_, heq, _⟩ | ⟨_, heq, _⟩
  · rw [heq]
    exact C
  · rw [heq]
    exact C.add fun _ => nofun

/-- What is cached under the identity of a new shell is the shell. -/
private theorem lookup_shelled (hinj : Function.Injective host.typeId) {type' : τ} {m : NodeRef}
    (hm : (shelled (host.typeId type) s).reflector.cache.lookup (host.typeId type') = some m) :
    s.reflector.cache.lookup (host.typeId type') = some m ∨
      type' = type ∧ m = s.reflector.store.size := by
  by_cases heq : host.typeId type' = host.typeId type
  · obtain rfl := hinj heq
    exact .inr ⟨rfl, Option.some.inj (hm.symm.trans (Cache.lookup_put_self _ _ _))⟩
  · exact .inl ((Cache.lookup_put_of_ne _ heq).symm.trans hm)

/-- A shell is a node of its type. -/
theorem Collapsing.shelled (hinj : Function.Injective host.typeId)
    (C : s.reflector.Collapsing host) :
    (shelled (host.typeId type) s).reflector.Collapsing host := by
  have hstore : Collapsing host { s.reflector with
      store := (s.reflector.store.add ⟨host.typeId type, none⟩).2 } := C.add fun _ => nofun
  refine ⟨fun type' m hm => ?_, hstore.unions⟩
  rcases lookup_shelled hinj hm with hm | ⟨rfl, rfl⟩
  · exact hstore.cached type' m hm
  · exact ⟨none, Store.node?_add_self _ _, fun _ => nofun⟩

/-- A shell is filled with what is not boolean, and if with a union, then with one that is
joined. -/
theorem Collapsing.filled (hinj : Function.Injective host.typeId)
    (C : s.reflector.Collapsing host)
    (hshell : s.reflector.store.node? n = some ⟨host.typeId type, none⟩)
    (hallows : host.Allows type content) (hlike : content.kind.isBooleanLike = false)
    (hunion : ∀ members, content = .union members → ∃ nodes,
      List.Forall₂ (s.reflector.store.Fits host) (host.unionMembers type) nodes ∧
        s.reflector.store.Collapses nodes members) :
    (filled n content s).reflector.Collapsing host := by
  have hboolean := Store.booleanKind?_fill hshell hlike
  have hfits : ∀ {type' m}, s.reflector.store.Fits host type' m →
      (s.reflector.store.fill n content).Fits host type' m := by
    rintro type' m ⟨found, hnode, hfound⟩
    by_cases heq : m = n
    · subst heq
      obtain ⟨hid, rfl⟩ := TypeNode.mk.inj (Option.some.inj (hshell.symm.trans hnode))
      obtain rfl := hinj hid
      refine ⟨some content, Store.node?_fill_self hshell content, fun _ hcontent => ?_⟩
      exact Option.some.inj hcontent ▸ hallows
    · exact ⟨found, (Store.node?_fill_of_ne content heq).trans hnode, hfound⟩
  have hjoined : ∀ {type' nodes members},
      List.Forall₂ (s.reflector.store.Fits host) (host.unionMembers type') nodes →
      s.reflector.store.Collapses nodes members →
        List.Forall₂ ((s.reflector.store.fill n content).Fits host) (host.unionMembers type')
            nodes ∧
          (s.reflector.store.fill n content).Collapses nodes members :=
    fun hnodes hcollapses => ⟨hnodes.imp fun _ _ hm => hfits hm,
      hcollapses.of_booleanKind? (fun m _ => hboolean m) fun m _ => hboolean m⟩
  refine ⟨fun type' m hm => hfits (C.cached type' m hm), fun m id members hm => ?_⟩
  by_cases heq : m = n
  · subst heq
    have hnode := (Store.node?_fill_self hshell content).symm.trans hm
    obtain ⟨hid, hcontent⟩ := TypeNode.mk.inj (Option.some.inj hnode)
    obtain ⟨nodes, hnodes, hcollapses⟩ := hunion members (Option.some.inj hcontent)
    exact ⟨type, nodes, hid, hjoined hnodes hcollapses⟩
  · have hnode := (Store.node?_fill_of_ne content heq).symm.trans hm
    obtain ⟨type', nodes, hid, hnodes, hcollapses⟩ := C.unions m id members hnode
    exact ⟨type', nodes, hid, hjoined hnodes hcollapses⟩

/-- A type of the boolean family fills its shell at once. -/
theorem Collapsing.filled_boolean (hinj : Function.Injective host.typeId)
    (C : s.reflector.Collapsing host) {t : Reflecting σ}
    (ht : t.reflector = (Reflection.shelled (host.typeId type) s).reflector)
    (hallows : host.Allows type content) (hlike : content.kind.isBooleanLike = true) :
    (Reflection.filled s.reflector.store.size content t).reflector.Collapsing host := by
  have hshell : t.reflector.store.node? s.reflector.store.size = some ⟨host.typeId type, none⟩ := by
    rw [ht]
    exact Store.node?_add_self _ _
  have hself := Store.node?_fill_self hshell content
  have hbegins : s.reflector.store.Begins t.reflector.store := by
    rw [ht]
    exact s.reflector.store.begins_add _
  refine C.of_begins (hbegins.fill (Nat.le_refl _) content) (fun type' m hm => ?_)
    fun m id members hle hm => ?_
  · have hm : t.reflector.cache.lookup (host.typeId type') = some m := hm
    rw [ht] at hm
    refine (lookup_shelled hinj hm).imp_right ?_
    rintro ⟨rfl, rfl⟩
    exact ⟨some content, hself, fun _ hcontent => Option.some.inj hcontent ▸ hallows⟩
  · -- the filled shell is the only new node
    have hlt := Store.lt_size_of_node? hm
    simp only [Reflection.filled, Store.size_fill, ht, Reflection.shelled, Store.size_add] at hlt
    obtain rfl := Nat.le_antisymm (Nat.le_of_lt_succ hlt) hle
    obtain ⟨-, hcontent⟩ := TypeNode.mk.inj (Option.some.inj (hself.symm.trans hm))
    rw [Option.some.inj hcontent] at hlike
    cases hlike

end Collapsing

end Reflector

/-! ## Walks -/

namespace Reflection

open Regime
open Reflector (Collapsing)

/-- Walks keep unions joined, and the nodes that were there. -/
def collapsing (host : TypeHost τ σ) : Regime (Reflecting σ) Reflector where
  view := Reflecting.reflector
  Holds := Collapsing host
  Grows r r' := r.store.Begins r'.store
  refl r := .refl r.store
  trans := .trans

section Walks

variable {host : TypeHost τ σ} {request : Request} {child : τ → Reflection σ NodeRef} {type : τ}
  {s s' : Reflecting σ} {n : NodeRef}

/-- A step whose results are nodes of a type. -/
def YieldsFitting (host : TypeHost τ σ) (type : τ) (step : Reflection σ NodeRef) : Prop :=
  (collapsing host).Yields (fun _ => True) step fun r n => r.store.Fits host type n

theorem stable_fits (type : τ) (n : NodeRef) :
    (collapsing (σ := σ) host).Stable fun r => r.store.Fits host type n :=
  fun _ _ h hn => hn.of_begins h

/-- The single steps of a description keep unions joined. -/
theorem asking_collapsing (host : TypeHost τ σ) (request : Request) :
    Asking host request fun _ _ _ P step =>
      (collapsing host).Yields (fun _ => True) step fun _ a => P a where
  pure h := Yields.pure fun _ _ => h
  bind h hnext := Yields.bind stable_true h fun a => (hnext a).weaken fun _ _ => trivial
  missing _ _ _ := by
    intro s a s' _ _ hrun
    cases hrun
  normalizeMembers members := by
    intro s a s' C _ hrun
    cases hrun
    exact ⟨C.normalizeUnion members, Store.begins_normalizeUnion _ _, trivial⟩
  unsupported _ hP := by
    intro s a s' C _ hrun
    cases hrun
    exact ⟨C, .refl _, hP⟩
  named _ _ _ hP := by
    intro s a s' C _ hrun
    obtain ⟨name, _, rfl, hsame⟩ := gives_named_iff.1 ⟨s'.report, hrun⟩
    refine ⟨?_, ?_, hP name⟩
    · show s'.reflector.Collapsing host
      rwa [hsame]
    · show s.reflector.store.Begins s'.reflector.store
      rw [hsame]
      exact .refl _

/-- A filled shell is a node of its type. -/
private theorem fits_filled {t : Reflecting σ} {content : TypeContent}
    (ht : (shelled (host.typeId type) s).reflector.store.Begins t.reflector.store)
    (hallows : host.Allows type content) :
    s.reflector.store.Begins (filled s.reflector.store.size content t).reflector.store ∧
      (filled s.reflector.store.size content t).reflector.store.Fits host type
        s.reflector.store.size := by
  have hshell := ht.node? (Store.node?_add_self _ _)
  refine ⟨((Store.begins_add _ _).trans ht).fill (Nat.le_refl _) content, some content,
    Store.node?_fill_self hshell content, fun _ hcontent => ?_⟩
  exact Option.some.inj hcontent ▸ hallows

/-- Walks of a list of types give a node of each. -/
private theorem yields_nodes (hchild : ∀ inner, YieldsFitting host inner (child inner))
    (types : List τ) :
    (collapsing host).Yields (fun _ => True) (types.mapM child) fun r nodes =>
      List.Forall₂ (r.store.Fits host) types nodes :=
  Yields.mapM stable_true stable_fits types fun type _ => hchild type

/-- Nodes are joined if their type is a union, and it is joined then. -/
private theorem collapsing_joined {u t : Reflector} {o : Outline τ σ} {scope : UInt32}
    {nodes : List NodeRef} (C : u.Collapsing host) (ho : host.outline? scope type = some o)
    (hnodes : List.Forall₂ (u.store.Fits host) o.types nodes)
    (ht : t = { u with store := (o.joined u.store nodes).2 }) :
    t.Collapsing host ∧ u.store.Begins t.store ∧
      ∀ members, o.build host (o.joined u.store nodes).1 = .union members → ∃ nodes,
        List.Forall₂ (t.store.Fits host) (host.unionMembers type) nodes ∧
          t.store.Collapses nodes members := by
  subst ht
  by_cases hkind : o.kind host = .union
  · obtain rfl := TypeHost.eq_union_of_outline? ho hkind
    have hbegins := Store.begins_normalizeUnion u.store nodes
    refine ⟨C.normalizeUnion nodes, hbegins, fun members hmembers => ⟨nodes, ?_, ?_⟩⟩
    · exact hnodes.imp fun _ _ hn => hn.of_begins hbegins
    · obtain rfl := TypeContent.union.inj hmembers
      exact Store.normalizeUnion_collapses
        (forall_mem_of_forall₂ hnodes fun _ _ hn => hn.lt_size)
  · have hjoined : o.joined u.store nodes = (nodes, u.store) := by
      cases o with
      | union members => exact absurd rfl hkind
      | _ => rfl
    rw [hjoined]
    refine ⟨C, .refl _, fun members hmembers => absurd ?_ hkind⟩
    rw [← o.kind_build host nodes, hmembers]
    rfl

/-- The walk of a type that is not cached keeps unions joined. -/
private theorem collapsing_nested (hinj : Function.Injective host.typeId)
    (hchild : ∀ inner, YieldsFitting host inner (child inner))
    (hflags : ¬ (host.typeFlags type).isPerPosition = true) (C : s.reflector.Collapsing host)
    (hrun : (nested (host.typeId type) (content host request child type (host.typeId type)
      (host.typeFlags type))).run.run s = (.ok n, s')) :
    s'.reflector.Collapsing host ∧ s.reflector.store.Begins s'.reflector.store ∧
      s'.reflector.store.Fits host type n := by
  obtain ⟨_, described, t, hdescribed, rfl, rfl⟩ := described_of_run_nested hrun
  obtain ⟨o, ho, nodes, u, hnodes, rfl, ht⟩ := (describes_content _ _ _).1 ⟨t.report, hdescribed⟩
  have hallows : host.Allows type (o.build host (o.joined u.reflector.store nodes).1) := by
    rw [TypeHost.Allows, Outline.kind_build, TypeHost.booleanKind?_eq hflags ho]
    exact .inr rfl
  cases hlike : (o.kind host).isBooleanLike with
  | true =>
    -- nothing was walked
    obtain ⟨leaf, childless, rfl⟩ := Outline.types_of_boolean hlike
    cases hnodes
    exact ⟨C.filled_boolean hinj ht hallows hlike, fits_filled (ht ▸ .refl _) hallows⟩
  | false =>
    obtain ⟨Cu, hu, hfits⟩ := yields_nodes hchild o.types (shelled (host.typeId type) s) nodes u
      (C.shelled hinj) trivial hnodes
    obtain ⟨Ct, hbegins, hunion⟩ := collapsing_joined Cu ho hfits ht
    have hshelled := hu.trans hbegins
    refine ⟨Ct.filled hinj (hshelled.node? (Store.node?_add_self _ _)) hallows ?_ hunion,
      fits_filled hshelled hallows⟩
    rwa [Outline.kind_build]

/-- A literal is no union. -/
private theorem content_literalNode_ne_union (host : TypeHost τ σ) (type : τ)
    (members : List NodeRef) : (literalNode host type).content ≠ some (.union members) := by
  unfold literalNode literalContent?
  split
  · cases host.stringLiteral? type <;> nofun
  · cases host.numberLiteral? type <;> nofun

/-- The node of a type keeps unions joined, if to make it does. -/
private theorem collapsing_typeNode {describe : Reflection σ TypeContent}
    (hnested : ∀ s n s', s.reflector.Collapsing host →
      ¬ (host.typeFlags type).isPerPosition = true →
        (nested (host.typeId type) describe).run.run s = (.ok n, s') →
          s'.reflector.Collapsing host ∧ s.reflector.store.Begins s'.reflector.store ∧
            s'.reflector.store.Fits host type n) :
    YieldsFitting host type (typeNode host request type describe) := by
  intro s n s' C _ hrun
  cases obtains_of_run_typeNode hrun with
  | cached hlookup => exact ⟨C, .refl _, C.cached type n hlookup⟩
  | literal report _ hflags =>
    refine ⟨C.add (content_literalNode_ne_union host type), Store.begins_add _ _, _,
      Store.node?_add_self _ _, fun content hcontent => .inr ?_⟩
    rw [TypeHost.booleanKind?, if_pos hflags, Option.filter_some,
      isBooleanLike_literalNode host type hcontent]
    rfl
  | nested hlookup hflags hrun => exact hnested s n s' C hflags hrun

/-- Walks keep unions joined. -/
theorem yields_collapsing_reflect (hinj : Function.Injective host.typeId) (request : Request)
    (room : Nat) : ∀ type, YieldsFitting host type (reflect host request room type) := by
  induction room with
  | zero =>
    intro type
    refine collapsing_typeNode fun s n s' C hflags hrun => ?_
    obtain ⟨_, _, _, hdescribed, _⟩ := described_of_run_nested hrun
    cases hdescribed
  | succ room ih =>
    intro type
    exact collapsing_typeNode fun s n s' C hflags hrun => collapsing_nested hinj ih hflags C hrun

/-- The walk of a class keeps unions joined. -/
theorem collapsing_class (hinj : Function.Injective host.typeId) (request : Request) (room : Nat)
    (C : s.reflector.Collapsing host)
    (hrun : (nested (host.typeId type) (classContent host (reflect host request room) type
      (host.typeId type))).run.run s = (.ok n, s')) : s'.reflector.Collapsing host := by
  obtain ⟨_, content, t, hdescribed, rfl, rfl⟩ := described_of_run_nested hrun
  have hclass : (collapsing host).Yields (fun _ => True)
      (classContent host (reflect host request room) type (host.typeId type))
        fun _ content => content.kind = .classType :=
    (asking_collapsing host request).classContent fun inner =>
      (yields_collapsing_reflect hinj request room inner).imp fun _ _ _ => trivial
  obtain ⟨Ct, hbegins, hkind⟩ := hclass (shelled (host.typeId type) s) content t (C.shelled hinj)
    trivial hdescribed
  refine Ct.filled hinj (hbegins.node? (Store.node?_add_self _ _)) (.inl hkind) ?_ ?_
  · rw [hkind]
    rfl
  · rintro members rfl
    cases hkind

end Walks

end Reflection

/-! ## Calls -/

namespace Reflector

open Reflection (KeepsBalance yields_collapsing_reflect collapsing_class)

section Calls

variable {host : TypeHost τ σ} {r : Reflector}

/-- A call keeps unions joined if its walk does. -/
private theorem Collapsing.run (hr : r.AtRest) (C : r.Collapsing host)
    {walk : Reflection σ NodeRef} (hwalk : KeepsBalance walk)
    (hok : ∀ n s, walk.run.run ⟨r, .empty⟩ = (.ok n, s) → s.reflector.Collapsing host) :
    (r.run walk).reflector.Collapsing host := by
  cases houtcome : (r.run walk).outcome with
  | error e =>
    have halike := alike_of_run_error hr hwalk houtcome
    refine ⟨?_, ?_⟩
    · rw [halike.store_eq, halike.cache_eq]
      exact C.cached
    · rw [halike.store_eq]
      exact C.unions
  | ok n =>
    obtain ⟨s, _, ⟨m, hwalked, hrun⟩ | ⟨e, hrun⟩⟩ := hr.run_cases hwalk
    · rw [hrun]
      exact ⟨(hok m s hwalked).cached, (hok m s hwalked).unions⟩
    · rw [hrun] at houtcome
      cases houtcome

theorem Collapsing.after (hinj : Function.Injective host.typeId) (hr : r.AtRest)
    (C : r.Collapsing host) (c : Call τ) : (r.after host c).Collapsing host := by
  cases c with
  | type request type =>
    refine C.run hr (Reflection.keepsBalance_reflect host request _ type) fun n s hrun => ?_
    exact (yields_collapsing_reflect hinj request _ type ⟨r, .empty⟩ n s C trivial hrun).1
  | classType request type =>
    show (r.reflectClass host request type).reflector.Collapsing host
    cases hcached : r.cachedClass? (host.typeId type) with
    | some n =>
      rw [reflectClass_of_cached hcached]
      exact C
    | none =>
      rw [reflectClass_of_not_cached hcached]
      refine C.run hr (Reflection.keepsBalance_class host request _ type _) fun n s hrun => ?_
      exact collapsing_class (s := ⟨r, .empty⟩) hinj request _ C hrun
  | reset => exact ⟨fun _ _ => nofun, C.unions⟩

theorem Reached.collapsing {allowed : Reflector → Call τ → Prop} {limit : UInt32}
    (hinj : Function.Injective host.typeId) (hr : Reached host allowed limit r) :
    r.Collapsing host := by
  induction hr with
  | start =>
    refine ⟨fun _ _ => nofun, fun n id members hn => ?_⟩
    exact absurd (Store.lt_size_of_node? hn) (Nat.not_lt_zero n)
  | after hr _ ih => exact ih.after hinj hr.atRest _

end Calls

/-- After every sequence of calls, each union in the store is collapsed.  There are nodes of
the host's members, one for each and in their order, all complete; they are boolean as the
members are, but for the nodes of classes.  The union is what these nodes are joined to: those
that are not boolean in their order, and behind them one `boolean` if the others cover it,
else the others in their order, all of one truth value. -/
theorem union_collapsed (p : Program) {allowed : Reflector → Call TypeId → Prop} {limit : UInt32}
    {r : Reflector} (hr : Reached p.host allowed limit r) {n : NodeRef} {id : TypeId}
    {members : List NodeRef} (hn : r.store.node? n = some ⟨id, some (.union members)⟩) :
    ∃ nodes,
      List.Forall₂ (fun member m => ∃ content, r.store.node? m = some ⟨member, some content⟩ ∧
        (content.kind = .classType ∨
          p.host.booleanKind? member = (some content.kind).filter TypeKind.isBooleanLike))
        (p.host.unionMembers id) nodes ∧
      r.store.Collapses nodes members := by
  obtain ⟨old, C⟩ := hr.consistent Function.injective_id
  obtain ⟨_, nodes, rfl, hnodes, hcollapses⟩ :=
    (hr.collapsing Function.injective_id).unions n id members hn
  refine ⟨nodes, hnodes.imp fun member m hm => ?_, hcollapses⟩
  obtain ⟨found, hnode, hallows⟩ := hm
  cases found with
  | none => exact absurd hnode (C.complete m _)
  | some content => exact ⟨content, hnode, hallows content rfl⟩

/-- A program with a union of both truth values, a string and a tuple that contains the
union. -/
def toggle : Program where
  types := [
    ⟨⟨1⟩, .union [⟨2⟩, ⟨3⟩, ⟨4⟩, ⟨5⟩], none, none, none⟩,
    ⟨⟨2⟩, .booleanLiteral true, none, none, none⟩,
    ⟨⟨3⟩, .reference ⟨6⟩ [⟨1⟩], none, none, none⟩,
    ⟨⟨4⟩, .booleanLiteral false, none, none, none⟩,
    ⟨⟨5⟩, .string, none, none, none⟩,
    ⟨⟨6⟩, .tupleTarget, none, none, none⟩]
  symbols := Table.empty

/-- The union is a shell when its tuple is filled; in the end the tuple and the string stand
in front, and a `boolean` behind them. -/
theorem union_collapsed_toggle :
    let r := (ofLimit 256).after toggle.host (.type default ⟨1⟩)
    r.store.node? 0 = some ⟨⟨1⟩, some (.union [2, 4, 5])⟩ ∧
      r.store.content? 2 = some (.tuple [0]) ∧ r.store.kind? 5 = some .boolean ∧
      ∃ nodes,
        List.Forall₂ (fun member m => ∃ content, r.store.node? m = some ⟨member, some content⟩ ∧
          (content.kind = .classType ∨
            toggle.host.booleanKind? member = (some content.kind).filter TypeKind.isBooleanLike))
          (toggle.host.unionMembers ⟨1⟩) nodes ∧
        r.store.Collapses nodes [2, 4, 5] := by
  intro r
  have hr : Reached toggle.host (fun _ _ => True) 256 r := .after .start trivial
  have hunion : r.store.node? 0 = some ⟨⟨1⟩, some (.union [2, 4, 5])⟩ := by decide +kernel
  exact ⟨hunion, by decide +kernel, by decide +kernel, union_collapsed toggle hr hunion⟩

end Reflector

end TypeDescription
