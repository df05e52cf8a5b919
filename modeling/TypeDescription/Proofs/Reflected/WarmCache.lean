import TypeDescription.Proofs.Reflected.Drawn

/-!
# Warm caches

What a reflector has cached for types in one scope changes no later answer in that
scope (`reflectType_of_fresh`): a type that a fresh reflector can reflect within the
limit can be reflected with the cached nodes too, and the graph has the same form.

That it can be reflected is a simulation.  The cached types are `Closed`: whatever is
walked for one of them is a literal or cached too.  So the walk with the cache is
`Ahead` of the fresh one by just these types: where the fresh walk enters one of them,
it caches others of them only, and the walk with the cache stays where it is; and
where the fresh walk enters another type, both do, equally deep.

That the graphs have the same form needs no walk: the nodes that two reflectors have
cached for one type are both drawn from its outline (`Settled.isomorphism`).
-/

namespace TypeDescription

variable {τ σ : Type}

namespace Reflector

/-! ## Cached types -/

/-- A node is cached for a type. -/
def Knows (r : Reflector) (id : TypeId) : Prop :=
  ∃ n, r.cache.lookup id = some n

/-- Types that lead to each other and to literals only. -/
structure Closed (host : TypeHost τ σ) (scope : UInt32) (known : TypeId → Prop) : Prop where
  not_literal : ∀ type, known (host.typeId type) → ¬ (host.typeFlags type).isPerPosition = true
  inner : ∀ type o, known (host.typeId type) → host.outline? scope type = some o →
    ∀ inner ∈ o.types, (host.typeFlags inner).isPerPosition = true ∨ known (host.typeId inner)

/-- The cached types are closed. -/
theorem Settled.closed {host : TypeHost τ σ} {scope limit : UInt32} {r : Reflector}
    (S : r.Settled host (Eq scope) limit) : Closed host scope r.Knows := by
  refine ⟨fun type hknown hflags => ?_, fun type o hknown ho inner hinner => ?_⟩
  · obtain ⟨n, hn⟩ := hknown
    exact S.consistent.coherent.asked _ n (.inl hn) ⟨type, rfl, hflags⟩
  · obtain ⟨n, hn⟩ := hknown
    obtain ⟨content, hnode⟩ := S.consistent.node? (.inl hn)
    obtain ⟨_, rfl, o', ho', _, nodes, hnodes, _⟩ :=
      S.drawn.shows_outline type n content hn (Store.content?_of_node? hnode)
    obtain rfl : o = o' := Option.some.inj (ho.symm.trans ho')
    have hall := forall_mem_of_forall₂ (P := fun inner =>
      (host.typeFlags inner).isPerPosition = true ∨ r.Knows (host.typeId inner)) hnodes.flip
      fun n inner h => h.1.elim (fun hn => .inr ⟨n, hn⟩) fun h => .inl h.1
    exact hall inner hinner

/-- The second reflector has cached the known types as well, and is otherwise equally
far. -/
structure Ahead (known : TypeId → Prop) (r r' : Reflector) : Prop where
  depth_eq : r'.depth.depth = r.depth.depth
  limit_eq : r'.depth.limit = r.depth.limit
  knows_iff : ∀ id, r'.Knows id ↔ r.Knows id ∨ known id

theorem Ahead.room_eq {known : TypeId → Prop} {r r' : Reflector} (h : r.Ahead known r') :
    r'.room = r.room := by
  unfold room
  rw [h.depth_eq, h.limit_eq]

end Reflector

namespace Reflection

open Regime
open Reflector (Knows Closed Ahead)

section Simulation

variable {host : TypeHost τ σ} {request request' : Request} {known : TypeId → Prop}
  {s s' t : Reflecting σ} {type : τ} {n : NodeRef}

/-- What is cached, one level down. -/
private theorem knows_shelled_iff {id id' : TypeId} :
    (shelled id s).reflector.Knows id' ↔ s.reflector.Knows id' ∨ id' = id := by
  unfold Knows
  by_cases heq : id' = id
  · subst heq
    simp [shelled, Cache.lookup_put_self]
  · simp [shelled, Cache.lookup_put_of_ne _ heq, heq]

/-! ## Walks among known types -/

/-- The same types are cached, but for known ones. -/
def SameBeside (known : TypeId → Prop) (r r' : Reflector) : Prop :=
  ∀ id, r'.Knows id ∨ known id ↔ r.Knows id ∨ known id

/-- Walks that cache known types only. -/
def among (known : TypeId → Prop) : Regime (Reflecting σ) Reflector where
  view := Reflecting.reflector
  Holds _ := True
  Grows := SameBeside known
  refl _ _ := Iff.rfl
  trans h h' id := (h' id).trans (h id)

/-- The node of a known type or of a literal. -/
private theorem among_typeNode {describe : Reflection σ TypeContent}
    (htype : (host.typeFlags type).isPerPosition = true ∨ known (host.typeId type))
    (hdescribe : ∀ s content r, known (host.typeId type) → Gives describe s content r →
      SameBeside known s.reflector r) :
    (among known).Yields (fun _ => True) (typeNode host request type describe)
      fun _ _ => True := by
  intro s n s' _ _ hrun
  refine ⟨trivial, ?_, trivial⟩
  cases obtains_of_run_typeNode hrun with
  | cached _ => exact fun _ => Iff.rfl
  | literal _ _ _ => exact fun _ => Iff.rfl
  | nested hlookup hflags hrun =>
    have hknown := htype.resolve_left hflags
    obtain ⟨_, content, t, hinner, rfl, rfl⟩ := described_of_run_nested hrun
    intro id
    refine (hdescribe _ _ _ hknown ⟨t.report, hinner⟩ id).trans ?_
    rw [knows_shelled_iff]
    constructor
    · rintro ((h | rfl) | h)
      · exact .inl h
      · exact .inr hknown
      · exact .inr h
    · exact fun h => h.imp_left .inl

/-- The walk of a known type or of a literal caches known types only. -/
theorem yields_among (hclosed : Closed host request.scope known) (room : Nat) :
    ∀ type, (host.typeFlags type).isPerPosition = true ∨ known (host.typeId type) →
      (among known).Yields (fun _ => True) (reflect host request room type) fun _ _ => True := by
  induction room with
  | zero =>
    intro type htype
    refine among_typeNode htype fun s content r _ h => ?_
    obtain ⟨report, h⟩ := h
    cases h
  | succ room ih =>
    intro type htype
    refine among_typeNode htype fun s content r hknown h => ?_
    obtain ⟨o, ho, nodes, u, hrun, rfl, rfl⟩ := (describes_content _ _ _).1 h
    have hinner := hclosed.inner type o hknown ho
    have hall := Yields.mapM stable_true (fun _ _ => stable_true) o.types
      fun inner hmem => ih inner (hinner inner hmem)
    exact (hall s nodes u trivial trivial hrun).2.1

/-! ## Walks ahead of others -/

/-- Where the first step succeeds, the second one does, and stays ahead. -/
def Follows (known : TypeId → Prop) {α : Type} (step step' : Reflection σ α) : Prop :=
  ∀ s s' a t, s.reflector.Ahead known s'.reflector → step.run.run s = (.ok a, t) →
    ∃ a' t', step'.run.run s' = (.ok a', t') ∧ t.reflector.Ahead known t'.reflector

theorem Follows.mapM {child child' : τ → Reflection σ NodeRef}
    (h : ∀ type, Follows known (child type) (child' type)) (types : List τ) :
    Follows known (types.mapM child) (types.mapM child') := by
  induction types with
  | nil =>
    intro s s' nodes t hs hrun
    cases hrun
    exact ⟨[], s', rfl, hs⟩
  | cons type types ih =>
    intro s s' nodes t hs hrun
    rw [List.mapM_cons] at hrun ⊢
    obtain ⟨n, u, hn, hrun⟩ := ok_of_run_bind hrun
    obtain ⟨rest, v, hrest, hrun⟩ := ok_of_run_bind hrun
    cases hrun
    obtain ⟨n', u', hn', hu⟩ := h type s s' n u hs hn
    obtain ⟨rest', v', hrest', hv⟩ := ih u u' rest t hu hrest
    refine ⟨n' :: rest', v', ?_, hv⟩
    rw [run_bind_of_ok hn', run_bind_of_ok hrest']
    rfl

/-- A description stays ahead if the walks of the types in it do. -/
theorem follows_content (hscope : request'.scope = request.scope)
    {child child' : τ → Reflection σ NodeRef}
    (h : ∀ type, Follows known (child type) (child' type)) (type : τ) (id : TypeId) :
    Follows known (content host request child type id (host.typeFlags type))
      (content host request' child' type id (host.typeFlags type)) := by
  intro s s' c t hs hrun
  obtain ⟨o, ho, nodes, u, hnodes, rfl, hreflector⟩ :=
    (describes_content _ _ _).1 ⟨t.report, hrun⟩
  obtain ⟨nodes', u', hnodes', hu⟩ := Follows.mapM h o.types s s' nodes u hs hnodes
  rw [← hscope] at ho
  obtain ⟨report, hrun'⟩ :=
    (describes_content _ _ _).2 ⟨o, ho, nodes', u', hnodes', rfl, rfl⟩
  refine ⟨_, _, hrun', ?_⟩
  rw [hreflector]
  exact ⟨hu.depth_eq, hu.limit_eq, hu.knows_iff⟩

/-- One level down the second walk stays ahead. -/
theorem follows_nested (id : TypeId) {describe describe' : Reflection σ TypeContent}
    (h : Follows known describe describe') :
    Follows known (nested id describe) (nested id describe') := by
  intro s s' n t hs hrun
  obtain ⟨hlt, c, u, hinner, rfl, rfl⟩ := described_of_run_nested hrun
  have hlt' : s'.reflector.depth.depth < s'.reflector.depth.limit := by
    rw [hs.depth_eq, hs.limit_eq]
    exact hlt
  have hshelled : (shelled id s).reflector.Ahead known (shelled id s').reflector := by
    refine ⟨?_, ?_, fun id' => ?_⟩
    · simp only [shelled, DepthCounter.enter_of_lt hlt, DepthCounter.enter_of_lt hlt',
        hs.depth_eq]
    · simp only [shelled, DepthCounter.enter_of_lt hlt, DepthCounter.enter_of_lt hlt',
        hs.limit_eq]
    · rw [knows_shelled_iff, knows_shelled_iff, hs.knows_iff, or_right_comm]
  obtain ⟨c', u', hinner', hu⟩ := h _ _ c u hshelled hinner
  refine ⟨_, _, run_nested_ok hlt' hinner', ?_, ?_, hu.knows_iff⟩
  · exact DepthCounter.leave_congr hu.depth_eq
  · exact (DepthCounter.limit_leave _).trans
      (hu.limit_eq.trans (DepthCounter.limit_leave _).symm)

/-- A known type is cached here, and there only known types are. -/
private theorem follows_known (hclosed : Closed host request.scope known)
    (hknown : known (host.typeId type)) (room : Nat) :
    Follows known (reflect host request room type) (reflect host request' room type) := by
  intro s s' n t hs hrun
  obtain ⟨n', hlookup'⟩ := (hs.knows_iff _).2 (.inr hknown)
  have hbalanced := keepsBalance_reflect host request room type s
  rw [hrun] at hbalanced
  have hsame := (yields_among hclosed room type (.inr hknown) s n t trivial trivial hrun).2.1
  refine ⟨n', s', ?_, ?_, ?_, fun id => ?_⟩
  · cases room <;> exact run_typeNode_of_lookup hlookup'
  · exact hs.depth_eq.trans hbalanced.depth_eq.symm
  · exact hs.limit_eq.trans hbalanced.limit_eq.symm
  · exact (hs.knows_iff id).trans (hsame id).symm

/-- The node of a type that is not known. -/
private theorem follows_typeNode {describe describe' : Reflection σ TypeContent}
    (hunknown : ¬ known (host.typeId type)) (h : Follows known describe describe') :
    Follows known (typeNode host request type describe)
      (typeNode host request' type describe') := by
  intro s s' n t hs hrun
  have hiff := hs.knows_iff (host.typeId type)
  have hnone : s.reflector.cache.lookup (host.typeId type) = none →
      s'.reflector.cache.lookup (host.typeId type) = none := by
    intro hlookup
    rw [Option.eq_none_iff_forall_not_mem]
    intro node' hnode'
    rcases hiff.1 ⟨node', hnode'⟩ with ⟨node, hnode⟩ | hknown
    · rw [hlookup] at hnode
      cases hnode
    · exact hunknown hknown
  cases obtains_of_run_typeNode hrun with
  | cached hlookup =>
    obtain ⟨n', hlookup'⟩ := hiff.2 (.inl ⟨n, hlookup⟩)
    exact ⟨n', s', run_typeNode_of_lookup hlookup', hs⟩
  | literal _ hlookup hflags =>
    obtain ⟨_, hrun'⟩ := run_typeNode_literal (hnone hlookup) hflags
    exact ⟨_, _, hrun', hs.depth_eq, hs.limit_eq, hs.knows_iff⟩
  | nested hlookup hflags hrun =>
    rw [run_typeNode_nested (hnone hlookup) hflags]
    exact follows_nested _ h s s' n t hs hrun

/-- The walk with the known types cached stays ahead. -/
theorem follows_reflect (hclosed : Closed host request.scope known)
    (hscope : request'.scope = request.scope) (room : Nat) :
    ∀ type, Follows known (reflect host request room type) (reflect host request' room type) := by
  -- the two walks part only where the first one enters a known type
  induction room with
  | zero =>
    intro type
    by_cases hknown : known (host.typeId type)
    · exact follows_known hclosed hknown 0
    · refine follows_typeNode hknown fun s s' c t _ hrun => ?_
      cases hrun
  | succ room ih =>
    intro type
    by_cases hknown : known (host.typeId type)
    · exact follows_known hclosed hknown (room + 1)
    · exact follows_typeNode hknown (follows_content hscope ih type _)

end Simulation

end Reflection

/-- The host tells what each literal string or number is. -/
def TypeHost.TellsLiterals (host : TypeHost τ σ) : Prop :=
  ∀ type, (host.typeFlags type).isPerPosition = true →
    ∃ kind, (literalNode host type).kind? = some kind ∧ kind.isLiteral = true

namespace Reflector

section Same

variable {host : TypeHost τ σ} {scope limit limit' : UInt32} {r r' : Reflector}

/-! ## Graphs of two reflectors -/

/-- Nodes of two reflectors that stand for one type, or that were made for one
union. -/
inductive Counterparts (host : TypeHost τ σ) (r r' : Reflector) (n n' : NodeRef) : Prop
  | type {type : τ} : r.Stands host type n → r'.Stands host type n' → Counterparts host r r' n n'
  | made {type : τ} : r.Owns host type n → r'.Owns host type n' → Counterparts host r r' n n'

theorem Counterparts.symm {n n' : NodeRef} (h : Counterparts host r r' n n') :
    Counterparts host r' r n' n := by
  cases h with
  | type hn hn' => exact .type hn' hn
  | made hn hn' => exact .made hn' hn

/-- What two reflectors show of one outline has the same form. -/
private theorem alike_of_shows {type : τ} {o : Outline τ σ} {content content' : TypeContent}
    {n n' : NodeRef} (hn : r.cache.lookup (host.typeId type) = some n)
    (hn' : r'.cache.lookup (host.typeId type) = some n')
    (hcontent : r.store.content? n = some content)
    (hcontent' : r'.store.content? n' = some content')
    (h : r.Shows host r.Alone o content) (h' : r'.Shows host r'.Alone o content') :
    content.Alike (Counterparts host r r') content' := by
  obtain ⟨s, nodes, hnodes, rfl, hmade⟩ := h
  obtain ⟨s', nodes', hnodes', rfl, hmade'⟩ := h'
  have hrelated : List.Forall₂ (s.AgreeAlong s' (Counterparts host r r')) nodes nodes' :=
    forall₂_trans (fun _ _ _ hm hm' => ⟨.type hm.1 hm'.1, hm'.2.trans hm.2.symm⟩) hnodes.flip
      hnodes'
  rcases o.joined_related host hrelated with ⟨all, all', hall, heq, heq'⟩ |
    ⟨hunion, others, others', hothers, heq, heq'⟩
  · rw [heq, heq']
    exact o.alike_build host hall
  · -- both unions got a `boolean` of their own
    rw [heq, hunion] at hcontent
    rw [heq', hunion] at hcontent'
    rw [heq] at hmade
    rw [heq'] at hmade'
    have howns : r.Owns host type s.size :=
      ⟨hmade.resolve_left (s.add_ne _), n, _, hn, hcontent, List.getLast?_concat⟩
    have howns' : r'.Owns host type s'.size :=
      ⟨hmade'.resolve_left (s'.add_ne _), n', _, hn', hcontent', List.getLast?_concat⟩
    rw [heq, heq']
    exact o.alike_build host (List.rel_append hothers (.cons (.made howns howns') .nil))

/-- Counterparts have one identity and the same form. -/
theorem Settled.alike_of_counterparts (S : r.Settled host (Eq scope) limit)
    (S' : r'.Settled host (Eq scope) limit') {n n' : NodeRef} (h : Counterparts host r r' n n') :
    ∃ id content content', r.store.node? n = some ⟨id, some content⟩ ∧
      r'.store.node? n' = some ⟨id, some content'⟩ ∧
        content.Alike (Counterparts host r r') content' := by
  cases h with
  | @type type hn hn' =>
    rcases hn with hn | ⟨hflags, hnode⟩ <;> rcases hn' with hn' | ⟨hflags', hnode'⟩
    · obtain ⟨content, hnode⟩ := S.consistent.node? (.inl hn)
      obtain ⟨content', hnode'⟩ := S'.consistent.node? (.inl hn')
      have hcontent := Store.content?_of_node? hnode
      have hcontent' := Store.content?_of_node? hnode'
      obtain ⟨_, rfl, o, ho, hshows⟩ := S.drawn.shows_outline type n content hn hcontent
      obtain ⟨_, rfl, o', ho', hshows'⟩ := S'.drawn.shows_outline type n' content' hn' hcontent'
      obtain rfl : o = o' := Option.some.inj (ho.symm.trans ho')
      exact ⟨_, content, content', hnode, hnode',
        alike_of_shows hn hn' hcontent hcontent' hshows hshows'⟩
    · exact absurd hflags' (S.closed.not_literal type ⟨n, hn⟩)
    · exact absurd hflags (S'.closed.not_literal type ⟨n', hn'⟩)
    · exact ⟨_, _, _, hnode, hnode', .leaf (children_literalNode host type rfl)⟩
  | made hn hn' => exact ⟨_, _, _, hn.alone.node?, hn'.alone.node?, .leaf rfl⟩

/-- A node that is no literal is cached for the types that it stands for, and so are
its counterparts. -/
private theorem cached_of_stands (hliteral : host.TellsLiterals)
    (S : r.Settled host (Eq scope) limit) {type : τ} {n m : NodeRef} {kind : TypeKind}
    (hkind : r.store.kind? n = some kind)
    (hnot : kind.isLiteral = false) (hn : r.Stands host type n) (hm : r'.Stands host type m) :
    r.cache.lookup (host.typeId type) = some n ∧ r'.cache.lookup (host.typeId type) = some m := by
  rcases hn with hn | ⟨hflags, hnode⟩
  · exact ⟨hn, hm.resolve_right fun h => S.closed.not_literal type ⟨n, hn⟩ h.1⟩
  · obtain ⟨kind', hkind', hlike⟩ := hliteral type hflags
    have hsame : r.store.kind? n = some kind' := by
      rw [← hkind']
      unfold Store.kind?
      rw [Store.content?_of_node? hnode]
      rfl
    obtain rfl := Option.some.inj (hsame.symm.trans hkind)
    rw [hlike] at hnot
    cases hnot

/-- A node that is no literal has one counterpart. -/
private theorem counterpart_unique (hliteral : host.TellsLiterals)
    (S : r.Settled host (Eq scope) limit) {n m m' : NodeRef} {kind : TypeKind}
    (hkind : r.store.kind? n = some kind) (hnot : kind.isLiteral = false)
    (h : Counterparts host r r' n m) (h' : Counterparts host r r' n m') : m = m' := by
  cases h with
  | @type type hn hm =>
    cases h' with
    | @type type' hn' hm' =>
      obtain ⟨hn, hm⟩ := cached_of_stands hliteral S hkind hnot hn hm
      obtain ⟨hn', hm'⟩ := cached_of_stands hliteral S hkind hnot hn' hm'
      obtain ⟨content, hnode⟩ := S.consistent.node? (.inl hn)
      obtain ⟨content', hnode'⟩ := S.consistent.node? (.inl hn')
      have hid : host.typeId type = host.typeId type' :=
        congrArg TypeNode.id (Option.some.inj (hnode.symm.trans hnode'))
      rw [hid] at hm
      exact Option.some.inj (hm.symm.trans hm')
    | made hn' _ => exact absurd hn'.alone hn.not_alone
  | @made type hn hm =>
    cases h' with
    | type hn' _ => exact absurd hn.alone hn'.not_alone
    | @made type' hn' hm' =>
      obtain ⟨u, members, hu, hmembers, hlast⟩ := hm.last
      obtain ⟨u', members', hu', hmembers', hlast'⟩ := hm'.last
      rw [S.drawn.owner type type' n hn hn'] at hu
      obtain rfl := Option.some.inj (hu.symm.trans hu')
      obtain rfl := TypeContent.union.inj (Option.some.inj (hmembers.symm.trans hmembers'))
      exact Option.some.inj (hlast.symm.trans hlast')

/-- Between reflectors that have reflected types in one scope, the relation of
counterparts keeps the form of graphs. -/
theorem Settled.isomorphism (hliteral : host.TellsLiterals) (S : r.Settled host (Eq scope) limit)
    (S' : r'.Settled host (Eq scope) limit') :
    r.store.Isomorphism r'.store (Counterparts host r r') where
  node _ _ h := S.alike_of_counterparts S' h
  same n n' m m' kind hn hm hkind hnot := by
    constructor
    · rintro rfl
      exact counterpart_unique hliteral S hkind hnot hn hm
    · rintro rfl
      obtain ⟨id, content, content', hnode, hnode', halike⟩ := S.alike_of_counterparts S' hn
      have hkind' : r'.store.kind? n' = some kind := by
        rw [← hkind]
        unfold Store.kind?
        rw [Store.content?_of_node? hnode, Store.content?_of_node? hnode', Option.map_some,
          Option.map_some, halike.kind_eq]
      exact counterpart_unique hliteral S' hkind' hnot hn.symm hm.symm

/-! ## Answers -/

/-- A fresh walk that succeeds does so with cached types as well. -/
private theorem ok_of_fresh {request request' : Request} {type : τ} {n : NodeRef}
    (S : r.Settled host (Eq request.scope) limit) (hscope : request'.scope = request.scope)
    (hfresh : ((ofLimit limit).reflectType host request type).outcome = .ok n) :
    ∃ n', (r.reflectType host request' type).outcome = .ok n' := by
  have hahead : (ofLimit limit).Ahead r.Knows r := by
    refine ⟨S.atRest.depth_eq, S.limit_eq, fun id => ⟨.inr, ?_⟩⟩
    rintro (⟨m, hm⟩ | h)
    · cases hm
    · exact h
  have hwalked := (AtRest.outcome_run ⟨rfl, rfl⟩ _).symm.trans hfresh
  rcases hrun : (Reflection.reflect host request (ofLimit limit).room type).run.run
    ⟨ofLimit limit, .empty⟩ with ⟨outcome, t⟩
  rw [hrun] at hwalked
  obtain rfl : outcome = .ok n := hwalked
  obtain ⟨n', t', hrun', _⟩ := Reflection.follows_reflect S.closed hscope _ type
    ⟨ofLimit limit, .empty⟩ ⟨r, .empty⟩ n t hahead hrun
  refine ⟨n', (S.atRest.outcome_run _).trans ?_⟩
  rw [hahead.room_eq, hrun']

end Same

/-- The literals of a program have values. -/
theorem tellsLiterals_host (p : Program) : p.host.TellsLiterals :=
  fun type hflags => Program.kind_literalNode ((p.isPerPosition_iff type).1 hflags)

/-- A type that a fresh reflector reflects within the limit is reflected as well by
one that was asked for types in the same scope before, whether these calls succeeded
or failed, and the graph has the same form. -/
theorem reflectType_of_fresh {p : Program} {limit : UInt32} {warm : Reflector}
    {request request' : Request} {id : TypeId} {n : NodeRef}
    (hwarm : Reached p.host (fun _ => Call.AsksForType request.scope) limit warm)
    (hscope : request'.scope = request.scope)
    (hfresh : ((ofLimit limit).reflectType p.host request id).outcome = .ok n) :
    ∃ n', (warm.reflectType p.host request' id).outcome = .ok n' ∧
      ((ofLimit limit).reflectType p.host request id).reflector.store.Isomorphic n
        (warm.reflectType p.host request' id).reflector.store n' := by
  have S := hwarm.settled Function.injective_id
  obtain ⟨n', hn'⟩ := ok_of_fresh S hscope hfresh
  obtain ⟨Sfresh, hstands⟩ :=
    (settled_ofLimit p.host request.scope limit).reflectType Function.injective_id request id
  rw [← hscope] at S
  obtain ⟨Swarm, hstands'⟩ := S.reflectType Function.injective_id request' id
  rw [hscope] at Swarm
  exact ⟨n', hn', _, Sfresh.isomorphism (tellsLiterals_host p) Swarm,
    .type (hstands n hfresh) (hstands' n' hn')⟩

/-- A program with an interface that contains itself and, twice, a union of both truth
values, and with a union of that and an interface that lacks its symbol. -/
def lamp : Program where
  types := [
    ⟨⟨1⟩, .declared true ["Lamp.next", "Lamp.on", "Lamp.dimmed"] [], some "Lamp", none, none⟩,
    ⟨⟨2⟩, .union [⟨1⟩, ⟨3⟩], none, none, none⟩,
    ⟨⟨3⟩, .stringLiteral "none", none, none, none⟩,
    ⟨⟨4⟩, .union [⟨5⟩, ⟨6⟩], none, none, none⟩,
    ⟨⟨5⟩, .booleanLiteral true, none, none, none⟩,
    ⟨⟨6⟩, .booleanLiteral false, none, none, none⟩,
    ⟨⟨7⟩, .declared true [] [], none, none, none⟩,
    ⟨⟨8⟩, .union [⟨4⟩, ⟨7⟩], none, none, none⟩]
  symbols := Table.ofList [
    ("Lamp", ⟨"Lamp", ⟨none, .interfaceSymbol, none, [], none, none, none, []⟩, .none⟩),
    ("Lamp.next", ⟨"next", ⟨none, .property, some ⟨2⟩, [], none, none, none, []⟩, .none⟩),
    ("Lamp.on", ⟨"on", ⟨none, .property, some ⟨4⟩, [], none, none, none, []⟩, .none⟩),
    ("Lamp.dimmed", ⟨"dimmed", ⟨none, .property, some ⟨4⟩, [], none, none, none, []⟩, .none⟩)]

/-- One call fails after it has walked the union, one caches the union; then the
interface, which a fresh reflector would begin with, is walked around it. -/
theorem reflectType_of_fresh_lamp :
    let warm := ((ofLimit 3).after lamp.host (.type default ⟨8⟩)).after lamp.host
      (.type default ⟨4⟩)
    Answer.error? ((ofLimit 3).call lamp.host (.type default ⟨8⟩)).1 =
        some (.missingHostData .symbol ⟨7⟩) ∧
      warm.cacheSize = 3 ∧ ((ofLimit 3).reflectType lamp.host default ⟨1⟩).outcome = .ok 0 ∧
      (warm.reflectType lamp.host default ⟨1⟩).outcome = .ok 4 ∧
      ((ofLimit 3).reflectType lamp.host default ⟨1⟩).reflector.store.Isomorphic 0
        (warm.reflectType lamp.host default ⟨1⟩).reflector.store 4 := by
  intro warm
  have hfresh : ((ofLimit 3).reflectType lamp.host default ⟨1⟩).outcome = .ok 0 := by
    decide +kernel
  have hanswer : (warm.reflectType lamp.host default ⟨1⟩).outcome = .ok 4 := by
    decide +kernel
  have hreached : Reached lamp.host (fun _ => Call.AsksForType (default : Request).scope) 3 warm :=
    .after (.after .start rfl) rfl
  obtain ⟨n, hn, hsame⟩ :=
    @reflectType_of_fresh lamp 3 warm default default ⟨1⟩ 0 hreached rfl hfresh
  obtain rfl : n = 4 := Except.ok.inj (hn.symm.trans hanswer)
  exact ⟨by decide +kernel, by decide +kernel, hfresh, hanswer, hsame⟩

end Reflector

end TypeDescription
