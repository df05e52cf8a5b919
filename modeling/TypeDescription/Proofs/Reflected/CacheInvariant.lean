import TypeDescription.Proofs.Reflected.Rollback
import TypeDescription.Proofs.Reflected.Walks

/-!
# What is cached between calls

`Consistent` holds between calls: the cache is coherent and no node is a shell.
A call that succeeds is a walk, which keeps the cache coherent; one that fails is
taken back.  `Consistent.call` says so for every call, and what it does to the
history.

If classes are asked for only by the identities of classes and interfaces, and
where no other node is cached, then nothing is ever displaced.  Then the cached
nodes are all that placed nodes can be, apart from literals and `boolean`s made
for unions: `cacheInvariant_of_reached`.
-/

namespace TypeDescription

variable {τ σ : Type}

namespace Reflector

open Reflection (KeepsBalance)

/-! ## Between calls -/

/-- The cache is coherent and every node is complete. -/
structure Consistent (host : TypeHost τ σ) (old : History) (r : Reflector) : Prop where
  coherent : r.Coherent host old
  complete : ∀ n id, r.store.node? n ≠ some ⟨id, none⟩

/-- A call that succeeds with a node leaves the cache consistent, and the node
may stand for a type. -/
def Leaves (host : TypeHost τ σ) (new : History) (r : Reflector) (n : NodeRef) : Prop :=
  r.Consistent host new ∧ r.Placed host new n

section Consistent

variable {host : TypeHost τ σ} {old new : History} {r r' : Reflector}

/-- Only the store and the cache matter. -/
private theorem extends_of_eq (hstore : r'.store = r.store) (hcache : r'.cache = r.cache) :
    r.Extends r' := by
  refine ⟨?_, ?_, ?_, ?_⟩
  · exact Nat.le_of_eq (congrArg Store.size hstore.symm)
  · rw [hstore]
    exact fun _ _ => rfl
  · rw [hcache]
    exact fun _ _ h => h
  · rw [hstore]
    exact fun _ _ h => h

theorem Consistent.congr (C : r.Consistent host old) (hstore : r'.store = r.store)
    (hcache : r'.cache = r.cache) : r'.Consistent host old where
  coherent := C.coherent.extend (extends_of_eq hstore hcache) hcache
  complete := by
    rw [hstore]
    exact C.complete

/-- Nothing is cached. -/
theorem consistent_of_cache_nil (hcache : r.cache = [])
    (hcomplete : ∀ n id, r.store.node? n ≠ some ⟨id, none⟩) : r.Consistent host .none where
  coherent := by
    have hkeeps : ∀ {id n}, ¬ r.Keeps .none id n := by
      intro id n hn
      unfold Keeps at hn
      rw [hcache] at hn
      rcases hn with hn | hn <;> cases hn
    refine ⟨fun _ _ hn => absurd hn hkeeps, fun _ _ hn => absurd hn hkeeps,
      fun _ _ _ hn => absurd hn hkeeps, ?_, ?_, ?_⟩
    · intro _ _ hn
      cases hn
    · intro _ _ hn
      cases hn
    · intro _ _ _ _ hn
      exact absurd (.inl hn) hkeeps
  complete := hcomplete

theorem Consistent.node? (C : r.Consistent host old) {id : TypeId} {n : NodeRef}
    (hn : r.Keeps old id n) : ∃ content, r.store.node? n = some ⟨id, some content⟩ := by
  obtain ⟨content, hnode⟩ := C.coherent.node? id n hn
  cases content with
  | none => exact absurd hnode (C.complete n id)
  | some content => exact ⟨content, hnode⟩

/-! ## Walks of classes -/

/-- Where no class is cached, the walk of a class may cache its shell. -/
theorem Consistent.admits_class (C : r.Consistent host old) {id : TypeId}
    (hnone : r.cachedClass? id = none) : Admits host old r id (old.ask id r) := by
  have hother : ∀ n, r.cache.lookup id = some n →
      ∃ content, r.store.content? n = some content ∧ content.kind ≠ .classType := by
    intro n hn
    obtain ⟨content, hnode⟩ := C.node? (.inl hn)
    have hcontent := Store.content?_of_node? hnode
    refine ⟨content, hcontent, fun hkind => ?_⟩
    simp [cachedClass?, cached?, hn, Store.kind?, hcontent, hkind] at hnone
  refine ⟨rfl, fun _ h => .inl h, fun _ => .inr rfl, ?_, fun n hn => ?_⟩
  · cases hdisplaced : old.displaced id with
    | none => rfl
    | some n =>
      obtain ⟨m, hm⟩ := C.coherent.cached id n hdisplaced
      obtain ⟨content, hcontent, hkind⟩ := hother m hm
      exact absurd (C.coherent.kind_cached id m content (.inl ⟨n, hdisplaced⟩) hm hcontent) hkind
  · obtain ⟨content, hcontent, hkind⟩ := hother n hn
    exact ⟨fun hper => hkind (C.coherent.kind_cached id n content (.inr hper) hn hcontent),
      content, hcontent, hkind⟩

/-- The walk of a class leaves its node cached. -/
theorem Consistent.run_class (hinj : Function.Injective host.typeId) (C : r.Consistent host old)
    {request : Request} {type : τ} {room : Nat}
    (hnone : r.cachedClass? (host.typeId type) = none) {report : Report σ} {n : NodeRef}
    {s : Reflecting σ}
    (hrun : (Reflection.nested (host.typeId type) (Reflection.classContent host
      (Reflection.reflect host request room) type (host.typeId type))).run.run ⟨r, report⟩ =
        (.ok n, s)) :
    Leaves host (old.ask (host.typeId type) r) s.reflector n := by
  obtain ⟨C', content, _, D⟩ := C.coherent.run_nested (s := ⟨r, report⟩) (C.admits_class hnone)
    (Reflection.yields_classContent (Reflection.yields_reflect hinj request room) type _)
    (fun _ hkind _ => hkind) hrun
  exact ⟨⟨C', fun m id hm => C.complete m id (D.shells m id hm)⟩, .kept D.node? (.inl D.cached)⟩

/-- The walk of a type leaves its node. -/
theorem Consistent.run_type (hinj : Function.Injective host.typeId) (C : r.Consistent host old)
    {request : Request} {type : τ} {room : Nat} {report : Report σ} {n : NodeRef}
    {s : Reflecting σ}
    (hrun : (Reflection.reflect host request room type).run.run ⟨r, report⟩ = (.ok n, s)) :
    Leaves host old s.reflector n := by
  obtain ⟨C', hext, hplaced⟩ :=
    Reflection.yields_reflect hinj request room type ⟨r, report⟩ n s C.coherent trivial hrun
  exact ⟨⟨C', fun m id hm => C.complete m id (hext.shells m id hm)⟩, hplaced⟩

/-! ## Calls -/

/-- A call is its walk if that succeeds, and else is taken back. -/
theorem Consistent.run (hr : r.AtRest) (C : r.Consistent host old) {walk : Reflection σ NodeRef}
    (hwalk : KeepsBalance walk)
    (hok : ∀ n s, walk.run.run ⟨r, .empty⟩ = (.ok n, s) → Leaves host new s.reflector n) :
    ∃ now, (now = old ∨ now = new) ∧ (r.run walk).reflector.Consistent host now ∧
      ∀ n, (r.run walk).outcome = .ok n → (r.run walk).reflector.Placed host now n := by
  cases houtcome : (r.run walk).outcome with
  | error e =>
    have halike := alike_of_run_error hr hwalk houtcome
    refine ⟨old, .inl rfl, C.congr halike.store_eq halike.cache_eq, fun n hn => ?_⟩
    cases hn
  | ok n =>
    obtain ⟨s, _, ⟨m, hwalked, hrun⟩ | ⟨e, hrun⟩⟩ := hr.run_cases hwalk
    · obtain ⟨C', hplaced⟩ := hok m s hwalked
      rw [hrun] at houtcome ⊢
      obtain rfl : m = n := Except.ok.inj houtcome
      refine ⟨new, .inr rfl, C'.congr rfl rfl, fun k hk => ?_⟩
      obtain rfl : m = k := Except.ok.inj hk
      have hext : s.reflector.Extends { s.reflector with journal := [] } := extends_of_eq rfl rfl
      exact hext.placed hplaced
    · rw [hrun] at houtcome
      cases houtcome

/-- What a call may do to the history. -/
inductive Follows (host : TypeHost τ σ) (old : History) (r : Reflector) : Call τ → History → Prop
  | same (c : Call τ) : Follows host old r c old
  | reset : Follows host old r .reset .none
  | ask {request : Request} {type : τ} : r.cachedClass? (host.typeId type) = none →
      Follows host old r (.classType request type) (old.ask (host.typeId type) r)

/-- After every call the cache is consistent, and an answered node may stand for
a type. -/
theorem Consistent.call (hinj : Function.Injective host.typeId) (hr : r.AtRest)
    (C : r.Consistent host old) (c : Call τ) :
    ∃ new, Follows host old r c new ∧ (r.after host c).Consistent host new ∧
      ∀ n, Answer.node? (r.call host c).1 = some n → (r.after host c).Placed host new n := by
  have hanswered : ∀ {outcome : Except ReflectError NodeRef} {report : Report σ} {n : NodeRef},
      Answer.node? (some (outcome, report)) = some n → outcome = .ok n := by
    intro outcome report n hn
    cases outcome with
    | ok node => rw [← Option.some.inj hn]
    | error e => cases hn
  cases c with
  | type request type =>
    obtain ⟨now, hnow, C', hplaced⟩ :=
      C.run hr (Reflection.keepsBalance_reflect host request _ type)
        fun n s hrun => C.run_type hinj hrun
    have hsame : now = old := hnow.elim id id
    rw [hsame] at C' hplaced
    exact ⟨old, .same _, C', fun n hn => hplaced n (hanswered hn)⟩
  | classType request type =>
    cases hcached : r.cachedClass? (host.typeId type) with
    | some node =>
      simp only [after, Reflector.call, reflectClass_of_cached hcached]
      refine ⟨old, .same _, C, fun n hn => ?_⟩
      cases hanswered hn
      have hlookup : r.cache.lookup (host.typeId type) = some node :=
        (Option.filter_eq_some_iff.1 hcached).1
      obtain ⟨content, hnode⟩ := C.node? (.inl hlookup)
      exact .kept hnode (.inl hlookup)
    | none =>
      simp only [after, Reflector.call, reflectClass_of_not_cached hcached]
      obtain ⟨now, hnow, C', hplaced⟩ := C.run hr
        (Reflection.keepsBalance_class host request (r.room - 1) type (host.typeId type))
        fun n s hrun => C.run_class hinj hcached hrun
      refine ⟨now, ?_, C', fun n hn => hplaced n (hanswered hn)⟩
      rcases hnow with rfl | rfl
      · exact .same _
      · exact .ask hcached
  | reset =>
    refine ⟨.none, .reset, consistent_of_cache_nil rfl C.complete, fun n hn => ?_⟩
    cases hn

theorem consistent_ofLimit (limit : UInt32) : (ofLimit limit).Consistent host .none := by
  refine consistent_of_cache_nil rfl fun n id hn => ?_
  have hlt := Store.lt_size_of_node? hn
  exact absurd hlt (Nat.not_lt_zero n)

/-- In every run the cache is consistent. -/
theorem Reached.consistent {allowed : Reflector → Call τ → Prop} {limit : UInt32}
    (hinj : Function.Injective host.typeId) (hr : Reached host allowed limit r) :
    ∃ old, r.Consistent host old := by
  induction hr with
  | start => exact ⟨.none, consistent_ofLimit limit⟩
  | after hr _ ih =>
    obtain ⟨old, C⟩ := ih
    obtain ⟨new, _, C', _⟩ := C.call hinj hr.atRest _
    exact ⟨new, C'⟩

end Consistent

end Reflector

/-! ## Nodes inside nodes -/

namespace Store

/-- A node is another one, or stands somewhere inside it. -/
inductive Below (s : Store) (root : NodeRef) : NodeRef → Prop
  | self : Below s root root
  | child {n child : NodeRef} {content : TypeContent} : Below s root n →
      s.content? n = some content → child ∈ content.children → Below s root child

end Store

namespace Reflector

/-- A node stands somewhere inside a cached one. -/
def CachedAbove (r : Reflector) (n : NodeRef) : Prop :=
  ∃ id root, r.cached? id = some root ∧ r.store.Below root n

section Below

variable {host : TypeHost τ σ} {old : History} {r : Reflector}

/-- What a literal is contains nothing. -/
theorem children_literalNode (host : TypeHost τ σ) (type : τ) {content : TypeContent}
    (h : (literalNode host type).content = some content) : content.children = [] := by
  obtain rfl := Option.some.inj h
  unfold Reflection.literalContent?
  split
  · cases host.stringLiteral? type <;> rfl
  · cases host.numberLiteral? type <;> rfl

/-- A placed node contains placed nodes. -/
theorem Coherent.placed_child (C : r.Coherent host old) {n child : NodeRef} {content : TypeContent}
    (hn : r.Placed host old n) (hcontent : r.store.content? n = some content)
    (hchild : child ∈ content.children) : r.Placed host old child := by
  obtain ⟨node, hnode, hcontent⟩ := Option.bind_eq_some_iff.1 hcontent
  cases hn with
  | @literal type _ hnode' =>
    obtain rfl := Option.some.inj (hnode'.symm.trans hnode)
    rw [children_literalNode host type hcontent] at hchild
    cases hchild
  | synthetic hnode' =>
    obtain rfl := Option.some.inj (hnode'.symm.trans hnode)
    obtain rfl := Option.some.inj hcontent
    cases hchild
  | kept hnode' hkeeps =>
    obtain rfl := Option.some.inj (hnode'.symm.trans hnode)
    obtain rfl := hcontent
    exact C.children _ n content hkeeps hnode' child hchild

theorem Coherent.placed_below (C : r.Coherent host old) {root n : NodeRef}
    (hroot : r.Placed host old root) (hbelow : r.store.Below root n) : r.Placed host old n := by
  induction hbelow with
  | self => exact hroot
  | child _ hcontent hchild ih => exact C.placed_child ih hcontent hchild

/-- Placed nodes are complete. -/
theorem Consistent.complete_of_placed (C : r.Consistent host old) {n : NodeRef}
    (hn : r.Placed host old n) : ∃ id content, r.store.node? n = some ⟨id, some content⟩ := by
  cases hn with
  | @literal type _ hnode => exact ⟨_, _, hnode⟩
  | synthetic hnode => exact ⟨_, _, hnode⟩
  | @kept id _ _ hkeeps =>
    obtain ⟨content, hnode⟩ := C.node? hkeeps
    exact ⟨id, content, hnode⟩

end Below

/-! ## Histories without displaced nodes -/

section Undisturbed

variable {host : TypeHost τ σ} {old : History} {r : Reflector}

/-- No node was displaced, and no literal was asked for as a class. -/
structure Undisturbed (host : TypeHost τ σ) (old : History) : Prop where
  displaced : ∀ id, old.displaced id = none
  asked : ∀ id, old.asked id → ¬ host.IsPerPosition id

/-- A class is asked for only where the type is no literal, as no class or
interface is one, and where no other node is cached. -/
def AsksForClasses (host : TypeHost τ σ) (r : Reflector) : Call τ → Prop
  | .classType _ type => ¬ host.IsPerPosition (host.typeId type) ∧
      ∀ node kind, r.cached? (host.typeId type) = some node → r.store.kind? node = some kind →
        kind = .classType
  | _ => True

theorem undisturbed_none (host : TypeHost τ σ) : Undisturbed host .none where
  displaced _ := rfl
  asked _ h := h.elim

/-- A call for a class finds nothing to displace. -/
theorem Undisturbed.follows {c : Call τ} {new : History} (hold : Undisturbed host old)
    (C : r.Consistent host old) (hc : AsksForClasses host r c) (hnew : Follows host old r c new) :
    Undisturbed host new := by
  cases hnew with
  | same => exact hold
  | reset => exact undisturbed_none host
  | @ask request type hcached =>
    obtain ⟨hper, hclass⟩ := hc
    have hnone : r.cache.lookup (host.typeId type) = none := by
      cases hlookup : r.cache.lookup (host.typeId type) with
      | none => rfl
      | some n =>
        obtain ⟨content, hnode⟩ := C.node? (.inl hlookup)
        have hkind : r.store.kind? n = some content.kind := by
          simp [Store.kind?, Store.content?, hnode]
        have hclass := hclass n _ hlookup hkind
        simp [cachedClass?, cached?, hlookup, hkind, hclass] at hcached
    refine ⟨fun id => ?_, fun id hid => ?_⟩
    · show Function.update old.displaced (host.typeId type) _ id = none
      rw [hnone]
      by_cases heq : id = host.typeId type
      · rw [heq, Function.update_self]
      · rw [Function.update_of_ne heq, hold.displaced]
    · rcases hid with hid | rfl
      · exact hold.asked id hid
      · exact hper

/-- In a run that asks for classes only, the history stays undisturbed. -/
theorem Reached.undisturbed {limit : UInt32} (hinj : Function.Injective host.typeId)
    (hr : Reached host (AsksForClasses host) limit r) :
    ∃ old, r.Consistent host old ∧ Undisturbed host old := by
  induction hr with
  | start => exact ⟨.none, consistent_ofLimit limit, undisturbed_none host⟩
  | after hr hc ih =>
    obtain ⟨old, C, hold⟩ := ih
    obtain ⟨new, hnew, C', _⟩ := C.call hinj hr.atRest _
    exact ⟨new, C', hold.follows C hc hnew⟩

end Undisturbed

end Reflector

/-! ## The identity cache -/

/-- The `boolean` that a union makes of its truth values. -/
def synthesizedBoolean : TypeNode :=
  ⟨.synthetic, some .boolean⟩

namespace Program

/-- The type is a literal string or number. -/
def IsLiteral (p : Program) (id : TypeId) : Prop :=
  (∃ value, p.shape? id = some (.stringLiteral value)) ∨
    ∃ value, p.shape? id = some (.numberLiteral value)

theorem isPerPosition_iff (p : Program) (id : TypeId) :
    (p.host.typeFlags id).isPerPosition = true ↔ p.IsLiteral id := by
  show (((p.shape? id).map Shape.typeFlags).getD .none).isPerPosition = true ↔ _
  unfold IsLiteral
  cases p.shape? id with
  | none => simp; decide
  | some shape => cases shape <;> simp [Shape.typeFlags] <;> decide

theorem host_isPerPosition_iff (p : Program) (id : TypeId) :
    p.host.IsPerPosition id ↔ p.IsLiteral id := by
  constructor
  · rintro ⟨type, rfl, h⟩
    exact (p.isPerPosition_iff type).1 h
  · intro h
    exact ⟨id, rfl, (p.isPerPosition_iff id).2 h⟩

/-- The node of a literal has its kind. -/
theorem kind_literalNode {p : Program} {id : TypeId} (h : p.IsLiteral id) :
    ∃ kind, (literalNode p.host id).kind? = some kind ∧ kind.isLiteral = true := by
  have hflags : p.host.typeFlags id = ((p.shape? id).map Shape.typeFlags).getD .none := rfl
  unfold literalNode Reflection.literalContent?
  rw [hflags]
  have hstring : TypeFlags.stringLiteral.contains .stringLiteral = true := by decide
  have hnumber : TypeFlags.numberLiteral.contains .stringLiteral = false := by decide
  rcases h with ⟨value, h⟩ | ⟨value, h⟩
  · refine ⟨.stringLiteral, ?_, rfl⟩
    simp [h, host, Shape.typeFlags, TypeNode.kind?, hstring, TypeContent.kind]
  · refine ⟨.numberLiteral, ?_, rfl⟩
    simp [h, host, Shape.typeFlags, TypeNode.kind?, hnumber, TypeContent.kind]

end Program

namespace Reflector

/-- What holds of the cache between calls. -/
structure CacheInvariant (p : Program) (r : Reflector) : Prop where
  /-- A cached node carries the identity that it is cached for. -/
  identity : ∀ id n, r.cached? id = some n → ∃ content, r.store.node? n = some ⟨id, content⟩
  /-- Literals are not cached. -/
  literal : ∀ id, p.IsLiteral id → r.cached? id = none
  /-- Whatever stands inside a cached node is complete. -/
  complete : ∀ n, r.CachedAbove n → ∃ id content, r.store.node? n = some ⟨id, some content⟩
  /-- It is cached too, unless it is a literal or a synthesized `boolean`. -/
  cached : ∀ n node, r.CachedAbove n → r.store.node? n = some node →
    (p.IsLiteral node.id ∧ ∃ kind, node.kind? = some kind ∧ kind.isLiteral = true) ∨
      node = synthesizedBoolean ∨ r.cached? node.id = some n
  /-- Two places of one type hold one node. -/
  same : ∀ n m node node', r.CachedAbove n → r.CachedAbove m →
    r.store.node? n = some node → r.store.node? m = some node' → node.id = node'.id →
      ¬ p.IsLiteral node.id → node ≠ synthesizedBoolean → node' ≠ synthesizedBoolean → n = m

/-- In a cache where nothing was displaced, the cached nodes are all that there
is of a type. -/
theorem Consistent.cacheInvariant {p : Program} {old : History} {r : Reflector}
    (C : r.Consistent p.host old) (hold : Undisturbed p.host old) : r.CacheInvariant p := by
  have hplaced : ∀ {n}, r.CachedAbove n → r.Placed p.host old n := by
    intro n habove
    obtain ⟨id, root, hroot, hbelow⟩ := habove
    obtain ⟨content, hnode⟩ := C.node? (.inl hroot)
    exact C.coherent.placed_below (.kept hnode (.inl hroot)) hbelow
  have hcached : ∀ n node, r.CachedAbove n → r.store.node? n = some node →
      (p.IsLiteral node.id ∧ ∃ kind, node.kind? = some kind ∧ kind.isLiteral = true) ∨
        node = synthesizedBoolean ∨ r.cached? node.id = some n := by
    intro n node hn hnode
    cases hplaced hn with
    | @literal type hflags hnode' =>
      obtain rfl := Option.some.inj (hnode'.symm.trans hnode)
      have htype := (p.isPerPosition_iff type).1 hflags
      exact .inl ⟨htype, Program.kind_literalNode htype⟩
    | synthetic hnode' => exact .inr (.inl (Option.some.inj (hnode.symm.trans hnode')))
    | @kept id content hnode' hkeeps =>
      obtain rfl := Option.some.inj (hnode'.symm.trans hnode)
      rcases hkeeps with hlookup | hdisplaced
      · exact .inr (.inr hlookup)
      · rw [hold.displaced] at hdisplaced
        cases hdisplaced
  refine ⟨fun id n hn => C.coherent.node? id n (.inl hn), fun id hid => ?_,
    fun n hn => C.complete_of_placed (hplaced hn), hcached, ?_⟩
  · cases hlookup : r.cached? id with
    | none => rfl
    | some n =>
      have hper := (p.host_isPerPosition_iff id).2 hid
      exact absurd hper (hold.asked id (C.coherent.asked id n (.inl hlookup) hper))
  · intro n m node node' hn hm hnode hnode' hid hliteral hne hne'
    have hself : ∀ {k : NodeRef} {other : TypeNode}, r.CachedAbove k →
        r.store.node? k = some other → other.id = node.id → other ≠ synthesizedBoolean →
          r.cached? node.id = some k := by
      intro k other hk hother heq hboolean
      rcases hcached k other hk hother with ⟨h, _⟩ | h | h
      · exact absurd (heq ▸ h) hliteral
      · exact absurd h hboolean
      · exact heq ▸ h
    exact Option.some.inj ((hself hn hnode rfl hne).symm.trans (hself hm hnode' hid.symm hne'))

/-- After every sequence of calls that asks for classes only where no other node
is cached, the cache is the identity of types. -/
theorem cacheInvariant_of_reached {p : Program} {limit : UInt32} {r : Reflector}
    (hr : Reached p.host (AsksForClasses p.host) limit r) : r.CacheInvariant p := by
  obtain ⟨old, C, hold⟩ := hr.undisturbed Function.injective_id
  exact C.cacheInvariant hold

/-- A program with a class that contains itself, a literal at two places and a
union of both truth values, and with a class that lacks its symbol. -/
def switch : Program where
  types := [
    ⟨⟨1⟩, .declared false ["Switch.next", "Switch.label", "Switch.on"] [], some "Switch", none,
      none⟩,
    ⟨⟨2⟩, .union [⟨1⟩, ⟨3⟩], none, none, none⟩,
    ⟨⟨3⟩, .stringLiteral "off", none, none, none⟩,
    ⟨⟨4⟩, .union [⟨5⟩, ⟨6⟩], none, none, none⟩,
    ⟨⟨5⟩, .booleanLiteral true, none, none, none⟩,
    ⟨⟨6⟩, .booleanLiteral false, none, none, none⟩,
    ⟨⟨7⟩, .declared false [] [⟨4⟩], none, none, none⟩]
  symbols := Table.ofList [
    ("Switch", ⟨"Switch", ⟨none, .classSymbol, none, [], none, none, none, []⟩, .none⟩),
    ("Switch.next", ⟨"next", ⟨none, .property, some ⟨2⟩, [], none, none, none, []⟩, .none⟩),
    ("Switch.label", ⟨"label", ⟨none, .property, some ⟨3⟩, [], none, none, none, []⟩, .none⟩),
    ("Switch.on", ⟨"on", ⟨none, .property, some ⟨4⟩, [], none, none, none, []⟩, .none⟩)]

/-- The call for the second class fails after its base was cached; then the first
class is cached with its unions and truth values, but not with its literals. -/
theorem cacheInvariant_switch :
    let failed := (ofLimit 3).after switch.host (.classType default ⟨7⟩)
    let r := failed.after switch.host (.classType default ⟨1⟩)
    Answer.error? ((ofLimit 3).call switch.host (.classType default ⟨7⟩)).1 =
        some (.missingHostData .symbol ⟨7⟩) ∧
      r.cacheSize = 5 ∧ r.store.size = 8 ∧ r.CacheInvariant switch := by
  have hnone :
      ∀ id, ((ofLimit 3).after switch.host (.classType default ⟨7⟩)).cached? id = none := by
    have hcache : ((ofLimit 3).after switch.host (.classType default ⟨7⟩)).cache = [] := by
      decide +kernel
    intro id
    unfold cached?
    rw [hcache]
    rfl
  have hflags : ∀ id ∈ ([⟨1⟩, ⟨7⟩] : List TypeId),
      (switch.host.typeFlags id).isPerPosition = false := by
    decide +kernel
  have hliteral : ∀ id ∈ ([⟨1⟩, ⟨7⟩] : List TypeId), ¬ switch.host.IsPerPosition id := by
    rintro id hid ⟨type, rfl, htype⟩
    exact Bool.false_ne_true ((hflags type hid).symm.trans htype)
  have hfailed : AsksForClasses switch.host (ofLimit 3) (.classType default ⟨7⟩) :=
    ⟨hliteral ⟨7⟩ (by decide), fun node kind hnode => by cases hnode⟩
  have hasked : AsksForClasses switch.host
      ((ofLimit 3).after switch.host (.classType default ⟨7⟩)) (.classType default ⟨1⟩) := by
    refine ⟨hliteral ⟨1⟩ (by decide), fun node kind hnode => ?_⟩
    rw [hnone] at hnode
    cases hnode
  exact ⟨by decide +kernel, by decide +kernel, by decide +kernel,
    cacheInvariant_of_reached (.after (.after .start hfailed) hasked)⟩

end Reflector

end TypeDescription
