import TypeDescription.Proofs.Reflected.Coherence

/-!
# Walks keep the cache coherent

To describe a type, a walk caches a shell (`Coherent.shelled`), yields a
description, and fills the shell (`Coherent.filled`).  By induction on the levels
left, the walk of a type yields a placed node (`yields_reflect`).  The walk of a
class may displace a node first, which `History.ask` adds to the history.
-/

namespace TypeDescription

variable {τ σ : Type}

namespace History

/-- The history after a class was asked for: the node cached for it, if any, is
displaced. -/
def ask (old : History) (id : TypeId) (r : Reflector) : History where
  displaced := Function.update old.displaced id (r.cache.lookup id)
  asked id' := old.asked id' ∨ id' = id

end History

namespace Reflector

/-- What a walk may do to the history when it caches a shell: nothing where no
node is cached yet, else displace a complete node that is no class. -/
structure Admits (host : TypeHost τ σ) (old : History) (r : Reflector) (id : TypeId)
    (new : History) : Prop where
  displaced_eq : new.displaced = Function.update old.displaced id (r.cache.lookup id)
  asked : ∀ id', old.asked id' → new.asked id'
  asked_self : host.IsPerPosition id → new.asked id
  not_displaced : old.displaced id = none
  kind : ∀ n, r.cache.lookup id = some n → ¬ host.IsPerPosition id ∧
    ∃ content, r.store.content? n = some content ∧ content.kind ≠ .classType

open Reflection (Placeable regime run_of_yields)

section Nested

variable {host : TypeHost τ σ} {old new : History} {s : Reflecting σ} {id : TypeId}

/-! ## Going one level down -/

theorem keeps_shelled_iff (hnew : Admits host old s.reflector id new) (id' : TypeId) (m : NodeRef) :
    (Reflection.shelled id s).reflector.Keeps new id' m ↔
      (id' = id ∧ m = s.reflector.store.size) ∨ s.reflector.Keeps old id' m := by
  unfold Keeps Reflection.shelled
  rw [hnew.displaced_eq]
  by_cases hid : id' = id
  · subst hid
    rw [Cache.lookup_put_self, Function.update_self, hnew.not_displaced]
    simp [eq_comm]
  · rw [Cache.lookup_put_of_ne _ hid, Function.update_of_ne hid]
    simp [hid]

/-- What counts as displaced once the shell is cached. -/
private theorem Admits.displaced_cases (hnew : Admits host old s.reflector id new) {id' : TypeId}
    {m : NodeRef} (hm : new.displaced id' = some m) :
    (id' = id ∧ s.reflector.cache.lookup id = some m) ∨
      (id' ≠ id ∧ old.displaced id' = some m) := by
  rw [hnew.displaced_eq] at hm
  by_cases hid : id' = id
  · subst hid
    rw [Function.update_self] at hm
    exact .inl ⟨rfl, hm⟩
  · rw [Function.update_of_ne hid] at hm
    exact .inr ⟨hid, hm⟩

private theorem Admits.placed_shelled (hnew : Admits host old s.reflector id new) {m : NodeRef}
    (hm : s.reflector.Placed host old m) :
    (Reflection.shelled id s).reflector.Placed host new m := by
  cases hm with
  | literal hflags hnode => exact .literal hflags (Store.node?_add hnode _)
  | synthetic hnode => exact .synthetic (Store.node?_add hnode _)
  | kept hnode hkept =>
    exact .kept (Store.node?_add hnode _) ((keeps_shelled_iff hnew _ _).2 (.inr hkept))

/-- With the shell of a type the cache is still coherent. -/
theorem Coherent.shelled (C : s.reflector.Coherent host old)
    (hnew : Admits host old s.reflector id new) :
    (Reflection.shelled id s).reflector.Coherent host new := by
  have hkeeps := keeps_shelled_iff hnew
  have hself : (Reflection.shelled id s).reflector.store.node? s.reflector.store.size =
      some ⟨id, none⟩ := Store.node?_add_self _ _
  have hnode : ∀ {id' m}, s.reflector.Keeps old id' m →
      (Reflection.shelled id s).reflector.store.node? m = s.reflector.store.node? m := by
    intro id' m hm
    obtain ⟨content, hm⟩ := C.node? id' m hm
    exact (Store.node?_add hm _).trans hm.symm
  refine ⟨fun id' m hm => ?_, fun id' m hm hper => ?_, fun id' m content hm hc => ?_,
    fun id' m hm => ?_, fun id' m hm => ?_, fun id' m content hid hm hc => ?_⟩
  · rcases (hkeeps id' m).1 hm with ⟨rfl, rfl⟩ | hm
    · exact ⟨none, hself⟩
    · rw [hnode hm]
      exact C.node? id' m hm
  · rcases (hkeeps id' m).1 hm with ⟨rfl, _⟩ | hm
    · exact hnew.asked_self hper
    · exact hnew.asked _ (C.asked id' m hm hper)
  · rcases (hkeeps id' m).1 hm with ⟨_, rfl⟩ | hm
    · rw [hself] at hc
      cases hc
    · rw [hnode hm] at hc
      exact fun child hchild => hnew.placed_shelled (C.children id' m content hm hc child hchild)
  · rcases hnew.displaced_cases hm with ⟨rfl, _⟩ | ⟨hid, hm⟩
    · exact ⟨_, Cache.lookup_put_self _ _ _⟩
    · obtain ⟨m', hm'⟩ := C.cached id' m hm
      exact ⟨m', (Cache.lookup_put_of_ne _ hid).trans hm'⟩
  · rcases hnew.displaced_cases hm with ⟨rfl, hm⟩ | ⟨hid, hm⟩
    · obtain ⟨hper, content, hc, hkind⟩ := hnew.kind m hm
      exact ⟨hper, content, Store.content?_add hc _, hkind⟩
    · obtain ⟨hper, content, hc, hkind⟩ := C.kind_displaced id' m hm
      exact ⟨hper, content, Store.content?_add hc _, hkind⟩
  · by_cases heq : id' = id
    · subst heq
      obtain rfl := Option.some.inj ((Cache.lookup_put_self _ _ _).symm.trans hm)
      cases (Store.content?_of_node? hself).symm.trans hc
    · have hm' : s.reflector.cache.lookup id' = some m :=
        (Cache.lookup_put_of_ne _ heq).symm.trans hm
      have hcontent : s.reflector.store.content? m = some content := by
        unfold Store.content? at hc ⊢
        rw [← hnode (.inl hm'), hc]
      refine C.kind_cached id' m content (hid.imp_left ?_) hm' hcontent
      intro hfound
      obtain ⟨n, hn⟩ := hfound
      rcases hnew.displaced_cases hn with ⟨hid, _⟩ | ⟨_, hn⟩
      · exact absurd hid heq
      · exact ⟨n, hn⟩

private theorem placed_filled {n m : NodeRef} (content : TypeContent)
    (hshell : s.reflector.store.node? n = some ⟨id, none⟩)
    (hm : s.reflector.Placed host old m) :
    (Reflection.filled n content s).reflector.Placed host old m := by
  by_cases heq : m = n
  · subst heq
    cases hm with
    | literal _ hnode =>
      rw [hshell] at hnode
      cases hnode
    | synthetic hnode =>
      rw [hshell] at hnode
      cases hnode
    | kept hnode hkept =>
      rw [hshell] at hnode
      cases hnode
      exact .kept (Store.node?_fill_self hshell content) hkept
  · have hother : (Reflection.filled n content s).reflector.store.node? m =
        s.reflector.store.node? m := Store.node?_fill_of_ne content heq
    cases hm with
    | literal hflags hnode => exact .literal hflags (hother.trans hnode)
    | synthetic hnode => exact .synthetic (hother.trans hnode)
    | kept hnode hkept => exact .kept (hother.trans hnode) hkept

/-- With the shell of a type filled the cache is still coherent. -/
theorem Coherent.filled {n : NodeRef} {content : TypeContent} (C : s.reflector.Coherent host old)
    (hshell : s.reflector.store.node? n = some ⟨id, none⟩)
    (hchildren : Placeable host old s.reflector content)
    (hkind : (∃ m, old.displaced id = some m) ∨ host.IsPerPosition id →
      content.kind = .classType) :
    (Reflection.filled n content s).reflector.Coherent host old := by
  have hself : (Reflection.filled n content s).reflector.store.node? n =
      some ⟨id, some content⟩ := Store.node?_fill_self hshell content
  have hother : ∀ {m}, m ≠ n → (Reflection.filled n content s).reflector.store.node? m =
      s.reflector.store.node? m := fun h => Store.node?_fill_of_ne content h
  have hid : ∀ {id'}, s.reflector.Keeps old id' n → id' = id := by
    intro id' hm
    obtain ⟨content, hnode⟩ := C.node? id' n hm
    rw [hshell] at hnode
    cases hnode
    rfl
  refine ⟨fun id' m hm => ?_, C.asked, fun id' m content' hm hc => ?_, C.cached,
    fun id' m hm => ?_, fun id' m content' hid' hm hc => ?_⟩
  · by_cases heq : m = n
    · subst heq
      obtain rfl := hid hm
      exact ⟨_, hself⟩
    · rw [hother heq]
      exact C.node? id' m hm
  · by_cases heq : m = n
    · subst heq
      rw [hself] at hc
      cases hc
      exact fun child hchild => placed_filled content hshell (hchildren child hchild)
    · rw [hother heq] at hc
      exact fun child hchild =>
        placed_filled content hshell (C.children id' m content' hm hc child hchild)
  · obtain ⟨hper, content', hc, hkind'⟩ := C.kind_displaced id' m hm
    have heq : m ≠ n := by
      intro heq
      subst heq
      cases (Store.content?_of_node? hshell).symm.trans hc
    exact ⟨hper, content', (Store.content?_fill_of_ne content heq).trans hc, hkind'⟩
  · by_cases heq : m = n
    · subst heq
      obtain rfl := hid (.inl hm)
      obtain rfl := Option.some.inj ((Store.content?_of_node? hself).symm.trans hc)
      exact hkind hid'
    · exact C.kind_cached id' m content' hid' hm
        ((Store.content?_fill_of_ne content heq).symm.trans hc)

/-- What the walk of a type that is not cached gives: its node, complete and
cached for it, and for the rest a reflector that has grown. -/
structure Described (r : Reflector) (id : TypeId) (content : TypeContent) (n : NodeRef)
    (r' : Reflector) : Prop where
  size_le : r.store.size ≤ r'.store.size
  node?_eq : ∀ m, m < r.store.size → r'.store.node? m = r.store.node? m
  lookup : ∀ id' m, id' ≠ id → r.cache.lookup id' = some m → r'.cache.lookup id' = some m
  shells : ∀ m id', r'.store.node? m = some ⟨id', none⟩ → r.store.node? m = some ⟨id', none⟩
  node? : r'.store.node? n = some ⟨id, some content⟩
  cached : r'.cache.lookup id = some n

/-- What was added to the shell of a type and the filled shell make the type
described. -/
private theorem Extends.described {t : Reflecting σ} {content : TypeContent}
    (hext : (Reflection.shelled id s).reflector.Extends t.reflector) :
    s.reflector.Described id content s.reflector.store.size
      (Reflection.filled s.reflector.store.size content t).reflector := by
  have hshell : t.reflector.store.node? s.reflector.store.size = some ⟨id, none⟩ :=
    hext.node? (Store.node?_add_self _ _)
  refine ⟨?_, fun m hm => ?_, fun id' m hid hm => ?_, fun m id' hm => ?_,
    Store.node?_fill_self hshell content, hext.lookup _ _ (Cache.lookup_put_self _ _ _)⟩
  · have hsize := hext.size_le
    simp only [Reflection.shelled, Store.size_add] at hsize
    simp only [Reflection.filled, Store.size_fill]
    exact Nat.le_of_succ_le hsize
  · have hm' : m < (Reflection.shelled id s).reflector.store.size := by
      simp only [Reflection.shelled, Store.size_add]
      exact Nat.lt_succ_of_lt hm
    exact (Store.node?_fill_of_ne content (Nat.ne_of_lt hm)).trans
      ((hext.node?_eq m hm').trans (Store.node?_add_of_lt _ hm))
  · exact hext.lookup id' m ((Cache.lookup_put_of_ne _ hid).trans hm)
  · by_cases heq : m = s.reflector.store.size
    · subst heq
      rw [Reflection.filled, Store.node?_fill_self hshell content] at hm
      cases hm
    · have hbefore := hext.shells m id' ((Store.node?_fill_of_ne content heq).symm.trans hm)
      have hlt := Store.lt_size_of_node? hbefore
      simp only [Reflection.shelled, Store.size_add] at hlt
      have hlt' : m < s.reflector.store.size := Nat.lt_of_le_of_ne (Nat.le_of_lt_succ hlt) heq
      exact (Store.node?_add_of_lt _ hlt').symm.trans hbefore

/-- A description that yields placed children fills the shell of its type. -/
theorem Coherent.run_nested {describe : Reflection σ TypeContent} {K : TypeContent → Prop}
    {s' : Reflecting σ} {n : NodeRef} (C : s.reflector.Coherent host old)
    (hnew : Admits host old s.reflector id new)
    (hdescribe : (regime host new).Yields (fun _ => True) describe
      fun r content => Placeable host new r content ∧ K content)
    (hkind : ∀ content, K content → (∃ m, new.displaced id = some m) ∨ host.IsPerPosition id →
      content.kind = .classType)
    (hrun : (Reflection.nested id describe).run.run s = (.ok n, s')) :
    s'.reflector.Coherent host new ∧
      ∃ content, K content ∧ s.reflector.Described id content n s'.reflector := by
  obtain ⟨_, content, t, hinner, rfl, rfl⟩ := Reflection.described_of_run_nested hrun
  obtain ⟨Ct, hext, hplaced, hK⟩ := run_of_yields hdescribe (C.shelled hnew) trivial hinner
  have hshell : t.reflector.store.node? s.reflector.store.size = some ⟨id, none⟩ :=
    hext.node? (Store.node?_add_self _ _)
  exact ⟨Ct.filled hshell hplaced (hkind content hK), content, hK, hext.described⟩

end Nested

end Reflector

/-! ## Types -/

namespace Reflection

open Reflector (Admits Described)

variable {host : TypeHost τ σ} {old : History}

/-- The walk of a literal gives a node of its own. -/
private theorem run_literalContent (host : TypeHost τ σ) (request : Request) (type : τ)
    (s : Reflecting σ) :
    ∃ report, (literalContent host request type (host.typeFlags type)).run.run s =
      (.ok ((literalContent? host type (host.typeFlags type)).getD .unsupported),
        { s with report := report }) := by
  unfold literalContent
  cases literalContent? host type (host.typeFlags type) with
  | some content => exact ⟨s.report, rfl⟩
  | none => exact ⟨_, rfl⟩

section TypeNode

variable {request : Request} {type : τ} {describe : Reflection σ TypeContent}
  {s s' : Reflecting σ} {n : NodeRef}

private theorem run_cached? (id : TypeId) (s : Reflecting σ) :
    (cached? id : Reflection σ _).run.run s = (.ok (s.reflector.cache.lookup id), s) :=
  rfl

/-- A cached type is not walked. -/
theorem run_typeNode_of_lookup (hlookup : s.reflector.cache.lookup (host.typeId type) = some n) :
    (typeNode host request type describe).run.run s = (.ok n, s) := by
  unfold typeNode
  dsimp only
  rw [run_bind_of_ok (run_cached? _ s), hlookup]
  rfl

/-- A literal gets a node of its own. -/
theorem run_typeNode_literal (hlookup : s.reflector.cache.lookup (host.typeId type) = none)
    (hflags : (host.typeFlags type).isPerPosition = true) :
    ∃ report, (typeNode host request type describe).run.run s = (.ok s.reflector.store.size,
      ⟨{ s.reflector with store := (s.reflector.store.add (literalNode host type)).2 },
        report⟩) := by
  obtain ⟨report, hcontent⟩ := run_literalContent host request type s
  refine ⟨report, ?_⟩
  unfold typeNode
  dsimp only
  rw [run_bind_of_ok (run_cached? _ s), hlookup]
  dsimp only
  rw [if_pos hflags, run_bind_of_ok hcontent]
  rfl

/-- A literal that the host tells is not reported. -/
theorem run_typeNode_told {content : TypeContent}
    (hlookup : s.reflector.cache.lookup (host.typeId type) = none)
    (hflags : (host.typeFlags type).isPerPosition = true)
    (htold : literalContent? host type (host.typeFlags type) = some content) :
    (typeNode host request type describe).run.run s = (.ok s.reflector.store.size,
      { s with reflector := { s.reflector with
        store := (s.reflector.store.add ⟨host.typeId type, some content⟩).2 } }) := by
  unfold typeNode literalContent
  dsimp only
  rw [run_bind_of_ok (run_cached? _ s), hlookup, htold]
  dsimp only
  rw [if_pos hflags]
  rfl

/-- Another type is described one level down. -/
theorem run_typeNode_nested (hlookup : s.reflector.cache.lookup (host.typeId type) = none)
    (hflags : ¬ (host.typeFlags type).isPerPosition = true) :
    (typeNode host request type describe).run.run s =
      (nested (host.typeId type) describe).run.run s := by
  unfold typeNode
  dsimp only
  rw [run_bind_of_ok (run_cached? _ s), hlookup]
  dsimp only
  rw [if_neg hflags]

/-- The three ways in which a walk comes to the node of a type. -/
inductive Obtains (host : TypeHost τ σ) (type : τ) (describe : Reflection σ TypeContent)
    (s : Reflecting σ) : NodeRef → Reflecting σ → Prop
  | cached {n : NodeRef} : s.reflector.cache.lookup (host.typeId type) = some n →
      Obtains host type describe s n s
  | literal (report : Report σ) : s.reflector.cache.lookup (host.typeId type) = none →
      (host.typeFlags type).isPerPosition = true →
        Obtains host type describe s s.reflector.store.size
          ⟨{ s.reflector with store := (s.reflector.store.add (literalNode host type)).2 }, report⟩
  | nested {n : NodeRef} {s' : Reflecting σ} :
      s.reflector.cache.lookup (host.typeId type) = none →
        ¬ (host.typeFlags type).isPerPosition = true →
          (Reflection.nested (host.typeId type) describe).run.run s = (.ok n, s') →
            Obtains host type describe s n s'

theorem obtains_of_run_typeNode
    (hrun : (typeNode host request type describe).run.run s = (.ok n, s')) :
    Obtains host type describe s n s' := by
  cases hlookup : s.reflector.cache.lookup (host.typeId type) with
  | some node =>
    rw [run_typeNode_of_lookup hlookup] at hrun
    cases hrun
    exact .cached hlookup
  | none =>
    by_cases hflags : (host.typeFlags type).isPerPosition = true
    · obtain ⟨report, hliteral⟩ := run_typeNode_literal hlookup hflags
      cases hliteral.symm.trans hrun
      exact .literal report hlookup hflags
    · rw [run_typeNode_nested hlookup hflags] at hrun
      exact .nested hlookup hflags hrun

end TypeNode

/-- A type that is no literal shares its identity with none. -/
theorem not_isPerPosition (hinj : Function.Injective host.typeId) {type : τ}
    (hflags : ¬ (host.typeFlags type).isPerPosition = true) :
    ¬ host.IsPerPosition (host.typeId type) := by
  intro hfound
  obtain ⟨type', heq, h⟩ := hfound
  obtain rfl := hinj heq
  exact hflags h

/-- Where no node is cached, none was displaced. -/
theorem displaced_of_lookup_none {r : Reflector} {id : TypeId} (C : r.Coherent host old)
    (hnone : r.cache.lookup id = none) : old.displaced id = none := by
  cases h : old.displaced id with
  | none => rfl
  | some m =>
    obtain ⟨m', hm'⟩ := C.cached _ m h
    rw [hnone] at hm'
    cases hm'

/-- A type that is not cached may be cached, if it is no literal. -/
theorem admits_uncached {r : Reflector} {id : TypeId} (C : r.Coherent host old)
    (hper : ¬ host.IsPerPosition id) (hnone : r.cache.lookup id = none) :
    Admits host old r id old := by
  have hdisplaced := displaced_of_lookup_none C hnone
  refine ⟨?_, fun _ h => h, fun h => absurd h hper, hdisplaced, fun m hm => ?_⟩
  · rw [hnone, ← hdisplaced, Function.update_eq_self]
  · rw [hnone] at hm
    cases hm

/-- The walk of a type that is not cached yields the node of its shell. -/
private theorem yields_nested (hinj : Function.Injective host.typeId) {type : τ}
    (hflags : ¬ (host.typeFlags type).isPerPosition = true)
    {describe : Reflection σ TypeContent}
    (hdescribe : (regime host old).Yields (fun _ => True) describe (Placeable host old))
    {s s' : Reflecting σ} {n : NodeRef} (C : s.reflector.Coherent host old)
    (hnone : s.reflector.cache.lookup (host.typeId type) = none)
    (hrun : (nested (host.typeId type) describe).run.run s = (.ok n, s')) :
    s'.reflector.Coherent host old ∧ s.reflector.Extends s'.reflector ∧
      s'.reflector.Placed host old n := by
  have hper := not_isPerPosition hinj hflags
  have hnew := admits_uncached C hper hnone
  have hkind : ∀ content : TypeContent, True →
      (∃ m, old.displaced (host.typeId type) = some m) ∨ host.IsPerPosition (host.typeId type) →
        content.kind = .classType := by
    rintro _ _ (⟨m, hm⟩ | h)
    · rw [displaced_of_lookup_none C hnone] at hm
      cases hm
    · exact absurd h hper
  obtain ⟨C', content, _, D⟩ :=
    C.run_nested hnew (hdescribe.imp fun _ _ h => ⟨h, trivial⟩) hkind hrun
  refine ⟨C', ⟨D.size_le, D.node?_eq, fun id m hm => ?_, D.shells⟩, .kept D.node? (.inl D.cached)⟩
  refine D.lookup id m ?_ hm
  intro heq
  subst heq
  rw [hnone] at hm
  cases hm

/-- The node of a type is placed if its description yields placed children. -/
private theorem yields_typeNode (hinj : Function.Injective host.typeId) (request : Request)
    (type : τ) {describe : Reflection σ TypeContent}
    (hdescribe : (regime host old).Yields (fun _ => True) describe (Placeable host old)) :
    (regime host old).Yields (fun _ => True) (typeNode host request type describe)
      fun r n => r.Placed host old n := by
  intro s n s' C _ hrun
  cases obtains_of_run_typeNode hrun with
  | cached hlookup =>
    obtain ⟨content, hnode⟩ := C.node? _ n (.inl hlookup)
    exact ⟨C, .refl _, .kept hnode (.inl hlookup)⟩
  | literal report _ hflags =>
    have hgrown := Reflector.extends_add s.reflector (host.typeId type)
      ((literalContent? host type (host.typeFlags type)).getD .unsupported)
    exact ⟨C.extend hgrown rfl, hgrown, .literal hflags (Store.node?_add_self _ _)⟩
  | nested hlookup hflags hrun => exact yields_nested hinj hflags hdescribe C hlookup hrun

/-- The walk of a type yields a placed node. -/
theorem yields_reflect (hinj : Function.Injective host.typeId) (request : Request) (room : Nat) :
    ∀ type, (regime host old).Yields (fun _ => True) (reflect host request room type)
      fun r n => r.Placed host old n := by
  induction room with
  | zero =>
    intro type
    exact yields_typeNode hinj request type fun _ _ _ _ _ hrun => by cases hrun
  | succ room ih =>
    intro type
    exact yields_typeNode hinj request type (yields_content ih type _ _)

end Reflection

end TypeDescription
