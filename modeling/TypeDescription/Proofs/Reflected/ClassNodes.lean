import TypeDescription.Proofs.Reflected.CacheInvariant

/-!
# The nodes of a class

A call for a class caches a class node.  If another node was cached for the
class, that one is displaced: it leaves the cache, but nodes from before still
contain it.  `History.record` is what a call does to the history, and
`Consistent.recorded` says that the cache is coherent with the history of the
calls that were made.

So a class node may contain another node of its own class, but only one that a
call for this very class displaced (`below_class`).  `class_above_displaced` is a
program where this happens.
-/

namespace TypeDescription

variable {τ σ : Type}

namespace History

/-- The history after a call.  A class that is walked with success displaces what
was cached for it. -/
def record (old : History) (host : TypeHost τ σ) (r : Reflector) : Call τ → History
  | .type _ _ => old
  | .classType request type =>
      match r.cachedClass? (host.typeId type), (r.reflectClass host request type).outcome with
      | .none, .ok _ => old.ask (host.typeId type) r
      | _, _ => old
  | .reset => .none

/-- The history after calls made one after the other. -/
def recorded (old : History) (host : TypeHost τ σ) : Reflector → List (Call τ) → History
  | _, [] => old
  | r, c :: rest => recorded (old.record host r c) host (r.after host c) rest

end History

namespace Reflector

section Recorded

variable {host : TypeHost τ σ} {old : History} {r : Reflector}

/-! ## Classes -/

/-- The walk of a class ends with a class node, which is cached. -/
theorem Consistent.run_class_node (hinj : Function.Injective host.typeId) (hr : r.AtRest)
    (C : r.Consistent host old) {request : Request} {type : τ}
    (hnone : r.cachedClass? (host.typeId type) = none) {n : NodeRef}
    (hn : (r.reflectClass host request type).outcome = .ok n) :
    let r' := (r.reflectClass host request type).reflector
    r'.Consistent host (old.ask (host.typeId type) r) ∧
      r'.cache.lookup (host.typeId type) = some n ∧
      ∃ content, r'.store.node? n = some ⟨host.typeId type, some (.classType content)⟩ := by
  rw [reflectClass_of_not_cached hnone] at hn ⊢
  obtain ⟨s, _, ⟨m, hwalked, hrun⟩ | ⟨e, hrun⟩⟩ := hr.run_cases
    (Reflection.keepsBalance_class host request (r.room - 1) type (host.typeId type))
  · rw [hrun] at hn ⊢
    obtain rfl : m = n := Except.ok.inj hn
    obtain ⟨C', content, hkind, D⟩ := C.coherent.run_nested (s := ⟨r, .empty⟩)
      (C.admits_class hnone)
      (Reflection.yields_classContent (Reflection.yields_reflect hinj request _) type _)
      (fun _ hkind _ => hkind) hwalked
    have hcomplete : s.reflector.Consistent host (old.ask (host.typeId type) r) :=
      ⟨C', fun k id hk => C.complete k id (D.shells k id hk)⟩
    refine ⟨hcomplete.congr rfl rfl, D.cached, ?_⟩
    cases content with
    | classType content => exact ⟨content, D.node?⟩
    | _ => cases hkind
  · rw [hrun] at hn
    cases hn

/-- A cached class is complete and a class. -/
private theorem Consistent.node?_cachedClass (C : r.Consistent host old) {id : TypeId} {n : NodeRef}
    (hn : r.cachedClass? id = some n) :
    r.cache.lookup id = some n ∧
      ∃ content, r.store.node? n = some ⟨id, some (.classType content)⟩ := by
  obtain ⟨hlookup, hclass⟩ := Option.filter_eq_some_iff.1 hn
  obtain ⟨content, hnode⟩ := C.node? (.inl hlookup)
  refine ⟨hlookup, ?_⟩
  simp only [Store.kind?, Store.content?_of_node? hnode, Option.map_some, beq_iff_eq] at hclass
  cases content with
  | classType content => exact ⟨content, hnode⟩
  | _ => cases hclass

/-- An answered class is a class node, which is cached from then on, and the cache
is coherent with what the call displaced. -/
theorem Consistent.classNode (hinj : Function.Injective host.typeId) (hr : r.AtRest)
    (C : r.Consistent host old) {request : Request} {type : τ} {n : NodeRef}
    (hn : (r.reflectClass host request type).outcome = .ok n) :
    let r' := (r.reflectClass host request type).reflector
    r'.Consistent host (old.record host r (.classType request type)) ∧
      r'.cache.lookup (host.typeId type) = some n ∧
      ∃ content, r'.store.node? n = some ⟨host.typeId type, some (.classType content)⟩ := by
  cases hcached : r.cachedClass? (host.typeId type) with
  | none =>
    have hrecord : old.record host r (.classType request type) = old.ask (host.typeId type) r := by
      simp only [History.record, hcached, hn]
    rw [hrecord]
    exact C.run_class_node hinj hr hcached hn
  | some m =>
    have hrecord : old.record host r (.classType request type) = old := by
      simp only [History.record, hcached]
    have hsame : r.reflectClass host request type = ⟨.ok m, .empty, r⟩ := by
      simp only [reflectClass, hcached]
    rw [hrecord]
    rw [hsame] at hn ⊢
    obtain rfl : m = n := Except.ok.inj hn
    exact ⟨C, C.node?_cachedClass hcached⟩

/-! ## Runs -/

/-- After a call the cache is coherent with the history that the call leaves. -/
theorem Consistent.record (hinj : Function.Injective host.typeId) (hr : r.AtRest)
    (C : r.Consistent host old) (c : Call τ) :
    (r.after host c).Consistent host (old.record host r c) := by
  cases c with
  | type request type =>
    obtain ⟨now, hnow, C', _⟩ := C.run hr (Reflection.keepsBalance_reflect host request _ type)
      fun n s hrun => C.run_type hinj hrun
    have hsame : now = old := hnow.elim id id
    exact hsame ▸ C'
  | classType request type =>
    cases houtcome : (r.reflectClass host request type).outcome with
    | ok n => exact (C.classNode hinj hr houtcome).1
    | error e =>
      have hrecord : old.record host r (.classType request type) = old := by
        simp only [History.record, houtcome]
        split
        · next _ h => cases h
        · rfl
      have herror : Answer.error? (r.call host (.classType request type)).1 = some e := by
        simp only [Reflector.call, houtcome, Answer.error?]
      have halike := alike_of_call_error hr herror
      rw [hrecord]
      exact C.congr halike.store_eq halike.cache_eq
  | reset => exact consistent_of_cache_nil rfl C.complete

/-- After all calls the cache is coherent with the history that they leave. -/
theorem Consistent.recorded (hinj : Function.Injective host.typeId) (hr : r.AtRest)
    (C : r.Consistent host old) (cs : List (Call τ)) :
    (r.calls host cs).2.AtRest ∧
      (r.calls host cs).2.Consistent host (old.recorded host r cs) := by
  induction cs generalizing r old with
  | nil => exact ⟨hr, C⟩
  | cons c rest ih => exact ih (hr.after c) (C.record hinj hr c)

end Recorded

/-! ## Inside a class -/

section Below

variable {p : Program} {limit : UInt32} {cs : List (Call TypeId)} {request : Request}
  {id : TypeId} {n : NodeRef}

/-- An answered class is a class node.  A node inside it that has the identity of
the class is this very node, unless it is a `boolean` made for a union or was
displaced by a call for the class since the last reset; a displaced node is no
class. -/
theorem below_class (hid : ¬ p.IsLiteral id) :
    let r := ((ofLimit limit).calls p.host cs).2
    let r' := r.after p.host (.classType request id)
    let history := (History.none.recorded p.host (ofLimit limit) cs).record p.host r
      (.classType request id)
    Answer.node? (r.call p.host (.classType request id)).1 = some n →
      (∃ content, r'.store.node? n = some ⟨id, some (.classType content)⟩) ∧
        ∀ m content, r'.store.Below n m → r'.store.node? m = some ⟨id, some content⟩ →
          m = n ∨ synthesizedBoolean = ⟨id, some content⟩ ∨
            history.displaced id = some m ∧ content.kind ≠ .classType := by
  intro r r' history hn
  obtain ⟨hr, C⟩ : r.AtRest ∧ r.Consistent p.host _ :=
    (consistent_ofLimit limit).recorded Function.injective_id ⟨rfl, rfl⟩ cs
  have houtcome : (r.reflectClass p.host request id).outcome = .ok n := by
    simp only [Reflector.call] at hn
    cases h : (r.reflectClass p.host request id).outcome with
    | ok node =>
      rw [h] at hn
      rw [← Option.some.inj hn]
    | error e =>
      rw [h] at hn
      cases hn
  obtain ⟨C', hlookup, content, hnode⟩ := C.classNode Function.injective_id hr houtcome
  refine ⟨⟨content, hnode⟩, fun m content' hbelow hm => ?_⟩
  have hplaced := C'.coherent.placed_below (.kept hnode (.inl hlookup)) hbelow
  cases hplaced with
  | @literal type hflags hm' =>
    obtain rfl : type = id := congrArg TypeNode.id (Option.some.inj (hm'.symm.trans hm))
    exact absurd ((p.isPerPosition_iff type).1 hflags) hid
  | synthetic hm' => exact .inr (.inl (Option.some.inj (hm'.symm.trans hm)))
  | @kept id' _ hm' hkeeps =>
    obtain rfl : id' = id := congrArg TypeNode.id (Option.some.inj (hm'.symm.trans hm))
    rcases hkeeps with hm'' | hdisplaced
    · exact .inl (Option.some.inj (hm''.symm.trans hlookup))
    · obtain ⟨_, content'', hcontent, hkind⟩ := C'.coherent.kind_displaced id' m hdisplaced
      obtain rfl := Option.some.inj (hcontent.symm.trans (Store.content?_of_node? hm))
      exact .inr (.inr ⟨hdisplaced, hkind⟩)

end Below

/-- A program with a class and an interface that contain each other. -/
def household : Program where
  types := [
    ⟨⟨1⟩, .declared false ["Pet.home"] [], some "Pet", none, none⟩,
    ⟨⟨2⟩, .declared true ["Home.pet"] [], some "Home", none, none⟩]
  symbols := Table.ofList [
    ("Pet", ⟨"Pet", ⟨none, .classSymbol, none, [], none, none, none, []⟩, .none⟩),
    ("Pet.home", ⟨"home", ⟨none, .property, some ⟨2⟩, [], none, none, none, []⟩, .none⟩),
    ("Home", ⟨"Home", ⟨none, .interfaceSymbol, none, [], none, none, none, []⟩, .none⟩),
    ("Home.pet", ⟨"pet", ⟨none, .property, some ⟨1⟩, [], none, none, none, []⟩, .none⟩)]

/-- When the interface was reflected before the class, the class node contains the
reference that it displaced. -/
theorem class_above_displaced :
    let r := ((ofLimit 256).calls household.host [.type default ⟨2⟩]).2
    let r' := r.after household.host (.classType default ⟨1⟩)
    Answer.node? (r.call household.host (.classType default ⟨1⟩)).1 = some 2 ∧
      r'.store.Below 2 1 ∧
      r'.store.node? 1 = some ⟨⟨1⟩, some (.reference (.identifier "Pet" 0) [])⟩ := by
  intro r r'
  have hclass : r'.store.content? 2 = some (.classType ⟨"Pet", [⟨"home", .none, 0, none⟩],
      [⟨.none, []⟩], none⟩) := by
    decide +kernel
  have hinterface : r'.store.content? 0 =
      some (.object (some "Home") [⟨"pet", .none, 1, none⟩]) := by
    decide +kernel
  have hhome : r'.store.Below 2 0 := .child .self hclass (by decide)
  exact ⟨by decide +kernel, .child hhome hinterface (by decide), by decide +kernel⟩

/-- After a reset nothing is displaced, and the class is the only node of its
identity inside it. -/
theorem below_class_household :
    let r := ((ofLimit 256).calls household.host [.type default ⟨2⟩, .reset]).2
    let r' := r.after household.host (.classType default ⟨1⟩)
    ¬ household.IsLiteral ⟨1⟩ ∧
      Answer.node? (r.call household.host (.classType default ⟨1⟩)).1 = some 2 ∧
      ∀ m content, r'.store.Below 2 m → r'.store.node? m = some ⟨⟨1⟩, some content⟩ → m = 2 := by
  have hid : ¬ household.IsLiteral ⟨1⟩ := by
    rw [← Program.isPerPosition_iff]
    decide +kernel
  have hn : Answer.node? ((((ofLimit 256).calls household.host [.type default ⟨2⟩, .reset]).2).call
      household.host (.classType default ⟨1⟩)).1 = some 2 := by
    decide +kernel
  have hdisplaced : ((History.none.recorded household.host (ofLimit 256)
      [.type default ⟨2⟩, .reset]).record household.host
        (((ofLimit 256).calls household.host [.type default ⟨2⟩, .reset]).2)
        (.classType default ⟨1⟩)).displaced ⟨1⟩ = none := by
    decide +kernel
  obtain ⟨_, hbelow⟩ := @below_class _ _ [.type default ⟨2⟩, .reset] _ _ _ hid hn
  refine ⟨hid, hn, fun m content hm hnode => ?_⟩
  rcases hbelow m content hm hnode with h | h | ⟨h, _⟩
  · exact h
  · cases congrArg TypeNode.id h
  · rw [hdisplaced] at h
    cases h

end Reflector

end TypeDescription
