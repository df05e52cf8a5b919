import TypeDescription.Proofs.Reflected.CacheInvariant

/-!
# Answered nodes

A node is `Answered` if a call in the run that led to a reflector was answered with
it.  From then on it is `Uniform`: what stands inside it is complete, and an
identity and a kind together determine what a type inside it is.  The kind is
needed, as a class that was asked for displaces what its type was before, and as
the `boolean`s made for unions share one identity.

Calls keep the nodes that are there, so a node stays uniform whatever is called
afterwards, even when the cache is reset.
-/

namespace TypeDescription

variable {τ σ : Type}

namespace Store

/-- What stands inside a node is complete, and types of one identity and kind are
the same. -/
structure Uniform (s : Store) (root : NodeRef) : Prop where
  complete : ∀ n, s.Below root n → ∃ id content, s.node? n = some ⟨id, some content⟩
  content_eq : ∀ n n' id content content', s.Below root n → s.Below root n' →
    s.node? n = some ⟨id, some content⟩ → s.node? n' = some ⟨id, some content'⟩ →
      content.kind = content'.kind → content = content'

/-- Only the nodes that are there matter. -/
theorem Uniform.of_keeps {s s' : Store} {root : NodeRef} (h : s.Uniform root)
    (hs : ∀ n, n < s.size → s'.node? n = s.node? n) : s'.Uniform root := by
  have hnode : ∀ {n}, s.Below root n → s'.node? n = s.node? n := by
    intro n hn
    obtain ⟨id, content, hnode⟩ := h.complete n hn
    exact hs n (Store.lt_size_of_node? hnode)
  have hbelow : ∀ {n}, s'.Below root n → s.Below root n := by
    intro n hn
    induction hn with
    | self => exact .self
    | child _ hcontent hchild ih =>
      unfold Store.content? at hcontent
      rw [hnode ih] at hcontent
      exact .child ih hcontent hchild
  refine ⟨fun n hn => ?_, fun n n' id content content' hn hn' hnode₁ hnode₂ hkind => ?_⟩
  · rw [hnode (hbelow hn)]
    exact h.complete n (hbelow hn)
  · rw [hnode (hbelow hn)] at hnode₁
    rw [hnode (hbelow hn')] at hnode₂
    exact h.content_eq n n' id content content' (hbelow hn) (hbelow hn') hnode₁ hnode₂ hkind

end Store

namespace Reflector

open Store (content?_of_node?)

section Uniform

variable {host : TypeHost τ σ} {old : History} {r : Reflector} {n n' : NodeRef} {id : TypeId}
  {content content' : TypeContent}

/-- What a literal is, is neither a truth value nor a class. -/
private theorem kind_of_literalNode {type : τ} (h : literalNode host type = ⟨id, some content⟩) :
    content.kind ≠ .boolean ∧ content.kind ≠ .classType := by
  obtain rfl := Option.some.inj (congrArg TypeNode.content h)
  unfold Reflection.literalContent?
  split
  · cases host.stringLiteral? type <;> exact ⟨nofun, nofun⟩
  · cases host.numberLiteral? type <;> exact ⟨nofun, nofun⟩

/-- Literals of one identity are the same. -/
private theorem content_eq_of_literalNode (hinj : Function.Injective host.typeId) {type type' : τ}
    (h : literalNode host type = ⟨id, some content⟩)
    (h' : literalNode host type' = ⟨id, some content'⟩) : content = content' := by
  have hid : host.typeId type = id := congrArg TypeNode.id h
  have hid' : host.typeId type' = id := congrArg TypeNode.id h'
  obtain rfl := hinj (hid.trans hid'.symm)
  exact Option.some.inj (congrArg TypeNode.content (h.symm.trans h'))

/-- A placed node is a literal, a `boolean`, or kept for its identity. -/
private theorem Placed.cases_of_node? (hn : r.Placed host old n)
    (hnode : r.store.node? n = some ⟨id, some content⟩) :
    (∃ type, (host.typeFlags type).isPerPosition = true ∧
      literalNode host type = ⟨id, some content⟩) ∨ content = .boolean ∨ r.Keeps old id n := by
  cases hn with
  | literal hflags h => exact .inl ⟨_, hflags, Option.some.inj (h.symm.trans hnode)⟩
  | synthetic h =>
    have hcontent := congrArg TypeNode.content (Option.some.inj (hnode.symm.trans h))
    exact .inr (.inl (Option.some.inj hcontent))
  | kept h hkeeps =>
    obtain rfl := congrArg TypeNode.id (Option.some.inj (hnode.symm.trans h))
    exact .inr (.inr hkeeps)

/-- A node that is kept for a literal is a class. -/
private theorem Coherent.kind_eq_classType (C : r.Coherent host old) (hn : r.Keeps old id n)
    (hnode : r.store.node? n = some ⟨id, some content⟩) (hper : host.IsPerPosition id) :
    content.kind = .classType := by
  rcases hn with hlookup | hdisplaced
  · exact C.kind_cached id n content (.inr hper) hlookup (content?_of_node? hnode)
  · exact absurd hper (C.kind_displaced id n hdisplaced).1

/-- Kept nodes of one identity and kind are one node. -/
private theorem Coherent.eq_of_keeps (C : r.Coherent host old) (hn : r.Keeps old id n)
    (hn' : r.Keeps old id n') (hnode : r.store.node? n = some ⟨id, some content⟩)
    (hnode' : r.store.node? n' = some ⟨id, some content'⟩) (hkind : content.kind = content'.kind) :
    n = n' := by
  have hne : ∀ {m m' : NodeRef} {c c' : TypeContent}, r.cache.lookup id = some m →
      old.displaced id = some m' → r.store.node? m = some ⟨id, some c⟩ →
        r.store.node? m' = some ⟨id, some c'⟩ → c.kind ≠ c'.kind := by
    intro m m' c c' hm hm' hc hc' heq
    obtain ⟨c'', hc'', hclass⟩ := (C.kind_displaced id m' hm').2
    obtain rfl := Option.some.inj ((content?_of_node? hc').symm.trans hc'')
    exact hclass (heq ▸ C.kind_cached id m c (.inl ⟨m', hm'⟩) hm (content?_of_node? hc))
  rcases hn with hn | hn <;> rcases hn' with hn' | hn'
  · exact Option.some.inj (hn.symm.trans hn')
  · exact absurd hkind (hne hn hn' hnode hnode')
  · exact absurd hkind.symm (hne hn' hn hnode' hnode)
  · exact Option.some.inj (hn.symm.trans hn')

/-- Placed nodes of one identity and kind are the same type. -/
theorem Coherent.content_eq (hinj : Function.Injective host.typeId) (C : r.Coherent host old)
    (hn : r.Placed host old n) (hn' : r.Placed host old n')
    (hnode : r.store.node? n = some ⟨id, some content⟩)
    (hnode' : r.store.node? n' = some ⟨id, some content'⟩) (hkind : content.kind = content'.kind) :
    content = content' := by
  have hboolean : ∀ {c c' : TypeContent}, c = .boolean → c.kind = c'.kind → c = c' := by
    rintro c c' rfl hc
    cases c' with
    | boolean => rfl
    | _ => cases hc
  -- a node that is kept for a literal is a class, and no literal is one
  have hliteral : ∀ {type : τ} {m : NodeRef} {c c' : TypeContent},
      (host.typeFlags type).isPerPosition = true → literalNode host type = ⟨id, some c⟩ →
        r.store.node? m = some ⟨id, some c'⟩ → r.Keeps old id m → c.kind ≠ c'.kind := by
    intro type m c c' hflags htype hm hkeeps heq
    have hclass := C.kind_eq_classType hkeeps hm ⟨type, congrArg TypeNode.id htype, hflags⟩
    exact (kind_of_literalNode htype).2 (heq.trans hclass)
  have hcases := hn.cases_of_node? hnode
  have hcases' := hn'.cases_of_node? hnode'
  rcases hcases with ⟨type, hflags, htype⟩ | heq | hkeeps
  · rcases hcases' with ⟨type', _, htype'⟩ | heq' | hkeeps'
    · exact content_eq_of_literalNode hinj htype htype'
    · exact (hboolean heq' hkind.symm).symm
    · exact absurd hkind (hliteral hflags htype hnode' hkeeps')
  · exact hboolean heq hkind
  · rcases hcases' with ⟨type', hflags', htype'⟩ | heq' | hkeeps'
    · exact absurd hkind.symm (hliteral hflags' htype' hnode hkeeps)
    · exact (hboolean heq' hkind.symm).symm
    · obtain rfl := C.eq_of_keeps hkeeps hkeeps' hnode hnode' hkind
      exact Option.some.inj (congrArg TypeNode.content (Option.some.inj (hnode.symm.trans hnode')))

/-- A placed node is uniform. -/
theorem Consistent.uniform (hinj : Function.Injective host.typeId) (C : r.Consistent host old)
    {root : NodeRef} (hroot : r.Placed host old root) : r.store.Uniform root where
  complete _ hn := C.complete_of_placed (C.coherent.placed_below hroot hn)
  content_eq _ _ _ _ _ hn hn' hnode hnode' hkind :=
    C.coherent.content_eq hinj (C.coherent.placed_below hroot hn)
      (C.coherent.placed_below hroot hn') hnode hnode' hkind

/-- In the run that led to a reflector a call was answered with the node. -/
inductive Answered (host : TypeHost τ σ) (limit : UInt32) : Reflector → NodeRef → Prop
  | now {r : Reflector} {c : Call τ} {n : NodeRef} : Reached host (fun _ _ => True) limit r →
      Answer.node? (r.call host c).1 = some n → Answered host limit (r.after host c) n
  | later {r : Reflector} {c : Call τ} {n : NodeRef} : Answered host limit r n →
      Answered host limit (r.after host c) n

theorem Answered.reached {limit : UInt32} (h : Answered host limit r n) :
    Reached host (fun _ _ => True) limit r := by
  induction h with
  | now hr _ => exact .after hr trivial
  | later _ ih => exact .after ih trivial

/-- An answered node is uniform, whatever was called since. -/
theorem Answered.uniform (hinj : Function.Injective host.typeId) {limit : UInt32}
    (h : Answered host limit r n) : r.store.Uniform n := by
  induction h with
  | now hr hn =>
    obtain ⟨old, C⟩ := hr.consistent hinj
    obtain ⟨new, _, C', hplaced⟩ := C.call hinj hr.atRest _
    exact C'.uniform hinj (hplaced _ hn)
  | later h ih => exact ih.of_keeps fun m hm => h.reached.atRest.node?_after _ hm

end Uniform

end Reflector

end TypeDescription
