import TypeDescription.Proofs.Reflected.Drawn

/-!
# Equations of reflected types

After calls for types each node that an answer reaches solves the equation of its type
(`dispatch_of_reached`): what it is, is what one unfolding of the rules prescribes, from
nodes that stand for the types inside.  The rules are `TypeHost.outline?`; the nodes of a
union are those that `Store.normalizeUnion` gives in the store as it is after the call,
though some of them were shells when it was taken.

The only nodes that solve no equation are the `boolean`s that unions make of their truth
values, which stand for no type.
-/

namespace TypeDescription

variable {τ σ : Type}

namespace Reflector

/-! ## Equations -/

/-- The nodes that an outline is built from, given nodes that stand for its types.  Those
of a union are normalized in the present store; a `boolean` that this would add is one
that was made for the union. -/
def Joins (r : Reflector) (o : Outline τ σ) (nodes all : List NodeRef) : Prop :=
  o.joined r.store nodes = (all, r.store) ∨
    ∃ others b, r.Alone b ∧ all = others ++ [b] ∧
      o.joined r.store nodes = (others ++ [r.store.size], (r.store.add synthesizedBoolean).2)

/-- What one unfolding of the rules prescribes for a type. -/
inductive Prescribes (host : TypeHost τ σ) (scopes : UInt32 → Prop) (r : Reflector) (type : τ) :
    TypeContent → Prop
  | literal : (host.typeFlags type).isPerPosition = true →
      Prescribes host scopes r type
        ((Reflection.literalContent? host type (host.typeFlags type)).getD .unsupported)
  | outline {scope : UInt32} {o : Outline τ σ} {nodes all : List NodeRef} :
      ¬ (host.typeFlags type).isPerPosition = true → scopes scope →
        host.outline? scope type = some o → List.Forall₂ (r.Stands host) o.types nodes →
          r.Joins o nodes all → Prescribes host scopes r type (o.build host all)

section Prescribes

variable {host : TypeHost τ σ} {scopes : UInt32 → Prop} {limit : UInt32} {r : Reflector}
  {type : τ} {n : NodeRef} {content : TypeContent} {o : Outline τ σ}

/-- The nodes that an outline was built from are joined in the present store as they were
then. -/
private theorem Settled.joins (S : r.Settled host scopes limit)
    (h : r.Shows host r.Alone o content) :
    ∃ nodes all, List.Forall₂ (r.Stands host) o.types nodes ∧ r.Joins o nodes all ∧
      content = o.build host all := by
  obtain ⟨s, nodes, hnodes, rfl, hmade⟩ := h
  have hstands : List.Forall₂ (r.Stands host) o.types nodes := hnodes.imp fun _ _ hn => hn.1
  have hagree : List.Forall₂ (s.AgreeAlong r.store Eq) nodes nodes := by
    refine List.forall₂_same.2 fun n hn => ⟨rfl, ?_⟩
    obtain ⟨type, _, hn, hthen⟩ := exists_mem_of_forall₂ hnodes n hn
    exact (S.drawing.booleanKind?_eq hn).trans hthen.symm
  rcases o.joined_related host hagree with ⟨all, all', hall, heq, heq'⟩ |
    ⟨_, others, others', hothers, heq, heq'⟩
  · rw [List.forall₂_eq_eq_eq] at hall
    subst hall
    exact ⟨nodes, all, hstands, .inl heq', by rw [heq]⟩
  · rw [List.forall₂_eq_eq_eq] at hothers
    subst hothers
    rw [heq] at hmade
    have halone := hmade.resolve_left (s.add_ne _)
    exact ⟨nodes, _, hstands, .inr ⟨others, s.size, halone, rfl, heq'⟩, by rw [heq]⟩

/-- A node that stands for a type solves its equation. -/
theorem Settled.prescribes (S : r.Settled host scopes limit) (hn : r.Stands host type n) :
    ∃ content, r.store.node? n = some ⟨host.typeId type, some content⟩ ∧
      r.Prescribes host scopes type content := by
  rcases hn with hn | ⟨hflags, hnode⟩
  · obtain ⟨content, hnode⟩ := S.consistent.node? (.inl hn)
    have hflags : ¬ (host.typeFlags type).isPerPosition = true := fun hflags =>
      S.consistent.coherent.asked _ n (.inl hn) ⟨type, rfl, hflags⟩
    obtain ⟨scope, hscope, o, ho, hshows⟩ :=
      S.drawn.shows_outline type n content hn (Store.content?_of_node? hnode)
    obtain ⟨nodes, all, hnodes, hall, rfl⟩ := S.joins hshows
    exact ⟨_, hnode, .outline hflags hscope ho hnodes hall⟩
  · exact ⟨_, hnode, .literal hflags⟩

/-- A node that stands for a type may stand there. -/
theorem Settled.placed (S : r.Settled host scopes limit) (hn : r.Stands host type n) :
    r.Placed host .none n := by
  rcases hn with hn | ⟨hflags, hnode⟩
  · obtain ⟨content, hnode⟩ := S.consistent.node? (.inl hn)
    exact .kept hnode (.inl hn)
  · exact .literal hflags hnode

end Prescribes

section Program

variable {p : Program} {scopes : UInt32 → Prop} {limit : UInt32} {r : Reflector}

/-- A node that may stand somewhere stands for a type, or is a `boolean` made for a
union. -/
theorem Placed.stands_or_alone {n : NodeRef} (hn : r.Placed p.host .none n) :
    (∃ id, r.Stands p.host id n) ∨ r.Alone n := by
  cases hn with
  | @literal type hflags hnode => exact .inl ⟨type, .inr ⟨hflags, hnode⟩⟩
  | synthetic hnode =>
    by_cases hcached : ∃ id, r.cache.lookup id = some n
    · obtain ⟨id, hid⟩ := hcached
      exact .inl ⟨id, .inl hid⟩
    · exact .inr ⟨hnode, fun id hid => hcached ⟨id, hid⟩⟩
  | @kept id _ _ hkeeps =>
    rcases hkeeps with hlookup | hdisplaced
    · exact .inl ⟨id, .inl hlookup⟩
    · cases hdisplaced

/-- After any calls for types and resets, what a call for a type answers stands for the
type, and every node inside solves the equation of the type whose identity it has, but for
the `boolean`s made for unions. -/
theorem dispatch_of_reached {request : Request} {id : TypeId} {n : NodeRef}
    (hr : Reached p.host (fun _ => Call.AsksForTypes scopes) limit r)
    (hscope : scopes request.scope) (hn : (r.reflectType p.host request id).outcome = .ok n) :
    let r' := (r.reflectType p.host request id).reflector
    r'.Stands p.host id n ∧ ∀ m, r'.store.Below n m → r'.Alone m ∨
      ∃ type content, r'.store.node? m = some ⟨type, some content⟩ ∧ r'.Stands p.host type m ∧
        r'.Prescribes p.host scopes type content := by
  obtain ⟨S, hstands⟩ := (hr.settled_of_types Function.injective_id).after_type
    Function.injective_id request id hscope
  refine ⟨hstands n hn, fun m hm => ?_⟩
  have hplaced := S.consistent.coherent.placed_below (S.placed (hstands n hn)) hm
  rcases hplaced.stands_or_alone with ⟨type, htype⟩ | halone
  · obtain ⟨content, hnode, hprescribes⟩ := S.prescribes htype
    exact .inr ⟨type, content, hnode, htype, hprescribes⟩
  · exact .inl halone

/-- A program with a reference to an interface that has a property, and with a union of
both truth values. -/
def library : Program where
  types := [
    ⟨⟨1⟩, .declared true ["Book.title"] [], some "Book", none, none⟩,
    ⟨⟨2⟩, .string, none, none, none⟩,
    ⟨⟨3⟩, .reference ⟨1⟩ [], none, none, none⟩,
    ⟨⟨4⟩, .union [⟨5⟩, ⟨6⟩, ⟨3⟩], none, none, none⟩,
    ⟨⟨5⟩, .booleanLiteral true, none, none, none⟩,
    ⟨⟨6⟩, .booleanLiteral false, none, none, none⟩]
  symbols := Table.ofList [
    ("Book", ⟨"Book", ⟨none, .interfaceSymbol, none, [], none, none, none, []⟩, .none⟩),
    ("Book.title", ⟨"title", ⟨none, .property, some ⟨2⟩, [], none, none, none, []⟩, .none⟩)]

/-- A union is reflected in one scope, everything is reset, and then its reference and
the union itself are reflected in another scope. -/
theorem dispatch_of_reached_library :
    let request : Request := ⟨1, default⟩
    let r := (((ofLimit 256).after library.host (.type default ⟨4⟩)).after library.host
      .reset).after library.host (.type request ⟨3⟩)
    let r' := (r.reflectType library.host request ⟨4⟩).reflector
    (r.reflectType library.host request ⟨4⟩).outcome = .ok 6 ∧
      r'.store.content? 6 = some (.union [5, 9]) ∧ r'.Stands library.host ⟨4⟩ 6 ∧
        ∀ m, r'.store.Below 6 m → r'.Alone m ∨ ∃ type content,
          r'.store.node? m = some ⟨type, some content⟩ ∧ r'.Stands library.host type m ∧
            r'.Prescribes library.host (· < 2) type content := by
  intro request r r'
  have hdefault : (default : Request).scope < 2 := by decide
  have hother : request.scope < 2 := by decide
  have hr : Reached library.host (fun _ => Call.AsksForTypes (· < 2)) 256 r :=
    .after (.after (.after .start hdefault) trivial) hother
  have hn : (r.reflectType library.host request ⟨4⟩).outcome = .ok 6 := by
    decide +kernel
  have hunion : r'.store.content? 6 = some (.union [5, 9]) := by
    decide +kernel
  exact ⟨hn, hunion, dispatch_of_reached hr hother hn⟩

/-- The reference has the properties of the interface, but it is reflected as an object
without properties; and the union holds a `boolean` of an identity that no type has. -/
theorem dispatch_fails_library :
    let answer := (ofLimit 256).reflectType library.host default ⟨4⟩
    let s := answer.reflector.store
    answer.outcome = .ok 0 ∧ s.content? 0 = some (.union [3, 4]) ∧
      s.node? 3 = some ⟨⟨3⟩, some (.object (some "Book") [])⟩ ∧
      library.host.properties ⟨3⟩ = ["Book.title"] ∧
      s.node? 4 = some ⟨.synthetic, some .boolean⟩ ∧ library.type? .synthetic = none := by
  decide +kernel

end Program

end Reflector

end TypeDescription
