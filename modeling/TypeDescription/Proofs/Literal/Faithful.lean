import TypeDescription.Proofs.Literal.Depiction
import TypeDescription.Proofs.Literal.Generation
import TypeDescription.Proofs.Reflected.Answered

/-!
# Faithful literals

The literal of a node says what every type is that can be reached from the node,
at the place where the steps lead.

A literal that depicts a node leads to one that depicts the node inside, so along
any steps it leads to a literal that depicts the node at their end
(`Depicts.exists_chase`).  The walk makes data objects that are sound, the encoded
graph renders them, and so the literal of a node depicts it (`Store.exists_depicts`).
Both need the nodes inside to be told apart by identity and kind, which they are
for every answered node.
-/

namespace TypeDescription

/-! ## Along steps -/

section Chase

variable {store : Store} {nodes : NodeRef → Prop} {g : LiteralGenerator} {L M : Literal}
  {R : Ref → Literal → Prop} {n m : NodeRef}

/-- A literal that depicts a node is the data object of its type. -/
theorem Depicts.shows (h : Depicts store g R n M) (S : Sound store nodes [] g) (hn : nodes n) :
    ∃ content r, store.content? n = some content ∧ Shows store content (g.stock []) r ∧ R r M := by
  obtain ⟨id, content, r, hnode, hobject, hM⟩ := h
  exact ⟨content, r, Store.content?_of_node? hnode,
    S.shows n id content r hn hnode hobject List.not_mem_nil, hM⟩

/-- Steps from a node lead to a literal that depicts the node at their end. -/
theorem Depicts.exists_chase (D : Describable store nodes) (S : Sound store nodes [] g)
    (H : g.heap.Renders L R) {steps : List ChildStep} (hn : nodes n) (h : Depicts store g R n M)
    (hm : store.descend n steps = some m) :
    ∃ M', L.chase M (steps.flatMap ChildStep.route) = some M' ∧ nodes m ∧
      Depicts store g R m M' := by
  induction steps generalizing n M with
  | nil =>
    obtain rfl := Option.some.inj hm
    exact ⟨M, rfl, hn, h⟩
  | cons step steps ih =>
    obtain ⟨child, hchild, hm⟩ := Option.bind_eq_some_iff.1 hm
    obtain ⟨content, hcontent, hchild⟩ := Option.bind_eq_some_iff.1 hchild
    obtain ⟨content', r, hcontent', hshows, hM⟩ := h.shows S hn
    obtain rfl := Option.some.inj (hcontent.symm.trans hcontent')
    obtain ⟨M₁, hchase, hdepicts⟩ := hshows.exists_child H hM hchild
    have hnodes := D.children n content hn hcontent child
      (TypeContent.mem_children_of_child? hchild)
    obtain ⟨M', hchase', hm', hdepicts'⟩ := ih hnodes hdepicts hm
    refine ⟨M', ?_, hm', hdepicts'⟩
    rw [List.flatMap_cons, Literal.chase_append, hchase, Option.bind_some, hchase']

end Chase

/-! ## The literal of a node -/

section Node

variable {store : Store} {nodes : NodeRef → Prop} {limits : LiteralLimits} {n m : NodeRef}
  {modifiers : Option Modifiers} {L : Literal}

/-- The literal of a node depicts it. -/
theorem Store.exists_depicts (D : Describable store nodes) (hn : nodes n)
    (hL : store.literal limits n modifiers = .ok L) :
    ∃ g R, Sound store nodes [] g ∧ g.heap.Renders L R ∧ Depicts store g R n L := by
  obtain ⟨v, g, t, k, hrun, hencoded, hwritten⟩ := LiteralGenerator.literal_eq_ok hL
  obtain ⟨S, _, hbelow, hv⟩ := Generation.run_of_makes
    (Generation.makes_data D limits.depth limits.depth.toNat n hn ⟨modifiers, none⟩)
    (sound_empty store nodes) hrun
  obtain ⟨R, H, hroot⟩ := Heap.exists_renders S.proper hbelow hencoded hwritten
  obtain ⟨id, content, r, hnode, hobject, rfl⟩ := hv
  exact ⟨g, R, S, H, id, content, r, hnode, hobject, hroot r (Generation.unwrap_handOut _ r)⟩

/-- Where the steps to a type lead in the literal of a node, the literal says what
the type is. -/
theorem Store.describes_of_descend (D : Describable store nodes) (hn : nodes n)
    (hL : store.literal limits n modifiers = .ok L) {steps : List ChildStep}
    (hm : store.descend n steps = some m) :
    ∃ content M, store.content? m = some content ∧
      L.chase L (steps.flatMap ChildStep.route) = some M ∧ L.Describes content M := by
  obtain ⟨g, R, S, H, hdepicts⟩ := Store.exists_depicts D hn hL
  obtain ⟨M, hchase, hm', hdepicts'⟩ := hdepicts.exists_chase D S H hn hm
  obtain ⟨content, r, hcontent, hshows, hM⟩ := hdepicts'.shows S hm'
  exact ⟨content, M, hcontent, hchase, hshows.describes H hM⟩

end Node

/-! ## Answered nodes -/

/-- No type inside a node has two properties of one name. -/
def Store.NamesProperties (store : Store) (root : NodeRef) : Prop :=
  ∀ n content, store.Below root n → store.content? n = some content →
    (content.properties.map Member.name).Nodup

/-- It is enough to look at all nodes. -/
theorem Store.namesProperties_of_nodes {store : Store}
    (h : ∀ node ∈ store.nodes.toList,
      (node.content.elim [] fun content => content.properties.map Member.name).Nodup)
    (root : NodeRef) : store.NamesProperties root := by
  intro n content _ hcontent
  obtain ⟨node, hnode, hcontent⟩ := Option.bind_eq_some_iff.1 hcontent
  have hnames := h node (Array.mem_toList_iff.2 (Array.mem_of_getElem? hnode))
  rwa [hcontent] at hnames

/-- A uniform node with properly named properties is describable. -/
theorem Store.Uniform.describable {store : Store} {root : NodeRef} (h : store.Uniform root)
    (hnames : store.NamesProperties root) : Describable store (store.Below root) where
  children _ _ hn hcontent _ hchild := .child hn hcontent hchild
  content_eq := h.content_eq
  names := hnames

namespace Reflector

/-- Where the steps from an answered node to a type lead in the literal of the
node, the literal says what the type is. -/
theorem literal_describes_types {p : Program} {limit : UInt32} {r : Reflector} {n : NodeRef}
    (hn : Answered p.host limit r n) (hnames : r.store.NamesProperties n) {limits : LiteralLimits}
    {modifiers : Option Modifiers} {L : Literal} (hL : r.store.literal limits n modifiers = .ok L) :
    ∀ steps m, r.store.descend n steps = some m →
      ∃ content M, r.store.content? m = some content ∧
        L.chase L (steps.flatMap ChildStep.route) = some M ∧ L.Describes content M := by
  intro steps m hm
  have D := (hn.uniform Function.injective_id).describable hnames
  exact Store.describes_of_descend D .self hL hm

theorem answered_switch :
    Answered switch.host 3 ((ofLimit 3).after switch.host (.classType default ⟨1⟩)) 0 :=
  .now .start (by decide +kernel)

theorem namesProperties_switch :
    ((ofLimit 3).after switch.host (.classType default ⟨1⟩)).store.NamesProperties 0 :=
  Store.namesProperties_of_nodes (by decide +kernel) 0

theorem exists_literal_switch : ∃ L,
    ((ofLimit 3).after switch.host (.classType default ⟨1⟩)).store.literal .standard 0 none =
      .ok L := by
  have hliteral : (((ofLimit 3).after switch.host (.classType default ⟨1⟩)).store.literal
      .standard 0 none).toOption.isSome = true := by
    decide +kernel
  obtain ⟨L, hL⟩ := Option.isSome_iff_exists.1 hliteral
  exact ⟨L, toOption_eq_some_iff.1 hL⟩

/-- The union in the class holds a token for the class, and the steps go on behind
it to a literal that is written at another place. -/
theorem literal_describes_switch :
    let r := (ofLimit 3).after switch.host (.classType default ⟨1⟩)
    let steps := [ChildStep.property "next", .member 0, .property "label"]
    ∃ L M, r.store.literal .standard 0 none = .ok L ∧
      r.store.descend 0 steps = some 3 ∧ r.store.content? 3 = some (.stringLiteral "off") ∧
        L.chase L (steps.flatMap ChildStep.route) = some M ∧
          L.Describes (.stringLiteral "off") M := by
  intro r steps
  obtain ⟨L, hL⟩ := exists_literal_switch
  have hdescend : r.store.descend 0 steps = some 3 := by decide +kernel
  have hcontent : r.store.content? 3 = some (.stringLiteral "off") := by decide +kernel
  obtain ⟨content, M, hfound, hchase, hdescribes⟩ :=
    literal_describes_types answered_switch namesProperties_switch hL steps 3 hdescend
  obtain rfl := Option.some.inj (hfound.symm.trans hcontent)
  exact ⟨L, M, hL, hdescend, hcontent, hchase, hdescribes⟩

end Reflector

end TypeDescription
