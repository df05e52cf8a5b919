import TypeDescription.Proofs.Literal.Faithful
import TypeDescription.Proofs.Literal.Tracing
import TypeDescription.Proofs.Literal.Transcript

/-!
# Types are written once

In the literal of an answered node each type is written in full where it stands first,
and wherever it stands again there is a token for that place
(`Reflector.literal_writes_once`).  Literal strings and numbers are written wherever they
stand.  The order of the places is that of the walk of the layout, which knows nothing
of data objects or tokens.

The walk of the data objects has its stops where the walk of the layout has its spots,
and first meets a data object where its type stands first
(`firstVisit?_eq_first?`).  What the literal has at the stops is known from the graph.
-/

namespace TypeDescription

/-! ## All types are met -/

/-- There are no types inside a literal string or number. -/
theorem TypeContent.children_of_isLiteral {content : TypeContent}
    (h : content.kind.isLiteral = true) : content.children = [] := by
  cases content with
  | stringLiteral _ => rfl
  | numberLiteral _ => rfl
  | _ => cases h

/-- Nodes that are written once under one key are alike. -/
theorem Describable.content?_eq {store : Store} {nodes : NodeRef → Prop}
    (D : Describable store nodes) {n n' : NodeRef} {key : TypeId × TypeKind} (hn : nodes n)
    (hn' : nodes n') (hkey : store.shared? n = some key) (hkey' : store.shared? n' = some key) :
    store.content? n = store.content? n' := by
  obtain ⟨content, hnode, hkind, _⟩ := Store.shared?_eq_some_iff.1 hkey
  obtain ⟨content', hnode', hkind', _⟩ := Store.shared?_eq_some_iff.1 hkey'
  have heq := D.content_eq n n' _ content content' hn hn' hnode hnode' (hkind.trans hkind'.symm)
  rw [Store.content?_of_node? hnode, Store.content?_of_node? hnode', heq]

/-- A walk from a node comes to all types inside the node. -/
theorem Store.Walks.exists_spot {store : Store} {root n : NodeRef} {spots : List Spot}
    (D : Describable store (store.Below root)) (W : store.Walks [] [([], .type root)] spots)
    (hn : store.Below root n) : ∃ trail, (trail, .type n) ∈ spots := by
  have hnodes := W.nodes_inside D (List.forall_mem_singleton.2 (List.forall_mem_singleton.2 .self))
  induction hn with
  | self => exact ⟨[], W.subset List.mem_cons_self⟩
  | @child n child content hn hcontent hchild ih =>
    obtain ⟨trail, hspot⟩ := ih
    obtain ⟨⟨id, _⟩, hnode, rfl⟩ := Option.bind_eq_some_iff.1 hcontent
    cases hliteral : content.kind.isLiteral with
    | true =>
      rw [TypeContent.children_of_isLiteral hliteral] at hchild
      cases hchild
    | false =>
      have hkey : store.shared? n = some (id, content.kind) :=
        shared?_eq_some_iff.2 ⟨content, hnode, rfl, hliteral⟩
      obtain ⟨first, hfirst⟩ := exists_first? hspot hkey
      obtain ⟨n', hspot', hkey', hinside⟩ := W.inside_first List.not_mem_nil hfirst
      have hn' := hnodes _ hspot' n' List.mem_cons_self
      rw [D.content?_eq hn hn' hkey hkey'] at hcontent
      rw [← content.nodes_layout] at hchild
      obtain ⟨field, hfield, hchild⟩ := List.mem_flatMap.1 hchild
      have hpart : (.key field.1 :: first, field.2) ∈ store.inside (first, .type n') := by
        rw [inside, parts_of_content? hcontent, List.map_map]
        exact List.mem_map_of_mem (f := fun field => (Step.key field.1 :: first, field.2)) hfield
      exact W.exists_type (hinside hpart) hchild

/-! ## What is written for a type -/

/-- The literal has the type in full where the trail leads. -/
def Literal.TellsAt (L : Literal) (store : Store) (trail : Trail) (n : NodeRef) : Prop :=
  ∃ (content : TypeContent) (M : Literal), store.content? n = some content ∧ L.Site trail M ∧
    M.refPath? = none ∧ L.Describes content M

/-- Each type inside a node is written once, at the first of the spots where it stands. -/
structure Store.WritesOnce (store : Store) (root : NodeRef) (spots : List Spot) (L : Literal) :
    Prop where
  /-- One thing stands at a place. -/
  unique : ∀ trail M M', L.Site trail M → L.Site trail M' → M = M'
  /-- Each type stands somewhere. -/
  spot : ∀ n, store.Below root n → ∃ trail, (trail, .type n) ∈ spots
  /-- A type is written in full where it stands first. -/
  full : ∀ n key, store.Below root n → store.shared? n = some key →
    ∃ first, store.first? spots key = some first ∧ L.TellsAt store first n
  /-- Where it stands again there is a token for that place. -/
  again : ∀ trail n key first, (trail, .type n) ∈ spots → store.shared? n = some key →
    store.first? spots key = some first → trail ≠ first →
      L.Site trail (Literal.token first.reverse)
  /-- A literal string or number is written wherever it stands. -/
  literal : ∀ trail n, (trail, .type n) ∈ spots → store.shared? n = none → L.TellsAt store trail n
  /-- A token stands for a type that is written in full elsewhere. -/
  token : ∀ trail (M : Literal), L.Site trail M → M.refPath? ≠ none →
    ∃ n key first, (trail, .type n) ∈ spots ∧ store.shared? n = some key ∧
      store.first? spots key = some first ∧ trail ≠ first ∧
        M = Literal.token first.reverse ∧ L.TellsAt store first n
  /-- Whatever has something inside stands at a spot. -/
  part : ∀ trail M, L.Site trail M → M.slots ≠ [] →
    ∃ layout, (trail, layout) ∈ spots ∧ layout ≠ .scalar

section Transcribed

variable {store : Store} {nodes : NodeRef → Prop} {g : LiteralGenerator} {v : Value Expression}
  {spots : List Spot} {tour : List (Stop Expression)} {L M : Literal} {R : Ref → Literal → Prop}
  {n : NodeRef} {key : TypeId × TypeKind} {trail first : Trail}

/-- Where the data object of a type is written, the type is told. -/
theorem Traced.tellsAt (T : Traced store nodes g v spots tour) (H : g.heap.Renders L R)
    (hn : nodes n) {id : TypeId} {content : TypeContent} {r : Ref}
    (hnode : store.node? n = some ⟨id, some content⟩)
    (hobject : g.objects.lookup (id, content.kind) = some (.node r))
    (hM : ∃ M : Literal, L.Site trail M ∧ R r M ∧ M.refPath? = none) : L.TellsAt store trail n := by
  obtain ⟨M, hsite, hR, htoken⟩ := hM
  have hshows := T.sound.shows n id content r hn hnode hobject List.not_mem_nil
  exact ⟨content, M, Store.content?_of_node? hnode, hsite, htoken, hshows.describes H hR⟩

/-- At a spot with a type that is written once the walk stops at its data object. -/
theorem Traced.exists_object (T : Traced store nodes g v spots tour)
    (hspot : (trail, .type n) ∈ spots) (hkey : store.shared? n = some key) :
    ∃ content r, nodes n ∧ store.node? n = some ⟨key.1, some content⟩ ∧ content.kind = key.2 ∧
      key.2.isLiteral = false ∧ g.objects.lookup key = some (.node r) ∧
      (trail, .node r) ∈ tour := by
  obtain ⟨v, hstop, htraces⟩ := T.exists_stop hspot
  have hn := htraces.nodes n List.mem_cons_self
  cases htraces.fits.meets T.owned with
  | part _ htype _ _ => exact absurd rfl (htype n)
  | @shared _ id content r hnode hliteral hobject =>
    rw [Store.shared?_of_node? hnode, hliteral] at hkey
    obtain rfl := Option.some.inj hkey
    exact ⟨content, r, hn, hnode, rfl, hliteral, hobject, hstop⟩
  | literal hnode hliteral _ =>
    rw [Store.shared?_of_isLiteral hnode hliteral] at hkey
    cases hkey

/-- A token has something inside. -/
theorem Literal.slots_ne_nil (h : M.refPath? ≠ none) : M.slots ≠ [] := by
  cases M with
  | leaf s => exact absurd rfl h
  | array items => exact absurd rfl h
  | object fields =>
    cases fields with
    | nil => exact absurd rfl h
    | cons field fields => exact List.cons_ne_nil _ _

/-- A token stands where the walk comes to a type again. -/
theorem Traced.of_token (T : Traced store nodes g v spots tour) (C : Heap.Transcribes tour L R)
    (hsite : L.Site trail M) (htoken : M.refPath? ≠ none) :
    ∃ n key first, (trail, .type n) ∈ spots ∧ store.shared? n = some key ∧
      store.first? spots key = some first ∧ trail ≠ first ∧ M = Literal.token first.reverse := by
  have hplain : ∀ r, ¬ ∃ M' : Literal, L.Site trail M' ∧ R r M' ∧ M'.refPath? = none := by
    rintro r ⟨M', hsite', _, htoken'⟩
    exact htoken (C.tidy.site_unique hsite hsite' ▸ htoken')
  obtain ⟨w, hstop, hcontainer⟩ := C.stop trail M hsite (Literal.slots_ne_nil htoken)
  obtain ⟨layout, hspot, htraces⟩ := T.exists_spot hstop
  cases htraces.fits.meets T.owned with
  | scalar hscalar =>
    rw [hscalar] at hcontainer
    cases hcontainer
  | literal _ _ _ => exact absurd (C.exempt _ _ hstop) (hplain _)
  | @shared n id content r hnode hliteral hobject =>
    have hkey : store.shared? n = some (id, content.kind) :=
      Store.shared?_eq_some_iff.2 ⟨_, hnode, rfl, hliteral⟩
    obtain ⟨first, hfirst⟩ := exists_firstVisit? hstop
    have hne : trail ≠ first := by
      rintro rfl
      exact hplain r (C.first r _ hfirst)
    refine ⟨n, _, first, hspot, hkey, ?_, hne,
      C.tidy.site_unique hsite (C.again r trail first hstop hfirst hne)⟩
    rw [← firstVisit?_eq_first? T.sound T.owned T.traces hobject hliteral, hfirst]
  | @part _ r _ _ hr _ =>
    -- A list or a table is met once, so it stands where it is written.
    obtain ⟨first, hfirst⟩ := exists_firstVisit? hstop
    have hpending := T.single r hr
    rw [if_neg List.not_mem_nil, Nat.zero_add] at hpending
    obtain rfl := T.tours.eq_of_pending_le hpending hstop (mem_of_firstVisit? hfirst)
    exact absurd (C.first r _ hfirst) (hplain r)

/-- The literal of a node has each type once. -/
theorem Traced.writesOnce {root : NodeRef} (D : Describable store (store.Below root))
    (W : store.Walks [] [([], .type root)] spots)
    (T : Traced store (store.Below root) g v spots tour) (H : g.heap.Renders L R)
    (C : Heap.Transcribes tour L R) : store.WritesOnce root spots L := by
  have hfull : ∀ n key first, store.Below root n → store.shared? n = some key →
      store.first? spots key = some first → L.TellsAt store first n := by
    intro n key first hn hkey hfirst
    obtain ⟨n', hspot', hkey', _⟩ := W.inside_first List.not_mem_nil hfirst
    obtain ⟨content, r, hn', hnode, hkind, hliteral, hobject, _⟩ := T.exists_object hspot' hkey'
    rw [← firstVisit?_eq_first? T.sound T.owned T.traces hobject hliteral] at hfirst
    unfold Literal.TellsAt
    rw [D.content?_eq hn hn' hkey hkey']
    exact T.tellsAt H hn' hnode (hkind ▸ hobject) (C.first r first hfirst)
  constructor
  case unique => exact fun trail M M' hM hM' => C.tidy.site_unique hM hM'
  case spot => exact fun n hn => W.exists_spot D hn
  case full =>
    intro n key hn hkey
    obtain ⟨trail, hspot⟩ := W.exists_spot D hn
    obtain ⟨first, hfirst⟩ := Store.exists_first? hspot hkey
    exact ⟨first, hfirst, hfull n key first hn hkey hfirst⟩
  case again =>
    intro trail n key first hspot hkey hfirst hne
    obtain ⟨content, r, _, _, _, hliteral, hobject, hstop⟩ := T.exists_object hspot hkey
    rw [← firstVisit?_eq_first? T.sound T.owned T.traces hobject hliteral] at hfirst
    exact C.again r trail first hstop hfirst hne
  case literal =>
    intro trail n hspot hkey
    obtain ⟨v, hstop, htraces⟩ := T.exists_stop hspot
    cases htraces.fits.meets T.owned with
    | part _ htype _ _ => exact absurd rfl (htype n)
    | shared hnode hliteral _ =>
      rw [Store.shared?_of_node? hnode, hliteral] at hkey
      cases hkey
    | literal hnode _ hobject =>
      exact T.tellsAt H (htraces.nodes n List.mem_cons_self) hnode hobject (C.exempt _ _ hstop)
  case token =>
    intro trail M hsite htoken
    obtain ⟨n, key, first, hspot, hkey, hfirst, hne, hM⟩ := T.of_token C hsite htoken
    obtain ⟨_, _, hn, _⟩ := T.exists_object hspot hkey
    exact ⟨n, key, first, hspot, hkey, hfirst, hne, hM, hfull n key first hn hkey hfirst⟩
  case part =>
    intro trail M hsite hslots
    obtain ⟨w, hstop, hcontainer⟩ := C.stop trail M hsite hslots
    obtain ⟨layout, hspot, htraces⟩ := T.exists_spot hstop
    exact ⟨layout, hspot, (htraces.isContainer_iff T.owned).1 hcontainer⟩

end Transcribed

/-! ## Answered nodes -/

namespace Reflector

/-- In the literal of an answered node each type is written once, where a walk of the
layout comes to it first. -/
theorem literal_writes_once {p : Program} {limit : UInt32} {r : Reflector} {n : NodeRef}
    (hn : Answered p.host limit r n) (hnames : r.store.NamesProperties n) {limits : LiteralLimits}
    {modifiers : Option Modifiers} {L : Literal} (hL : r.store.literal limits n modifiers = .ok L) :
    (∃ spots, r.store.Walks [] [([], .type n)] spots) ∧
      ∀ spots, r.store.Walks [] [([], .type n)] spots → r.store.WritesOnce n spots L := by
  refine ⟨r.store.exists_walks [] _, fun spots W => ?_⟩
  have D := (hn.uniform Function.injective_id).describable hnames
  obtain ⟨v, g, t, k, hrun, hencoded, hwritten⟩ := LiteralGenerator.literal_eq_ok hL
  obtain ⟨tour, T⟩ := W.exists_traced D .self hrun
  obtain ⟨R, H, C⟩ := Heap.exists_transcript T.sound.proper T.below T.tours
    (exemptsScalars_of_traces T.sound T.owned T.traces) hencoded hwritten
  exact T.writesOnce D W H C

theorem literal_writes_once_switch :
    let r := (ofLimit 3).after switch.host (.classType default ⟨1⟩)
    ∃ L spots, Answered switch.host 3 r 0 ∧ r.store.NamesProperties 0 ∧
      r.store.literal .standard 0 none = .ok L ∧ r.store.Walks [] [([], .type 0)] spots ∧
        r.store.WritesOnce 0 spots L := by
  obtain ⟨L, hL⟩ := exists_literal_switch
  obtain ⟨⟨spots, W⟩, honce⟩ := literal_writes_once answered_switch namesProperties_switch hL
  exact ⟨L, spots, answered_switch, namesProperties_switch, hL, W, honce spots W⟩

end Reflector

end TypeDescription
