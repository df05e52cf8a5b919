import TypeDescription.Proofs.Graph.Tokens
import TypeDescription.Proofs.Literal.Depiction
import TypeDescription.Proofs.Literal.Layout
import TypeDescription.Proofs.Literal.Ownership
import TypeDescription.Proofs.Literal.Transcript

/-!
# Walks of data objects

The data objects of types are a graph, and the depth-first walk of the graph comes to the
same places as the walk of the literal's layout: `Store.Walks.exists_tour`.  A type that
was met before has a data object that was met before, and the other way round.

That a list or a table is always gone into needs more.  It is met once, because it stands
in one place: `Heap.pending` counts where a container can still be met, on the agenda of
the walk and inside the containers that are not met yet, and a walk only makes that less
(`Heap.Tours.count_le`).
-/

namespace TypeDescription

/-! ## What can still be met -/

namespace Heap

/-- How often a walk can still meet a container. -/
def pending (h : Heap Expression) (met : List Ref) (agenda : List (Stop Expression)) (q : Ref) :
    Nat :=
  (agenda.map Prod.snd).count (.node q) + ∑ r ∈ h.unmet met, (h.slots r).count (.node q)

section Pending

variable {h : Heap Expression} {met : List Ref} {agenda rest stops : List (Stop Expression)}
  {q r : Ref}

theorem pending_nil (h : Heap Expression) (agenda : List (Stop Expression)) (q : Ref) :
    h.pending [] agenda q = (agenda.map Prod.snd).count (.node q) + h.holders q := by
  simp [pending, holders, unmet]

theorem pending_cons (stop : Stop Expression) :
    h.pending met (stop :: rest) q = h.pending met rest q + [stop.2].count (.node q) := by
  unfold pending
  simp only [List.map_cons, List.count_cons, List.count_nil]
  omega

theorem map_snd_inside (h : Heap Expression) (trail : Trail) (r : Ref) :
    (h.inside trail r).map Prod.snd = h.slots r := by
  rw [← values_view, ← View.slots_snd, inside, List.map_map]
  rfl

/-- A container that is met puts what is inside it on the agenda. -/
theorem pending_inside (hr : r ∉ met) (trail : Trail) :
    h.pending (r :: met) (h.inside trail r ++ rest) q = h.pending met rest q := by
  have herase : h.unmet (r :: met) = (h.unmet met).erase r := by
    ext s
    simp only [unmet, Finset.mem_filter, Finset.mem_range, List.mem_cons, not_or,
      Finset.mem_erase]
    exact and_left_comm
  have hsum : (h.slots r).count (.node q) + ∑ s ∈ (h.unmet met).erase r, (h.slots s).count (.node q)
      = ∑ s ∈ h.unmet met, (h.slots s).count (.node q) := by
    by_cases hlt : r < h.size
    · have hmem : r ∈ h.unmet met := by simp [unmet, hlt, hr]
      exact Finset.add_sum_erase _ (fun s => (h.slots s).count (.node q)) hmem
    · have hcell : h.cell? r = none := Array.getElem?_eq_none (Nat.le_of_not_lt hlt)
      have hslots : h.slots r = [] := by simp [slots, hcell]
      have hmem : r ∉ h.unmet met := by simp [unmet, hlt]
      rw [hslots, Finset.erase_eq_of_notMem hmem, List.count_nil, Nat.zero_add]
  unfold pending
  rw [herase, List.map_append, List.count_append, map_snd_inside]
  omega

/-- A walk does not meet a container more often. -/
theorem Tours.count_le (T : h.Tours met agenda stops) (q : Ref) :
    (stops.map Prod.snd).count (.node q) ≤ h.pending met agenda q := by
  induction T with
  | done => exact Nat.zero_le _
  | pass _ _ ih =>
    rw [pending_cons, List.map_cons, List.count_cons]
    simp only [List.count_cons, List.count_nil]
    omega
  | @enter met trail r rest stops hr _ ih =>
    rw [pending_inside hr] at ih
    rw [pending_cons, List.map_cons, List.count_cons]
    simp only [List.count_cons, List.count_nil]
    omega

/-- A container that stands in one place at most is met in one place at most. -/
theorem Tours.eq_of_pending_le {trail trail' : Trail} (T : h.Tours met agenda stops)
    (hq : h.pending met agenda q ≤ 1) (hmem : (trail, .node q) ∈ stops)
    (hmem' : (trail', .node q) ∈ stops) : trail = trail' := by
  by_contra hne
  have htwo : 2 ≤ (stops.map Prod.snd).count (.node q) := by
    have hsub : [(trail, Value.node q), (trail', .node q)].Subperm stops := by
      refine List.subperm_of_subset ?_ ?_
      · simpa using hne
      · simp [hmem, hmem']
    have hcount := hsub.countP_le fun stop => stop.2 == Value.node q
    rw [List.count, List.countP_map]
    simpa [Function.comp_def] using hcount
  have hle := T.count_le q
  omega

end Pending

end Heap

/-! ## What stands in data objects -/

namespace Layout

/-- The value is what stands at such a place. -/
def Fits (store : Store) (s : Stock) : Layout → Value Expression → Prop
  | scalar, v => v.unwrap.isContainer = false
  | type n, v => HandedOut store n s v
  | types nodes, v => Lists (HandedOut store) nodes s v
  | properties members, v => ShowsProperties store members s v
  | constructors list, v => Lists (ShowsConstructor store) list s v
  | constructor c, v => ShowsConstructor store c s v
  | parameters members, v => Lists (ShowsParameter store) members s v
  | parameter p, v => ShowsParameter store p s v

end Layout

section Fits

variable {store : Store} {nodes : NodeRef → Prop} {g : LiteralGenerator} {s : Stock}
  {v : Value Expression} {r : Ref} {content : TypeContent}

/-- The fields of a data object, one by one. -/
theorem Shows.forall₂_layout (h : Shows store content s r) :
    ∃ t, s.cell? r = some (.object t) ∧
      List.Forall₂ (fun field entry => field.1 = entry.1 ∧ field.2.Fits store s entry.2)
        content.layout t.entries := by
  obtain ⟨t, position, fields, hcell, ht, hall⟩ := h
  refine ⟨t, hcell, ?_⟩
  have hheader : ∀ v ∈ (Generation.header content.kind position).map Prod.snd,
      v.unwrap.isContainer = false :=
    Generation.isContainer_header
  simp only [Generation.header, List.map_cons, List.map_nil, List.forall_mem_cons] at hheader
  obtain ⟨hkind, hmodifiers, hinitializer, _⟩ := hheader
  rw [ht]
  refine .cons ⟨rfl, hkind⟩ (.cons ⟨rfl, hmodifiers⟩ (.cons ⟨rfl, hinitializer⟩ ?_))
  have hfacts : List.Forall₂ (fun field fact => field.1 = fact.1 ∧
      ∀ v, fact.2 s v → field.2.Fits store s v) content.fields (fieldFacts store content) := by
    have hscalar : ∀ {w : Value Expression}, w.unwrap.isContainer = false →
        ∀ v, v = w → Layout.scalar.Fits store s v := fun hw v hv => hv ▸ hw
    cases content with
    | object name members =>
      refine .cons ⟨rfl, hscalar ?_⟩ (.cons ⟨rfl, fun _ h => h⟩ .nil)
      cases name <;> rfl
    | classType content =>
      refine .cons ⟨rfl, hscalar rfl⟩ (.cons ⟨rfl, fun _ h => h⟩ (.cons ⟨rfl, fun _ h => h⟩ ?_))
      show List.Forall₂ _ (content.base.toList.map _) (content.base.toList.map _)
      rw [List.forall₂_map_left_iff, List.forall₂_map_right_iff, List.forall₂_same]
      exact fun base _ => ⟨rfl, fun _ h => h⟩
    | tuple elements => exact .cons ⟨rfl, fun _ h => h⟩ .nil
    | union members => exact .cons ⟨rfl, fun _ h => h⟩ .nil
    | stringLiteral value => exact .cons ⟨rfl, hscalar rfl⟩ .nil
    | numberLiteral value => exact .cons ⟨rfl, hscalar rfl⟩ .nil
    | reference name arguments =>
      exact .cons ⟨rfl, hscalar rfl⟩ (.cons ⟨rfl, fun _ h => h⟩ .nil)
    | _ => exact .nil
  refine forall₂_trans (fun field fact entry hfact hentry => ?_) hfacts hall
  exact ⟨hfact.1.trans hentry.1.symm, hfact.2 _ hentry.2⟩

/-- The slots of a container are what stands in a list or a table. -/
def Heap.Holds (h : Heap Expression) (store : Store) (s : Stock) (r : Ref)
    (parts : List (Step × Layout)) : Prop :=
  List.Forall₂ (fun part slot => part.1 = slot.1 ∧ part.2.Fits store s slot.2) parts
    (h.view r).slots

/-- An array holds what stands in a list. -/
theorem Lists.exists_holds {α : Type} {fact : α → Stock → Value Expression → Prop} {l : List α}
    (item : α → Layout) (hfact : ∀ a v, fact a (g.stock []) v → (item a).Fits store (g.stock []) v)
    (h : Lists fact l (g.stock []) v) :
    ∃ r, v = .node r ∧ ¬ g.heap.Tagged r ∧
      g.heap.Holds store (g.stock []) r (Layout.items item l) := by
  obtain ⟨r, values, rfl, hcell, hall⟩ := h
  rw [cell?_stock_nil] at hcell
  refine ⟨r, rfl, ?_, ?_⟩
  · rintro ⟨t, _, hcell', _⟩
    cases hcell.symm.trans hcell'
  · have hview : g.heap.view r = .list values := by
      unfold Heap.view
      rw [hcell]
      rfl
    have hitems : Layout.items item l =
        (l.map item).zipIdx.map fun (part, i) => (Step.ofIndex i, part) := by
      rw [List.zipIdx_map, List.map_map]
      rfl
    unfold Heap.Holds
    rw [hview, hitems]
    exact forall₂_ofIndex (List.forall₂_map_left_iff.2 (hall.imp hfact)) 0

/-- An object holds its fields. -/
theorem HasFields.holds {fields : List (String × Value Expression)}
    (parts : List (String × Layout)) (h : HasFields fields (g.stock []) v)
    (hparts : List.Forall₂ (fun part field => part.1 = field.1 ∧
      part.2.Fits store (g.stock []) field.2) parts fields)
    (hkind : ∀ tag, ("kind", tag) ∈ fields → tag.unwrap.isContainer = true) :
    ∃ r, v = .node r ∧ ¬ g.heap.Tagged r ∧ g.heap.Holds store (g.stock []) r
      (parts.map fun part => (.key part.1, part.2)) := by
  obtain ⟨r, t, rfl, hcell, rfl⟩ := h
  rw [cell?_stock_nil] at hcell
  refine ⟨r, rfl, ?_, ?_⟩
  · rintro ⟨t', tag, hcell', htag, hscalar⟩
    obtain rfl := Cell.object.inj (Option.some.inj (hcell.symm.trans hcell'))
    have hcontainer := hkind tag ((Table.get?_eq_some_iff _).1 htag)
    rw [hscalar] at hcontainer
    cases hcontainer
  · have hview : g.heap.view r = .named t.entries := by
      unfold Heap.view
      rw [hcell]
      rfl
    unfold Heap.Holds
    rw [hview]
    refine List.forall₂_map_left_iff.2 (List.forall₂_map_right_iff.2 (hparts.imp fun _ _ h => ?_))
    exact ⟨congrArg Step.key h.1, h.2⟩

theorem ShowsProperties.exists_holds {members : List Member}
    (h : ShowsProperties store members (g.stock []) v) :
    ∃ r, v = .node r ∧ ¬ g.heap.Tagged r ∧
      g.heap.Holds store (g.stock []) r (Layout.properties members).parts := by
  obtain ⟨values, hfields, hall⟩ := h
  have hparts : List.Forall₂ (fun part field => part.1 = field.1 ∧
      part.2.Fits store (g.stock []) field.2)
      (members.map fun member => (member.name, Layout.type member.type))
      ((members.map Member.name).zip values) := by
    clear hfields
    induction hall with
    | nil => exact .nil
    | cons hv _ ih => exact .cons ⟨rfl, hv⟩ ih
  have hkind : ∀ tag, ("kind", tag) ∈ (members.map Member.name).zip values →
      tag.unwrap.isContainer = true := fun tag htag =>
    forall_mem_of_forall₂ hall (P := fun v => v.unwrap.isContainer = true)
      (fun _ _ hv => hv.isContainer) tag (List.of_mem_zip htag).2
  obtain ⟨r, hr, htagged, hholds⟩ := hfields.holds _ hparts hkind
  rw [List.map_map] at hholds
  exact ⟨r, hr, htagged, hholds⟩

theorem isContainer_modifiersValue (m : Option Modifiers) :
    (Generation.modifiersValue m).unwrap.isContainer = false := by
  cases m <;> rfl

/-- A list or a table is a container of its own, with what stands in it. -/
theorem Layout.Fits.exists_holds {layout : Layout} (h : layout.Fits store (g.stock []) v)
    (hscalar : layout ≠ .scalar) (htype : ∀ n, layout ≠ .type n) :
    ∃ r, v = .node r ∧ ¬ g.heap.Tagged r ∧
      g.heap.Holds store (g.stock []) r layout.parts := by
  cases layout with
  | scalar => exact absurd rfl hscalar
  | type n => exact absurd rfl (htype n)
  | types nodes => exact Lists.exists_holds .type (fun _ _ h => h) h
  | properties members => exact ShowsProperties.exists_holds h
  | constructors list => exact Lists.exists_holds .constructor (fun _ _ h => h) h
  | constructor c =>
    obtain ⟨parameters, hfields, hparameters⟩ := h
    have hmodifiers : Layout.scalar.Fits store (g.stock []) _ :=
      isContainer_modifiersValue (some c.modifiers)
    refine hfields.holds [("modifiers", .scalar), ("parameters", .parameters _)] ?_ ?_
    · exact .cons ⟨rfl, hmodifiers⟩ (.cons ⟨rfl, hparameters⟩ .nil)
    · simp
  | parameters members => exact Lists.exists_holds .parameter (fun _ _ h => h) h
  | parameter p =>
    obtain ⟨type, hfields, htype⟩ := h
    have hmodifiers : Layout.scalar.Fits store (g.stock []) _ :=
      isContainer_modifiersValue (some p.modifiers)
    refine hfields.holds [("name", .scalar), ("modifiers", .scalar), ("type", .type _)] ?_ ?_
    · exact .cons ⟨rfl, rfl⟩ (.cons ⟨rfl, hmodifiers⟩ (.cons ⟨rfl, htype⟩ .nil))
    · simp

end Fits

/-! ## The walk of the data objects -/

section Tour

variable {store : Store} {nodes : NodeRef → Prop} {g : LiteralGenerator} {n : NodeRef}
  {id : TypeId} {content : TypeContent} {r : Ref} {spot : Spot} {stop : Stop Expression}

/-- A walk of the data objects stops where the walk of the layout has a spot. -/
structure Spot.Traces (store : Store) (nodes : NodeRef → Prop) (g : LiteralGenerator) (spot : Spot)
    (stop : Stop Expression) : Prop where
  trail : spot.1 = stop.1
  nodes : ∀ n ∈ spot.2.nodes, nodes n
  fits : spot.2.Fits store (g.stock []) stop.2

/-- The data object of a type holds its fields. -/
theorem Sound.holds_type (S : Sound store nodes [] g) (hn : nodes n)
    (hnode : store.node? n = some ⟨id, some content⟩)
    (hobject : g.objects.lookup (id, content.kind) = some (.node r)) :
    g.heap.Holds store (g.stock []) r (store.parts (.type n)) := by
  obtain ⟨t, hcell, hall⟩ :=
    (S.shows n id content r hn hnode hobject List.not_mem_nil).forall₂_layout
  rw [cell?_stock_nil] at hcell
  have hview : g.heap.view r = .named t.entries := by
    unfold Heap.view
    rw [hcell]
    rfl
  unfold Heap.Holds
  rw [hview, Store.parts_of_content? (Store.content?_of_node? hnode)]
  refine List.forall₂_map_left_iff.2 (List.forall₂_map_right_iff.2 (hall.imp fun _ _ h => ?_))
  exact ⟨congrArg Step.key h.1, h.2⟩

/-- The nodes of a spot are those of the spots inside. -/
theorem Spot.nodes_of_mem_parts (D : Describable store nodes) (hnodes : ∀ n ∈ spot.2.nodes, nodes n)
    {part : Step × Layout} (hpart : part ∈ store.parts spot.2) : ∀ n ∈ part.2.nodes, nodes n := by
  cases hspot : spot.2 with
  | type n =>
    rw [hspot] at hpart hnodes
    obtain ⟨field, hfield, rfl⟩ := List.mem_map.1 hpart
    cases hcontent : store.content? n with
    | none =>
      rw [hcontent] at hfield
      cases hfield
    | some content =>
      rw [hcontent] at hfield
      intro m hm
      exact D.children n content (hnodes n List.mem_cons_self) hcontent m
        (TypeContent.nodes_layout content ▸ List.mem_flatMap.2 ⟨field, hfield, hm⟩)
  | _ =>
    have hparts : store.parts spot.2 = spot.2.parts := by rw [hspot]; rfl
    rw [hparts] at hpart
    rw [spot.2.nodes_eq_flatMap (by rw [hspot]; exact fun _ => nofun)] at hnodes
    exact fun m hm => hnodes m (List.mem_flatMap.2 ⟨part, hpart, hm⟩)

/-- A walk comes to the given nodes only. -/
theorem Store.Walks.nodes_inside (D : Describable store nodes) {met : List (TypeId × TypeKind)}
    {agenda spots : List Spot} (W : store.Walks met agenda spots)
    (hagenda : ∀ spot ∈ agenda, ∀ n ∈ spot.2.nodes, nodes n) :
    ∀ spot ∈ spots, ∀ n ∈ spot.2.nodes, nodes n := by
  induction W with
  | done => exact hagenda
  | pass _ _ ih =>
    obtain ⟨hspot, hrest⟩ := List.forall_mem_cons.1 hagenda
    exact List.forall_mem_cons.2 ⟨hspot, ih hrest⟩
  | enter _ _ ih =>
    obtain ⟨hspot, hrest⟩ := List.forall_mem_cons.1 hagenda
    refine List.forall_mem_cons.2 ⟨hspot, ih (List.forall_mem_append.2 ⟨?_, hrest⟩)⟩
    refine List.forall_mem_map.2 fun part hpart => ?_
    exact Spot.nodes_of_mem_parts D hspot hpart

/-- Where a walk goes inside, it stops where the layout has spots inside. -/
theorem Spot.traces_inside (D : Describable store nodes) (h : spot.Traces store nodes g stop)
    (hholds : g.heap.Holds store (g.stock []) r (store.parts spot.2)) :
    List.Forall₂ (Spot.Traces store nodes g) (store.inside spot) (g.heap.inside stop.1 r) := by
  have hnodes : ∀ part ∈ store.parts spot.2, ∀ n ∈ part.2.nodes, nodes n := fun part hpart =>
    Spot.nodes_of_mem_parts D h.nodes hpart
  unfold Store.inside Heap.inside
  refine List.forall₂_map_left_iff.2 (List.forall₂_map_right_iff.2 ?_)
  refine ((List.forall₂_and_left _ _).2 ⟨hnodes, hholds⟩).imp fun part slot hpart => ?_
  exact ⟨by rw [hpart.2.1, h.trail], hpart.1, hpart.2.2⟩

/-- What a walk of the data objects comes to: a scalar, the data object of a type that is
written once, that of a literal string or number, or a list or table. -/
inductive Meets (store : Store) (g : LiteralGenerator) : Layout → Value Expression → Prop
  | scalar {v : Value Expression} : v.unwrap.isContainer = false → Meets store g .scalar v
  | shared {n : NodeRef} {id : TypeId} {content : TypeContent} {r : Ref} :
      store.node? n = some ⟨id, some content⟩ → content.kind.isLiteral = false →
        g.objects.lookup (id, content.kind) = some (.node r) → Meets store g (.type n) (.node r)
  | literal {n : NodeRef} {id : TypeId} {content : TypeContent} {r : Ref} :
      store.node? n = some ⟨id, some content⟩ → content.kind.isLiteral = true →
        g.objects.lookup (id, content.kind) = some (.node r) →
          Meets store g (.type n) (.exempt (.node r))
  | part {layout : Layout} {r : Ref} : layout ≠ .scalar → (∀ n, layout ≠ .type n) →
      ¬ g.IsObject r → g.heap.Holds store (g.stock []) r layout.parts →
        Meets store g layout (.node r)

theorem Layout.Fits.meets {layout : Layout} {v : Value Expression} (O : Owned g)
    (h : layout.Fits store (g.stock []) v) : Meets store g layout v := by
  by_cases hscalar : layout = .scalar
  · subst hscalar
    exact .scalar h
  by_cases htype : ∃ n, layout = .type n
  · obtain ⟨n, rfl⟩ := htype
    obtain ⟨id, content, r, hnode, hobject, rfl⟩ := h
    unfold Generation.handOut
    cases hliteral : content.kind.isLiteral with
    | true => exact .literal hnode hliteral hobject
    | false => exact .shared hnode hliteral hobject
  · have htype : ∀ n, layout ≠ .type n := not_exists.1 htype
    obtain ⟨r, rfl, htagged, hholds⟩ := h.exists_holds hscalar htype
    refine .part hscalar htype (fun ⟨key, hkey⟩ => ?_) hholds
    obtain ⟨r', heq, htagged'⟩ := O.object key _ hkey
    exact htagged (Value.node.inj heq ▸ htagged')

/-- The types met are those whose data objects were met. -/
def Agrees (g : LiteralGenerator) (met : List (TypeId × TypeKind)) (refs : List Ref) : Prop :=
  ∀ key r, g.objects.lookup key = some (.node r) → key.2.isLiteral = false →
    (key ∈ met ↔ r ∈ refs)

/-- A container that is no data object can be met once at most. -/
def Single (g : LiteralGenerator) (refs : List Ref) (agenda : List (Stop Expression)) : Prop :=
  ∀ q, ¬ g.IsObject q → (if q ∈ refs then 1 else 0) + g.heap.pending refs agenda q ≤ 1

variable {met : List (TypeId × TypeKind)} {refs : List Ref} {rest : List (Stop Expression)}

theorem Single.tail (h : Single g refs (stop :: rest)) : Single g refs rest := by
  intro q hq
  have hle := h q hq
  rw [Heap.pending_cons] at hle
  omega

/-- A container that is met is not met again. -/
theorem Single.enter {trail : Trail} (h : Single g refs ((trail, .node r) :: rest))
    (hr : r ∉ refs) :
    Single g (r :: refs) (g.heap.inside trail r ++ rest) := by
  intro q hq
  have hle := h q hq
  rw [Heap.pending_cons] at hle
  rw [Heap.pending_inside hr]
  by_cases heq : r = q
  · subst heq
    rw [if_neg hr, List.count_singleton_self] at hle
    rw [if_pos List.mem_cons_self]
    omega
  · have hmem : q ∈ r :: refs ↔ q ∈ refs := by
      simp only [List.mem_cons, or_iff_right_iff_imp]
      exact fun h => absurd h.symm heq
    simp only [hmem]
    omega

/-- A list or a table on the agenda was not met. -/
theorem Single.notMem {trail : Trail} (h : Single g refs ((trail, .node r) :: rest))
    (hr : ¬ g.IsObject r) : r ∉ refs := by
  intro hmem
  have hle := h r hr
  rw [Heap.pending_cons, List.count_singleton_self, if_pos hmem] at hle
  omega

/-- A walk does not go inside where the walk of the layout does not open a spot. -/
theorem Spot.Traces.passes (O : Owned g) (h : spot.Traces store nodes g stop)
    (hmet : Agrees g met refs) (hopens : ¬ store.Opens met spot.2) :
    ∀ q, stop.2 = .node q → q ∈ refs := by
  obtain ⟨trail, layout⟩ := spot
  obtain ⟨trail', v⟩ := stop
  rintro q rfl
  cases h.fits.meets O with
  | scalar hscalar => cases hscalar
  | shared hnode hliteral hobject =>
    refine (hmet _ q hobject hliteral).1 (by_contra fun hmem => hopens ⟨_, ?_, hmem⟩)
    exact Store.shared?_eq_some_iff.2 ⟨_, hnode, rfl, hliteral⟩
  | part hscalar htype _ _ => exact absurd (Store.opens_of_ne hscalar htype) hopens

/-- Where the walk of the layout opens a spot there is a container that was not met, and
what is inside it is what the layout says. -/
theorem Spot.Traces.enters (S : Sound store nodes [] g) (O : Owned g)
    (h : spot.Traces store nodes g stop) (hmet : Agrees g met refs)
    (hsingle : Single g refs (stop :: rest)) (hopens : store.Opens met spot.2) :
    ∃ r, stop.2 = .node r ∧ r ∉ refs ∧
      g.heap.Holds store (g.stock []) r (store.parts spot.2) ∧
        Agrees g ((store.key? spot.2).toList ++ met) (r :: refs) := by
  obtain ⟨trail, layout⟩ := spot
  obtain ⟨trail', v⟩ := stop
  cases h.fits.meets O with
  | scalar _ => exact absurd hopens id
  | literal hnode hliteral _ =>
    exact absurd hopens (Store.not_opens_of_shared? (Store.shared?_of_isLiteral hnode hliteral))
  | @shared n id content r hnode hliteral hobject =>
    have hkey : store.shared? n = some (id, content.kind) :=
      Store.shared?_eq_some_iff.2 ⟨_, hnode, rfl, hliteral⟩
    obtain ⟨_, hkey', hmem⟩ := hopens
    obtain rfl := Option.some.inj (hkey.symm.trans hkey')
    refine ⟨r, rfl, fun hr => hmem ((hmet _ r hobject hliteral).2 hr),
      S.holds_type (h.nodes n List.mem_cons_self) hnode hobject,
      fun key r' hobject' hliteral' => ?_⟩
    rw [Store.marks_of_shared? hkey, List.mem_cons, List.mem_cons, hmet key r' hobject' hliteral']
    refine or_congr_left ⟨fun heq => ?_, fun heq => ?_⟩
    · subst heq
      exact Value.node.inj (Option.some.inj (hobject'.symm.trans hobject))
    · subst heq
      exact S.object_inj _ _ _ hobject' hobject
  | part hscalar htype hr hholds =>
    rw [Store.parts_of_ne_type htype, Store.key?_of_ne_type htype]
    refine ⟨_, rfl, hsingle.notMem hr, hholds, fun key r' hobject hliteral => ?_⟩
    rw [Option.toList_none, List.nil_append, List.mem_cons, hmet key r' hobject hliteral]
    refine ⟨.inr, fun hmem => hmem.resolve_left fun heq => hr ⟨key, heq ▸ hobject⟩⟩

/-- The walk of the layout is a walk of the data objects. -/
theorem Store.Walks.exists_tour (D : Describable store nodes) (S : Sound store nodes [] g)
    (O : Owned g) {agenda spots : List Spot} (W : store.Walks met agenda spots)
    {stops : List (Stop Expression)}
    (hstops : List.Forall₂ (Spot.Traces store nodes g) agenda stops)
    (hmet : Agrees g met refs) (hsingle : Single g refs stops) :
    ∃ tour, g.heap.Tours refs stops tour ∧ List.Forall₂ (Spot.Traces store nodes g) spots tour := by
  induction W generalizing refs stops with
  | done =>
    cases hstops
    exact ⟨[], .done, .nil⟩
  | pass hopens _ ih =>
    cases hstops with
    | cons hspot hrest =>
      obtain ⟨tour, T, htour⟩ := ih hrest hmet hsingle.tail
      exact ⟨_, .pass (hspot.passes O hmet hopens) T, .cons hspot htour⟩
  | enter hopens _ ih =>
    cases hstops with
    | @cons _ stop _ rest hspot hrest =>
      obtain ⟨r, hv, hr, hholds, hmet'⟩ := hspot.enters S O hmet hsingle hopens
      obtain ⟨trail, v⟩ := stop
      obtain rfl : v = .node r := hv
      have hinside := Spot.traces_inside D hspot hholds
      obtain ⟨tour, T, htour⟩ := ih (List.rel_append hinside hrest) hmet' (hsingle.enter hr)
      exact ⟨_, .enter hr T, .cons hspot htour⟩

/-! ## What a walk stops at -/

variable {key : TypeId × TypeKind} {spots : List Spot} {tour : List (Stop Expression)}

/-- A walk stops at containers except where scalars stand. -/
theorem Spot.Traces.isContainer_iff (O : Owned g) (h : spot.Traces store nodes g stop) :
    stop.2.unwrap.isContainer = true ↔ spot.2 ≠ .scalar := by
  obtain ⟨trail, layout⟩ := spot
  obtain ⟨trail', v⟩ := stop
  cases h.fits.meets O with
  | scalar hscalar => simp [hscalar]
  | part hscalar _ _ _ => exact iff_of_true rfl hscalar
  | _ => exact iff_of_true rfl nofun

/-- A walk stops at a data object where its type stands, and nowhere else. -/
theorem Spot.Traces.key?_eq_some_iff (S : Sound store nodes [] g) (O : Owned g)
    (h : spot.Traces store nodes g stop) (hobject : g.objects.lookup key = some (.node r))
    (hliteral : key.2.isLiteral = false) : store.key? spot.2 = some key ↔ stop.2 = .node r := by
  obtain ⟨trail, layout⟩ := spot
  obtain ⟨trail', v⟩ := stop
  cases h.fits.meets O with
  | scalar hscalar =>
    refine iff_of_false (fun hkey => by cases hkey) fun heq => ?_
    obtain rfl : v = .node r := heq
    cases hscalar
  | literal hnode hliteral' _ =>
    refine iff_of_false (fun hkey => ?_) fun heq => by cases heq
    rw [Store.key?, Store.shared?_of_isLiteral hnode hliteral'] at hkey
    cases hkey
  | @shared n id content r' hnode hliteral' hobject' =>
    have hkey : store.shared? n = some (id, content.kind) :=
      Store.shared?_eq_some_iff.2 ⟨_, hnode, rfl, hliteral'⟩
    rw [Store.key?, hkey, Option.some_inj, Value.node.injEq]
    refine ⟨fun heq => ?_, fun heq => ?_⟩
    · subst heq
      exact Value.node.inj (Option.some.inj (hobject'.symm.trans hobject))
    · subst heq
      exact S.object_inj _ _ _ hobject' hobject
  | part _ htype hr _ =>
    rw [Store.key?_of_ne_type htype]
    refine iff_of_false (fun hkey => by cases hkey) fun heq => ?_
    exact hr ⟨key, hobject.trans (congrArg some heq.symm)⟩

/-- A walk first stops at a data object where its type stands first. -/
theorem firstVisit?_eq_first? (S : Sound store nodes [] g) (O : Owned g)
    (htour : List.Forall₂ (Spot.Traces store nodes g) spots tour)
    (hobject : g.objects.lookup key = some (.node r)) (hliteral : key.2.isLiteral = false) :
    firstVisit? tour r = store.first? spots key := by
  induction htour with
  | nil => rfl
  | @cons spot stop _ _ hspot _ ih =>
    have hiff := hspot.key?_eq_some_iff S O hobject hliteral
    by_cases heq : stop.2 = .node r
    · obtain ⟨trail, v⟩ := stop
      obtain rfl : v = .node r := heq
      rw [firstVisit?_cons_self, Store.first?_cons_of_eq (hiff.2 rfl), hspot.trail]
    · rw [firstVisit?_cons_of_ne heq, Store.first?_cons_of_ne (mt hiff.1 heq), ih]

/-- There are scalars only in the fields of a literal string or number. -/
theorem TypeContent.eq_scalar_of_isLiteral {content : TypeContent}
    (h : content.kind.isLiteral = true) : ∀ field ∈ content.layout, field.2 = .scalar := by
  cases content with
  | stringLiteral _ => simp [TypeContent.layout, TypeContent.fields]
  | numberLiteral _ => simp [TypeContent.layout, TypeContent.fields]
  | _ => cases h

/-- What is exempt are the data objects of literal strings and numbers. -/
theorem exemptsScalars_of_traces (S : Sound store nodes [] g) (O : Owned g)
    (htour : List.Forall₂ (Spot.Traces store nodes g) spots tour) : g.heap.ExemptsScalars tour := by
  intro trail v r hstop hleaf hunwrap u hu
  obtain ⟨⟨trail', layout⟩, _, hspot⟩ := exists_mem_of_forall₂ htour _ hstop
  cases hspot.fits.meets O with
  | scalar hscalar =>
    rw [hunwrap] at hscalar
    cases hscalar
  | @literal n id content r' hnode hliteral hobject =>
    obtain rfl := Value.node.inj hunwrap
    have hholds := S.holds_type (hspot.nodes n List.mem_cons_self) hnode hobject
    rw [← Heap.values_view, ← View.slots_snd] at hu
    obtain ⟨slot, hslot, rfl⟩ := List.mem_map.1 hu
    obtain ⟨part, hpart, _, hfits⟩ := exists_mem_of_forall₂ hholds _ hslot
    rw [Store.parts_of_content? (Store.content?_of_node? hnode)] at hpart
    obtain ⟨field, hfield, rfl⟩ := List.mem_map.1 hpart
    rw [TypeContent.eq_scalar_of_isLiteral hliteral field hfield] at hfits
    exact hfits
  | _ => cases hleaf

/-- The data of a node, and a walk of its layout with the walk of the data objects. -/
structure Traced (store : Store) (nodes : NodeRef → Prop) (g : LiteralGenerator)
    (v : Value Expression) (spots : List Spot) (tour : List (Stop Expression)) : Prop where
  sound : Sound store nodes [] g
  owned : Owned g
  below : v.Below g.heap.size
  tours : g.heap.Tours [] [([], v)] tour
  single : Single g [] [([], v)]
  traces : List.Forall₂ (Spot.Traces store nodes g) spots tour

theorem Traced.exists_stop {v : Value Expression} (T : Traced store nodes g v spots tour)
    {trail : Trail} {layout : Layout} (h : (trail, layout) ∈ spots) :
    ∃ u, (trail, u) ∈ tour ∧ Spot.Traces store nodes g (trail, layout) (trail, u) := by
  obtain ⟨⟨trail', u⟩, hstop, htraces⟩ := exists_mem_of_forall₂ T.traces.flip _ h
  obtain rfl : trail = trail' := htraces.trail
  exact ⟨u, hstop, htraces⟩

theorem Traced.exists_spot {v u : Value Expression} (T : Traced store nodes g v spots tour)
    {trail : Trail} (h : (trail, u) ∈ tour) :
    ∃ layout, (trail, layout) ∈ spots ∧ Spot.Traces store nodes g (trail, layout) (trail, u) := by
  obtain ⟨⟨trail', layout⟩, hspot, htraces⟩ := exists_mem_of_forall₂ T.traces _ h
  obtain rfl : trail' = trail := htraces.trail
  exact ⟨layout, hspot, htraces⟩

/-- The data of a node is walked as the layout says. -/
theorem Store.Walks.exists_traced (D : Describable store nodes) (hn : nodes n)
    (W : store.Walks [] [([], .type n)] spots) {limits : LiteralLimits} {position : Position}
    {v : Value Expression}
    (hrun : LiteralGenerator.empty.data limits store n position = (.ok v, g)) :
    ∃ tour, Traced store nodes g v spots tour := by
  obtain ⟨S, _, hbelow, hv⟩ := Generation.run_of_makes
    (Generation.makes_data D limits.depth limits.depth.toNat n hn position)
    (sound_empty store nodes) hrun
  have H := Generation.takes_data store limits.depth limits.depth.toNat n position 0 _ _ _
    owned_empty (Nat.zero_le _) (loose_nil _ _) hrun
  have hsingle : Single g [] [([], v)] := by
    intro q hq
    rw [if_neg List.not_mem_nil, Nat.zero_add, Heap.pending_nil]
    by_cases hv : v = .node q
    · obtain ⟨_, hobject | ⟨_, hholders, hcount⟩⟩ := H.loose q (hv ▸ List.mem_cons_self)
      · exact absurd hobject hq
      · exact (congrArg₂ (· + ·) hcount hholders).le
    · rw [List.map_singleton, List.count_singleton, if_neg (by simpa using hv), Nat.zero_add]
      exact H.owned.single q hq
  have hroot : Spot.Traces store nodes g ([], .type n) ([], v) :=
    ⟨rfl, fun m hm => List.mem_singleton.1 hm ▸ hn, hv⟩
  have hagrees : Agrees g [] [] := fun _ _ _ _ => iff_of_false List.not_mem_nil List.not_mem_nil
  obtain ⟨tour, T, htour⟩ := W.exists_tour D S H.owned (.cons hroot .nil) hagrees hsingle
  exact ⟨tour, S, H.owned, hbelow, T, hsingle, htour⟩

end Tour

end TypeDescription
