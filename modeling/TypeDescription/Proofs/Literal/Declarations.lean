import TypeDescription.Proofs.Literal.Marking
import TypeDescription.Proofs.Literal.Once

/-!
# Literals tell declarations

Each object that stands for a type in a literal tells modifiers and an initial value.  They
are those of the position where the walk of the layout comes to the type first, as this is
where its data object is begun (`Store.Walks.tellsOrigin`).  A type is written in full at
that very place and nowhere else, so what it tells is right
(`Reflector.literal_tells_positions`).

Literal strings and numbers are written wherever they stand, but there is one data object
for all places, and so all tell what is right at the first one
(`Reflector.literal_tells_origins`, `Reflector.literal_mistells_signal`).
-/

namespace TypeDescription

/-! ## Kinds -/

namespace TypeKind

theorem find?_code (kind : TypeKind) :
    (all.find? fun kind' => Double.ofNat kind'.code == Double.ofNat kind.code) = some kind := by
  cases kind <;> decide +kernel

/-- The codes of kinds are different numbers. -/
theorem ofNat_code_injective :
    Function.Injective fun kind : TypeKind => Double.ofNat kind.code := by
  intro kind kind' h
  have hfind := find?_code kind
  dsimp only at h
  rw [h, find?_code] at hfind
  exact (Option.some.inj hfind).symm

end TypeKind

/-- The literal tells the kind of a type. -/
def Literal.HasKind (M : Literal) (kind : TypeKind) : Prop :=
  M.get? "kind" = some (.leaf (.number (Double.ofNat kind.code)))

/-! ## What stands for a type -/

section Tells

variable {store : Store} {nodes : NodeRef → Prop} {g : LiteralGenerator} {v : Value Expression}
  {spots : List Spot} {tour : List (Stop Expression)} {L M : Literal} {R : Ref → Literal → Prop}
  {root n : NodeRef} {trail : Trail} {r : Ref} {position : Position} {kind : TypeKind}

/-- A property of an object that is no container is written under its name. -/
theorem Heap.Renders.rel_get? (H : g.heap.Renders L R) (hM : R r M) {name : String}
    {w : Value Expression} (hget : g.heap.get? (.node r) name = some w) :
    Option.Rel (L.Holds R) ((some w).filter Value.isDefined) (M.get? name) := by
  simp only [Heap.get?, Heap.content?] at hget
  split at hget
  · next t hcell =>
    rw [← hget]
    exact H.get? hM hcell name
  · cases hget

/-- What a container with the marks of a position is written as tells the position. -/
theorem Heap.Marks.tellsPosition (h : g.heap.Marks r position) (H : g.heap.Renders L R)
    (hM : R r M) : M.TellsPosition position := by
  have hmodifiers := H.rel_get? hM h.modifiers
  have hinitializer := H.rel_get? hM h.initializer
  constructor
  · cases hposition : position.modifiers with
    | none =>
      rw [hposition] at hmodifiers
      generalize M.get? "modifiers" = found at hmodifiers ⊢
      cases hmodifiers
      rfl
    | some m =>
      rw [hposition] at hmodifiers
      exact Literal.get?_of_rel hmodifiers rfl
  · cases hposition : position.initializer with
    | none =>
      rw [hposition] at hinitializer
      generalize M.get? "initializer" = found at hinitializer ⊢
      cases hinitializer
      rfl
    | some e =>
      rw [hposition] at hinitializer
      exact Literal.get?_of_rel hinitializer rfl

theorem Literal.HasKind.slots_ne_nil (h : M.HasKind kind) : M.slots ≠ [] := by
  cases M with
  | object fields =>
    cases fields with
    | nil => cases h
    | cons field fields => exact List.cons_ne_nil _ _
  | _ => cases h

/-- A token tells no kind. -/
theorem Literal.not_hasKind_token (path : Path) : ¬ (Literal.token path).HasKind kind := by
  unfold HasKind token Document.get?
  simp [refKey]

/-- A container of a proper heap is an array or an object. -/
theorem Heap.Proper.array_or_object (hg : g.heap.Proper) (hr : r < g.heap.size) :
    (∃ items, g.heap.cell? r = some (.array items)) ∨ ∃ t, g.heap.cell? r = some (.object t) := by
  have hcell : g.heap.cell? r = some g.heap.cells[r] := Array.getElem?_eq_getElem hr
  rcases (hg.plain r _ hcell).shape with ⟨items, hitems⟩ | ⟨t, ht⟩
  · exact .inl ⟨items, hitems ▸ hcell⟩
  · exact .inr ⟨t, ht ▸ hcell⟩

/-- What is written as a scalar is no container. -/
theorem Literal.Holds.isContainer_eq_false (hg : g.heap.Proper) (H : g.heap.Renders L R)
    {s : Literal.Scalar} (hv : v.Below g.heap.size) (h : L.Holds R v (.leaf s)) :
    v.unwrap.isContainer = false := by
  cases h with
  | scalar hscalar _ => exact hscalar
  | @container r _ M hr hM hR =>
    obtain rfl : Document.leaf s = M := Option.some.inj hM
    rcases hg.array_or_object (hv r hr) with ⟨items, hcell⟩ | ⟨t, hcell⟩
    · obtain ⟨_, hleaf, _⟩ := H.array hR hcell
      cases hleaf
    · obtain ⟨_, hleaf, _⟩ := H.object hR hcell
      cases hleaf

/-- Only what has something under `kind` that is no container is written with a kind. -/
theorem Heap.Renders.tagged (hg : g.heap.Proper) (H : g.heap.Renders L R) (hr : r < g.heap.size)
    (hM : R r M) (hkind : M.HasKind kind) : g.heap.Tagged r := by
  rcases hg.array_or_object hr with ⟨items, hcell⟩ | ⟨t, hcell⟩
  · obtain ⟨_, rfl, _⟩ := H.array hM hcell
    cases hkind
  · have hrel := H.get? hM hcell "kind"
    rw [hkind] at hrel
    generalize htag : (t.get? "kind").filter Value.isDefined = found at hrel
    cases hrel with
    | @some tag _ hholds =>
      have hget := (Option.filter_eq_some_iff.1 htag).1
      have hmem : tag ∈ t.values := List.mem_map_of_mem ((Table.get?_eq_some_iff t).1 hget)
      exact ⟨t, tag, hcell, hget, hholds.isContainer_eq_false hg H (hg.below r _ hcell tag hmem)⟩

/-- Where a kind is told there is a type, and what is written there is its data object.
Unless it is a literal string or number the type is first here. -/
theorem Traced.exists_type (T : Traced store nodes g v spots tour) (H : g.heap.Renders L R)
    (C : Heap.Transcribes tour L R) (hsite : L.Site trail M) (hkind : M.HasKind kind) :
    ∃ n id r, (trail, .type n) ∈ spots ∧ store.identity? n = some (id, kind) ∧
      g.objects.lookup (id, kind) = some (.node r) ∧ R r M ∧
        (kind.isLiteral = false → store.first? spots (id, kind) = some trail) := by
  -- Whatever stands at the place is what is written for the container of the stop.
  have hwritten : ∀ {r : Ref}, (∃ M' : Literal, L.Site trail M' ∧ R r M' ∧ M'.refPath? = none) →
      R r M := by
    rintro r ⟨M', hsite', hR, _⟩
    exact C.tidy.site_unique hsite' hsite ▸ hR
  have hfirst : ∀ {r : Ref}, (trail, .node r) ∈ tour → firstVisit? tour r = some trail := by
    intro r hstop
    obtain ⟨first, hfirst⟩ := exists_firstVisit? hstop
    by_cases heq : trail = first
    · rwa [heq]
    · rw [C.tidy.site_unique hsite (C.again r trail first hstop hfirst heq)] at hkind
      exact absurd hkind (Literal.not_hasKind_token _)
  have hsame : ∀ {n id} {content : TypeContent} {r : Ref}, nodes n →
      store.node? n = some ⟨id, some content⟩ →
        g.objects.lookup (id, content.kind) = some (.node r) → R r M → content.kind = kind := by
    intro n id content r hn hnode hobject hR
    have hcode := (T.sound.shows n id content r hn hnode hobject List.not_mem_nil).get?_kind H hR
    rw [hkind] at hcode
    exact (TypeKind.ofNat_code_injective (by simpa using hcode)).symm
  obtain ⟨w, hstop, hcontainer⟩ := C.stop trail M hsite hkind.slots_ne_nil
  obtain ⟨layout, hspot, htraces⟩ := T.exists_spot hstop
  cases htraces.fits.meets T.owned with
  | scalar hscalar =>
    rw [hscalar] at hcontainer
    cases hcontainer
  | @literal n id content r hnode hliteral hobject =>
    have hR := hwritten (C.exempt r trail hstop)
    obtain rfl := hsame (htraces.nodes n List.mem_cons_self) hnode hobject hR
    refine ⟨n, id, r, hspot, Store.identity?_of_node? hnode, hobject, hR, fun h => ?_⟩
    rw [hliteral] at h
    cases h
  | @shared n id content r hnode hliteral hobject =>
    have hR := hwritten (C.first r trail (hfirst hstop))
    obtain rfl := hsame (htraces.nodes n List.mem_cons_self) hnode hobject hR
    refine ⟨n, id, r, hspot, Store.identity?_of_node? hnode, hobject, hR, fun h => ?_⟩
    rw [← firstVisit?_eq_first? T.sound T.owned T.traces hobject h, hfirst hstop]
  | @part _ r hscalar htype _ _ =>
    obtain ⟨r', heq, htagged, _⟩ := htraces.fits.exists_holds hscalar htype
    obtain rfl := Value.node.inj heq
    have hr : r < g.heap.size := T.tours.below_of_stop T.sound.proper T.below hstop r rfl
    have hfull := hwritten (C.first r trail (hfirst hstop))
    exact absurd (H.tagged T.sound.proper hr hfull hkind) htagged

end Tells

/-! ## The literal of a node -/

/-- The literal tells the position where a walk first comes to a type. -/
def Store.TellsOrigin (store : Store) (root : NodeRef) (given : Position) (spots : List Spot)
    (key : TypeId × TypeKind) (M : Literal) : Prop :=
  ∃ first n steps position, store.origin? spots key = some (first, .type n) ∧
    first.reverse = steps.flatMap ChildStep.route ∧
      store.place? root given steps = some (n, position) ∧ M.TellsPosition position

section Node

variable {store : Store} {n m : NodeRef} {given : Position} {spots : List Spot} {L M : Literal}
  {trail : Trail} {kind : TypeKind} {limits : LiteralLimits} {modifiers : Option Modifiers}

theorem Store.Seated.exists_steps {position : Position}
    (h : store.Seated n given trail (.type m) position) :
    ∃ steps, trail.reverse = steps.flatMap ChildStep.route ∧
      store.place? n given steps = some (m, position) := by
  cases h with
  | type htrail hplace => exact ⟨_, htrail, hplace⟩
  | inside _ _ _ hkeeps => cases hkeeps

/-- A type stands where a walk first comes to it. -/
theorem Store.exists_type_of_origin? {key : TypeId × TypeKind} {spot : Spot}
    (h : store.origin? spots key = some spot) :
    ∃ m, spot.2 = .type m ∧ store.identity? m = some key := by
  have htype : store.type? spot.2 = some key := by simpa using List.find?_some h
  generalize spot.2 = layout at htype ⊢
  cases layout with
  | type m => exact ⟨m, rfl, htype⟩
  | _ => cases htype

/-- Wherever a literal tells a kind there is a type, and the literal tells the position where
the walk first comes to the type.  That is here, but for literal strings and numbers. -/
theorem Store.Walks.tellsOrigin (D : Describable store (store.Below n))
    (hnames : store.NamesProperties n) (W : store.Walks [] [([], .type n)] spots)
    (hL : store.literal limits n modifiers = .ok L) (hsite : L.Site trail M)
    (hkind : M.HasKind kind) :
    ∃ m id, (trail, .type m) ∈ spots ∧ store.identity? m = some (id, kind) ∧
      store.TellsOrigin n ⟨modifiers, none⟩ spots (id, kind) M ∧
        (kind.isLiteral = false →
          ∃ m', store.origin? spots (id, kind) = some (trail, .type m')) := by
  obtain ⟨v, g, t, k, hrun, hencoded, hwritten⟩ := LiteralGenerator.literal_eq_ok hL
  obtain ⟨tour, T⟩ := W.exists_traced D .self hrun
  obtain ⟨R, H, C⟩ := Heap.exists_transcript T.sound.proper T.below T.tours
    (exemptsScalars_of_traces T.sound T.owned T.traces) hencoded hwritten
  obtain ⟨m, id, r, hspot, hidentity, hobject, hR, hhere⟩ := T.exists_type H C hsite hkind
  obtain ⟨⟨first, layout⟩, position, horigin, hseat, hmarks⟩ := W.exists_marks hnames hrun hobject
  obtain ⟨m', rfl, _⟩ := Store.exists_type_of_origin? horigin
  obtain ⟨steps, hsteps, hplace⟩ := hseat.exists_steps
  refine ⟨m, id, hspot, hidentity,
    ⟨first, m', steps, position, horigin, hsteps, hplace, hmarks.tellsPosition H hR⟩, fun h => ?_⟩
  have hfirst := hhere h
  rw [Store.first?_eq_origin? h, horigin] at hfirst
  obtain rfl : first = trail := Option.some.inj hfirst
  exact ⟨m', horigin⟩

end Node

/-- Each type that is written in full, but for literal strings and numbers, tells the
position to which the steps to its place lead. -/
structure Store.TellsPositions (store : Store) (root : NodeRef) (given : Position) (L : Literal) :
    Prop where
  /-- A type stands where some steps lead. -/
  steps : ∀ trail (M : Literal) (kind : TypeKind), L.Site trail M → M.HasKind kind →
    kind.isLiteral = false →
      ∃ steps : List ChildStep, trail.reverse = steps.flatMap ChildStep.route
  /-- The steps lead to a type of the kind that is told. -/
  position : ∀ (steps : List ChildStep) (M : Literal) (kind : TypeKind),
    L.Site (steps.flatMap ChildStep.route).reverse M → M.HasKind kind → kind.isLiteral = false →
      ∃ n position, store.place? root given steps = some (n, position) ∧
        store.kind? n = some kind ∧ M.TellsPosition position

section Node

variable {store : Store} {n : NodeRef} {limits : LiteralLimits} {modifiers : Option Modifiers}
  {L M : Literal} {trail : Trail} {kind : TypeKind}

theorem Store.kind?_of_identity? {id : TypeId} (h : store.identity? n = some (id, kind)) :
    store.kind? n = some kind := by
  obtain ⟨node, hnode, h⟩ := Option.bind_eq_some_iff.1 h
  obtain ⟨content, hcontent, h⟩ := Option.map_eq_some_iff.1 h
  obtain ⟨rfl, rfl⟩ := Prod.mk.inj h
  simp [kind?, content?, hnode, hcontent]

/-- A type that is written once tells the position where it stands. -/
theorem Store.exists_place (D : Describable store (store.Below n))
    (hnames : store.NamesProperties n) (hL : store.literal limits n modifiers = .ok L)
    (hsite : L.Site trail M) (hkind : M.HasKind kind) (hliteral : kind.isLiteral = false) :
    ∃ steps m position, trail.reverse = steps.flatMap ChildStep.route ∧
      store.place? n ⟨modifiers, none⟩ steps = some (m, position) ∧ store.kind? m = some kind ∧
        M.TellsPosition position := by
  obtain ⟨spots, W⟩ := store.exists_walks [] [([], .type n)]
  obtain ⟨_, id, _, _, ⟨first, m, steps, position, horigin, hsteps, hplace, htold⟩, hhere⟩ :=
    W.tellsOrigin D hnames hL hsite hkind
  obtain ⟨_, heq⟩ := hhere hliteral
  rw [horigin] at heq
  obtain ⟨rfl, _⟩ := Prod.mk.inj (Option.some.inj heq)
  obtain ⟨_, hm, hidentity⟩ := Store.exists_type_of_origin? horigin
  obtain rfl := Layout.type.inj hm
  exact ⟨steps, m, position, hsteps, hplace, Store.kind?_of_identity? hidentity, htold⟩

theorem Store.tellsPositions (D : Describable store (store.Below n))
    (hnames : store.NamesProperties n) (hL : store.literal limits n modifiers = .ok L) :
    store.TellsPositions n ⟨modifiers, none⟩ L where
  steps trail M kind hsite hkind hliteral := by
    obtain ⟨steps, _, _, hsteps, _⟩ := Store.exists_place D hnames hL hsite hkind hliteral
    exact ⟨steps, hsteps⟩
  position steps M kind hsite hkind hliteral := by
    obtain ⟨steps', m, position, hsteps, hplace, hm, htold⟩ :=
      Store.exists_place D hnames hL hsite hkind hliteral
    rw [List.reverse_reverse] at hsteps
    obtain rfl := ChildStep.flatMap_route_injective hsteps
    exact ⟨m, position, hplace, hm, htold⟩

end Node

/-! ## Answered nodes -/

/-- A field of a field has its place. -/
theorem Document.site_of_get? {α : Type} {d e e' : Document α} {name name' : String}
    (h : d.get? name = some e) (h' : e.get? name' = some e') :
    d.Site [.key name', .key name] e' := by
  have hslot : ∀ {d e : Document α} {name : String}, d.get? name = some e →
      (Step.key name, e) ∈ d.slots := by
    intro d e name h
    cases d with
    | object fields =>
      obtain ⟨⟨key, _⟩, hfield, rfl⟩ := Option.map_eq_some_iff.1 h
      obtain rfl : key = name := by simpa using List.find?_some hfield
      exact List.mem_map_of_mem (f := fun field => (Step.key field.1, field.2))
        (List.mem_of_find?_eq_some hfield)
    | _ => cases h
  exact .slot (.slot .root (hslot h)) (hslot h')

/-- The kind and the modifiers that a literal tells of a property. -/
def Literal.told? (L : Literal) (name : String) : Option (Double × Double) :=
  (L.get? "properties").bind fun table => (table.get? name).bind fun M =>
    ((M.get? "kind").bind Literal.number?).bind fun kind =>
      ((M.get? "modifiers").bind Literal.number?).map fun modifiers => (kind, modifiers)

theorem Literal.exists_site_of_told? {L : Literal} {name : String} {kind : TypeKind}
    {modifiers : Modifiers}
    (h : L.told? name = some (Double.ofNat kind.code, Double.ofNat modifiers.bits.toNat)) :
    ∃ M : Literal, L.Site [.key name, .key "properties"] M ∧ M.HasKind kind ∧
      M.get? "modifiers" = some (.leaf (.number (Double.ofNat modifiers.bits.toNat))) := by
  have hnumber : ∀ {M : Literal} {x : Double}, M.number? = some x → M = .leaf (.number x) := by
    intro M x h
    cases M with
    | leaf s =>
      cases s with
      | number y => rw [Option.some.inj h]
      | _ => cases h
    | _ => cases h
  obtain ⟨table, htable, h⟩ := Option.bind_eq_some_iff.1 h
  obtain ⟨M, hM, h⟩ := Option.bind_eq_some_iff.1 h
  obtain ⟨x, hx, h⟩ := Option.bind_eq_some_iff.1 h
  obtain ⟨y, hy, h⟩ := Option.map_eq_some_iff.1 h
  obtain ⟨rfl, rfl⟩ := Prod.mk.inj h
  obtain ⟨here, hkind, hhere⟩ := Option.bind_eq_some_iff.1 hx
  obtain ⟨here', hmodifiers, hhere'⟩ := Option.bind_eq_some_iff.1 hy
  rw [hnumber hhere] at hkind
  rw [hnumber hhere'] at hmodifiers
  exact ⟨M, Document.site_of_get? htable hM, hkind, hmodifiers⟩

namespace Reflector

/-- A class with a constant and a variable of one literal string, and a delay. -/
def signal : Program where
  types := [
    ⟨⟨1⟩, .declared false ["Signal.state", "Signal.last", "Signal.delay"] [], some "Signal", none,
      none⟩,
    ⟨⟨2⟩, .stringLiteral "go", none, none, none⟩,
    ⟨⟨3⟩, .number, none, none, none⟩]
  symbols := Table.ofList [
    ("Signal", ⟨"Signal", ⟨none, .classSymbol, none, [], none, none, none, []⟩, .none⟩),
    ("Signal.state",
      ⟨"state", ⟨none, .property, some ⟨2⟩, ["readonly"], none, none, none, []⟩, ⟨8⟩⟩),
    ("Signal.last", ⟨"last", ⟨none, .property, some ⟨2⟩, [], none, none, none, []⟩, .none⟩),
    ("Signal.delay",
      ⟨"delay", ⟨none, .property, some ⟨3⟩, ["private"], some "60", none, none, []⟩, ⟨2⟩⟩)]

theorem answered_signal :
    Answered signal.host 3 ((ofLimit 3).after signal.host (.classType default ⟨1⟩)) 0 :=
  .now .start (by decide +kernel)

theorem namesProperties_signal :
    ((ofLimit 3).after signal.host (.classType default ⟨1⟩)).store.NamesProperties 0 :=
  Store.namesProperties_of_nodes (by decide +kernel) 0

/-- A property of the literal of the class. -/
theorem exists_property_signal (name : String) (kind : TypeKind) (modifiers : Modifiers)
    (h : (((ofLimit 3).after signal.host (.classType default ⟨1⟩)).store.literal .standard 0
      none).toOption.bind (Literal.told? · name) =
        some (Double.ofNat kind.code, Double.ofNat modifiers.bits.toNat)) :
    ∃ L M : Literal, ((ofLimit 3).after signal.host (.classType default ⟨1⟩)).store.literal
        .standard 0 none = .ok L ∧ L.Site [.key name, .key "properties"] M ∧ M.HasKind kind ∧
      M.get? "modifiers" = some (.leaf (.number (Double.ofNat modifiers.bits.toNat))) := by
  obtain ⟨L, hL, htold⟩ := Option.bind_eq_some_iff.1 h
  obtain ⟨M, hsite, hkind, hmodifiers⟩ := Literal.exists_site_of_told? htold
  exact ⟨L, M, toOption_eq_some_iff.1 hL, hsite, hkind, hmodifiers⟩

/-- In the literal of an answered node each type that is written in full, but for literal
strings and numbers, tells the position where it stands. -/
theorem literal_tells_positions {p : Program} {limit : UInt32} {r : Reflector} {n : NodeRef}
    (hn : Answered p.host limit r n) (hnames : r.store.NamesProperties n) {limits : LiteralLimits}
    {modifiers : Option Modifiers} {L : Literal} (hL : r.store.literal limits n modifiers = .ok L) :
    r.store.TellsPositions n ⟨modifiers, none⟩ L :=
  Store.tellsPositions ((hn.uniform Function.injective_id).describable hnames) hnames hL

/-- The delay is private and has an initial value, and its type tells so. -/
theorem literal_tells_positions_signal :
    let r := (ofLimit 3).after signal.host (.classType default ⟨1⟩)
    ∃ L M : Literal, Answered signal.host 3 r 0 ∧ r.store.NamesProperties 0 ∧
      r.store.literal .standard 0 none = .ok L ∧ r.store.TellsPositions 0 ⟨none, none⟩ L ∧
        L.Site [.key "delay", .key "properties"] M ∧
          M.TellsPosition ⟨some ⟨2⟩, some (.deferred (.source "60"))⟩ := by
  intro r
  obtain ⟨L, M, hL, hsite, hkind, _⟩ :=
    exists_property_signal "delay" .number ⟨2⟩ (by decide +kernel)
  have T := literal_tells_positions answered_signal namesProperties_signal hL
  obtain ⟨n, position, hplace, _, htold⟩ := T.position [.property "delay"] M .number hsite hkind rfl
  have hposition : r.store.place? 0 ⟨none, none⟩ [.property "delay"] =
      some (3, ⟨some ⟨2⟩, some (.deferred (.source "60"))⟩) := by
    decide +kernel
  obtain ⟨_, rfl⟩ := Prod.mk.inj (Option.some.inj (hplace.symm.trans hposition))
  exact ⟨L, M, answered_signal, namesProperties_signal, hL, T, hsite, htold⟩

/-- In the literal of an answered node each literal string or number tells the position where
a walk of the layout comes to a type of its identity and kind first. -/
theorem literal_tells_origins {p : Program} {limit : UInt32} {r : Reflector} {n : NodeRef}
    (hn : Answered p.host limit r n) (hnames : r.store.NamesProperties n) {limits : LiteralLimits}
    {modifiers : Option Modifiers} {L : Literal} (hL : r.store.literal limits n modifiers = .ok L) :
    (∃ spots, r.store.Walks [] [([], .type n)] spots) ∧
      ∀ spots, r.store.Walks [] [([], .type n)] spots →
        ∀ trail (M : Literal) (kind : TypeKind), L.Site trail M → M.HasKind kind →
          kind.isLiteral = true →
            ∃ m id, (trail, .type m) ∈ spots ∧ r.store.identity? m = some (id, kind) ∧
              r.store.TellsOrigin n ⟨modifiers, none⟩ spots (id, kind) M := by
  refine ⟨r.store.exists_walks [] _, fun spots W trail M kind hsite hkind _ => ?_⟩
  have D := (hn.uniform Function.injective_id).describable hnames
  obtain ⟨m, id, hspot, hidentity, htold, _⟩ := W.tellsOrigin D hnames hL hsite hkind
  exact ⟨m, id, hspot, hidentity, htold⟩

/-- The walk of the class comes to the constant before it comes to the variable, and the literal
string at the variable tells that it is a constant. -/
theorem literal_tells_origins_signal :
    let r := (ofLimit 3).after signal.host (.classType default ⟨1⟩)
    ∃ (L M : Literal) (spots : List Spot), Answered signal.host 3 r 0 ∧ r.store.NamesProperties 0 ∧
      r.store.literal .standard 0 none = .ok L ∧ r.store.Walks [] [([], .type 0)] spots ∧
        L.Site [.key "last", .key "properties"] M ∧ M.HasKind .stringLiteral ∧
          M.get? "modifiers" = some (.leaf (.number (Double.ofNat 8))) ∧
          ∃ m id, ([.key "last", .key "properties"], .type m) ∈ spots ∧
            r.store.identity? m = some (id, .stringLiteral) ∧
              r.store.TellsOrigin 0 ⟨none, none⟩ spots (id, .stringLiteral) M := by
  intro r
  obtain ⟨L, M, hL, hsite, hkind, hmodifiers⟩ :=
    exists_property_signal "last" .stringLiteral ⟨8⟩ (by decide +kernel)
  obtain ⟨⟨spots, W⟩, htells⟩ := literal_tells_origins answered_signal namesProperties_signal hL
  exact ⟨L, M, spots, answered_signal, namesProperties_signal, hL, W, hsite, hkind, hmodifiers,
    htells spots W _ M .stringLiteral hsite hkind rfl⟩

/-- The variable has no modifiers, and the literal string in its place tells some. -/
theorem literal_mistells_signal :
    let r := (ofLimit 3).after signal.host (.classType default ⟨1⟩)
    ∃ (L M : Literal) (m : NodeRef) (position : Position), Answered signal.host 3 r 0 ∧
      r.store.NamesProperties 0 ∧ r.store.literal .standard 0 none = .ok L ∧
        L.Site [.key "last", .key "properties"] M ∧ M.HasKind .stringLiteral ∧
          r.store.place? 0 ⟨none, none⟩ [.property "last"] = some (m, position) ∧
            ¬ M.TellsPosition position := by
  intro r
  obtain ⟨L, M, hL, hsite, hkind, hmodifiers⟩ :=
    exists_property_signal "last" .stringLiteral ⟨8⟩ (by decide +kernel)
  have hplace : r.store.place? 0 ⟨none, none⟩ [.property "last"] =
      some (2, .ofProperty ⟨"last", .none, 2, none⟩) := by
    decide +kernel
  refine ⟨L, M, _, _, answered_signal, namesProperties_signal, hL, hsite, hkind, hplace,
    fun htold => ?_⟩
  have heq := hmodifiers.symm.trans htold.modifiers
  have hne : Double.ofNat 8 ≠ Double.ofNat 0 := by decide +kernel
  exact hne (by simpa [Position.ofProperty, Modifiers.none] using heq)

end Reflector

end TypeDescription
