import TypeDescription.Proofs.Literal.Composition
import TypeDescription.Proofs.Literal.Faithful
import TypeDescription.Proofs.Literal.Tracing

/-!
# How deep a literal may go

A node has a literal exactly if a walk of its layout comes to nothing but scalars at
places as deep as the limit: `Store.Walks.literal_ok_iff`.  The places are counted in the
literal, where an object and the list or table in it are two levels.

One half is known from the places where a literal stands.  For the other the data must be
made: while the walk goes through some spots, the step for them succeeds (`Passes`).  This
holds of single steps, so it holds of all that makes the data of a type (`passes_fill`).
A type that is met first takes away a level of room and is at least one step deeper than
the type that it is in, so there is room wherever the walk may come to (`passes_data`).
-/

namespace TypeDescription

/-! ## Steps along a walk -/

/-- A walk comes to complete types only, and but for scalars to nothing that lies too deep. -/
structure Store.Feasible (store : Store) (depth : Nat) (spots : List Spot) : Prop where
  shallow : ∀ trail layout, (trail, layout) ∈ spots → layout ≠ .scalar → trail.length < depth
  complete : ∀ trail n, (trail, .type n) ∈ spots →
    ∃ id content, store.node? n = some ⟨id, some content⟩

theorem Store.Feasible.of_subset {store : Store} {depth : Nat} {spots later : List Spot}
    (h : store.Feasible depth spots) (hsub : later ⊆ spots) : store.Feasible depth later where
  shallow trail layout hspot := h.shallow trail layout (hsub hspot)
  complete trail n hspot := h.complete trail n (hsub hspot)

namespace Generation

/-- The types met are those that have a data object. -/
def Knows (met : List (TypeId × TypeKind)) (g : LiteralGenerator) : Prop :=
  ∀ key : TypeId × TypeKind, key.2.isLiteral = false →
    (key ∈ met ↔ (g.objects.lookup key).isSome = true)

/-- A step succeeds where a walk comes to the given spots, and leaves the walk of the rest. -/
def Leaves {α : Type} (store : Store) (g : LiteralGenerator) (step : Generation α)
    (rest spots : List Spot) : Prop :=
  ∃ a g' met later, step.run.run g = (.ok a, g') ∧ Knows met g' ∧
    store.Walks met rest later ∧ later ⊆ spots

theorem Leaves.cons {α : Type} {store : Store} {g : LiteralGenerator} {step : Generation α}
    {rest spots : List Spot} (h : Leaves store g step rest spots) (spot : Spot) :
    Leaves store g step rest (spot :: spots) := by
  obtain ⟨a, g', met, later, hrun, hg', W, hsub⟩ := h
  exact ⟨a, g', met, later, hrun, hg', W, List.subset_cons_of_subset _ hsub⟩

/-- A step succeeds while a walk goes through some spots, if the walk is feasible. -/
def Passes {α : Type} (store : Store) (depth : Nat) (here : List Spot) (step : Generation α) :
    Prop :=
  ∀ met rest spots g, Knows met g → store.Walks met (here ++ rest) spots →
    store.Feasible depth spots → Leaves store g step rest spots

section Passes

variable {α β : Type} {store : Store} {depth : Nat} {here here' : List Spot} {trail : Trail}

theorem passes_pure (a : α) : Passes store depth [] (pure a) :=
  fun met _ _ g hg W _ => ⟨a, g, met, _, rfl, hg, W, List.Subset.refl _⟩

theorem Passes.bind {m : Generation α} {f : α → Generation β} (hm : Passes store depth here m)
    (hf : ∀ a, Passes store depth here' (f a)) : Passes store depth (here ++ here') (m >>= f) := by
  intro met rest spots g hg W F
  rw [List.append_assoc] at W
  obtain ⟨a, g', met', later, hrun, hg', W', hsub⟩ := hm met _ spots g hg W F
  obtain ⟨b, g'', met'', later', hrun', hg'', W'', hsub'⟩ :=
    hf a met' rest later g' hg' W' (F.of_subset hsub)
  exact ⟨b, g'', met'', later', (run_bind_of_ok hrun).trans hrun', hg'', W'',
    List.Subset.trans hsub' hsub⟩

theorem passes_allocate (c : Cell Expression) : Passes store depth [] (allocate c) :=
  fun met _ _ g hg W _ => ⟨.node g.heap.size, { g with heap := (g.heap.allocate c).2 }, met, _, rfl,
    hg, W, List.Subset.refl _⟩

theorem passes_insert (target : Value Expression) (key : String) (v : Value Expression) :
    Passes store depth [] (insert target key v) :=
  fun met _ _ g hg W _ => ⟨(), { g with heap := (g.heap.insert? target key v).getD g.heap }, met, _,
    rfl, hg, W, List.Subset.refl _⟩

/-- A walk passes by a scalar. -/
theorem Passes.scalar {step : Generation α} (h : Passes store depth here step) :
    Passes store depth ((trail, .scalar) :: here) step := by
  intro met rest spots g hg W F
  obtain ⟨later, rfl, W'⟩ := W.pass_inv id
  exact (h met rest later g hg W' (F.of_subset (List.subset_cons_self _ _))).cons _

/-- A walk goes inside a list or a table. -/
theorem Passes.inside {layout : Layout} {step : Generation α} (hscalar : layout ≠ .scalar)
    (htype : ∀ n, layout ≠ .type n) (h : Passes store depth (store.inside (trail, layout)) step) :
    Passes store depth [(trail, layout)] step := by
  intro met rest spots g hg W F
  obtain ⟨later, rfl, W'⟩ := W.enter_inv (Store.opens_of_ne hscalar htype)
  rw [Store.key?_of_ne_type htype] at W'
  exact (h met rest later g hg W' (F.of_subset (List.subset_cons_self _ _))).cons _

/-- To succeed while a walk goes through some spots is a property of the single steps. -/
theorem composes_passes (store : Store) (depth : Nat) :
    Composes store fun _ here step => Passes store depth here step where
  pure := passes_pure
  bind := .bind
  allocate := passes_allocate
  insert target key v _ := passes_insert target key v
  scalar := .scalar
  inside := .inside

end Passes

/-! ## The data of types -/

section Types

variable {store : Store} {depth bound : Nat} {trail : Trail}
  {child : NodeRef → Position → Generation (Value Expression)}

/-- A child passes wherever it stands deeper than the bound. -/
def ChildPasses (store : Store) (depth bound : Nat)
    (child : NodeRef → Position → Generation (Value Expression)) : Prop :=
  ∀ n position trail, bound ≤ trail.length →
    Passes store depth [(trail, .type n)] (child n position)

/-- What is inside a place is deeper than the place. -/
theorem seating_deep (bound : Nat) : Seating fun trail _ _ => bound ≤ trail.length where
  property h _ _ := Nat.le_succ_of_le h
  parameter h := Nat.le_succ_of_le h
  part h _ _ _ _ _ := Nat.le_succ_of_le h

/-- A data object is filled while the walk goes through the fields. -/
theorem passes_fill (hchild : ChildPasses store depth bound child)
    (htrail : bound ≤ trail.length + 1) (target : Value Expression) (content : TypeContent) :
    Passes store depth (content.fields.map fun field => (.key field.1 :: trail, field.2))
      (fill child target content) := by
  exact (composes_passes store depth).fill (seating_deep bound) hchild target content
    fun _ _ => htrail

theorem knows_begun {met : List (TypeId × TypeKind)} {g : LiteralGenerator} (hg : Knows met g)
    (key : TypeId × TypeKind) (position : Position) :
    Knows (key :: met) (begun g key position) := by
  intro key' hliteral
  rw [lookup_begun, List.mem_cons, hg key' hliteral]
  split
  · next heq => simp [heq]
  · next hne => exact or_iff_right hne

theorem knows_begun_of_isLiteral {met : List (TypeId × TypeKind)} {g : LiteralGenerator}
    (hg : Knows met g) {key : TypeId × TypeKind} (h : key.2.isLiteral = true)
    (position : Position) : Knows met (begun g key position) := by
  intro key' hliteral
  rw [lookup_begun, if_neg, hg key' hliteral]
  rintro rfl
  rw [h] at hliteral
  cases hliteral

section Data

variable {limit : UInt32} {room : Nat} {n : NodeRef} {id : TypeId} {content : TypeContent}
  {position : Position} {met : List (TypeId × TypeKind)} {rest spots : List Spot}
  {g : LiteralGenerator}

theorem Knows.notMem (hg : Knows met g) {key : TypeId × TypeKind}
    (hliteral : key.2.isLiteral = false) (hobject : g.objects.lookup key = none) : key ∉ met := by
  rw [hg key hliteral, hobject]
  nofun

/-- A walk does not go into a type that has a data object. -/
theorem Knows.not_opens (hg : Knows met g) (hnode : store.node? n = some ⟨id, some content⟩)
    {made : Value Expression} (hobject : g.objects.lookup (id, content.kind) = some made) :
    ¬ store.Opens met (.type n) := by
  rintro ⟨key, hkey, hmem⟩
  rw [Store.shared?_of_node? hnode] at hkey
  split at hkey
  · cases hkey
  · next hliteral =>
    obtain rfl := Option.some.inj hkey
    exact hmem ((hg _ (eq_false_of_ne_true hliteral)).2 (by rw [hobject]; rfl))

/-- A walk passes by a type that has a data object. -/
theorem leaves_again (hg : Knows met g) (W : store.Walks met ((trail, .type n) :: rest) spots)
    (hnode : store.node? n = some ⟨id, some content⟩) {made : Value Expression}
    (hobject : g.objects.lookup (id, content.kind) = some made) :
    Leaves store g (data store limit room n position) rest spots := by
  obtain ⟨later, rfl, W'⟩ := W.pass_inv (hg.not_opens hnode hobject)
  exact ⟨_, g, met, later, run_data_again room hnode hobject, hg, W', List.subset_cons_self _ _⟩

/-- The data object of a literal string or number is filled, and a walk passes by. -/
theorem leaves_fill_of_isLiteral (hg : Knows met g)
    (W : store.Walks met ((trail, .type n) :: rest) spots) (F : store.Feasible depth spots)
    (hnode : store.node? n = some ⟨id, some content⟩) (hliteral : content.kind.isLiteral = true) :
    Leaves store (begun g (id, content.kind) position) (fill child (.node g.heap.size) content)
      rest spots := by
  have hknows : Knows met (begun g (id, content.kind) position) :=
    knows_begun_of_isLiteral hg hliteral position
  obtain ⟨later, rfl, W'⟩ := W.pass_inv
    (Store.not_opens_of_shared? (Store.shared?_of_isLiteral hnode hliteral))
  exact ((composes_passes store depth).fill_of_isLiteral hliteral _ met rest later _ hknows W'
    (F.of_subset (List.subset_cons_self _ _))).cons _

/-- The data object of a type that had none is filled while a walk goes inside. -/
theorem leaves_fill (hchild : ChildPasses store depth (trail.length + 1) child) (hg : Knows met g)
    (W : store.Walks met ((trail, .type n) :: rest) spots) (F : store.Feasible depth spots)
    (hnode : store.node? n = some ⟨id, some content⟩) (hliteral : content.kind.isLiteral = false)
    (hobject : g.objects.lookup (id, content.kind) = none) :
    Leaves store (begun g (id, content.kind) position) (fill child (.node g.heap.size) content)
      rest spots := by
  have hkey : store.shared? n = some (id, content.kind) :=
    Store.shared?_eq_some_iff.2 ⟨content, hnode, rfl, hliteral⟩
  have hpasses : Passes store depth (store.inside (trail, .type n))
      (fill child (.node g.heap.size) content) := by
    rw [Store.inside, Store.parts_of_content? (Store.content?_of_node? hnode), List.map_map]
    exact .scalar (.scalar (.scalar (passes_fill hchild (Nat.le_refl _) _ content)))
  obtain ⟨later, rfl, W'⟩ := W.enter_inv ⟨_, hkey, hg.notMem hliteral hobject⟩
  rw [Store.marks_of_shared? hkey] at W'
  exact (hpasses _ rest later _ (knows_begun hg (id, content.kind) position) W'
    (F.of_subset (List.subset_cons_self _ _))).cons _

/-- A type that has no data object is given one, and that is filled. -/
theorem leaves_first (hchild : ChildPasses store depth (trail.length + 1) (data store limit room))
    (hg : Knows met g) (W : store.Walks met ((trail, .type n) :: rest) spots)
    (F : store.Feasible depth spots) (hnode : store.node? n = some ⟨id, some content⟩)
    (hobject : g.objects.lookup (id, content.kind) = none) :
    Leaves store g (data store limit (room + 1) n position) rest spots := by
  obtain ⟨a, g', met', later, hrun, hg', W', hsub⟩ :
      Leaves store (begun g (id, content.kind) position)
        (fill (data store limit room) (.node g.heap.size) content) rest spots := by
    cases hliteral : content.kind.isLiteral with
    | true => exact leaves_fill_of_isLiteral hg W F hnode hliteral
    | false => exact leaves_fill hchild hg W F hnode hliteral hobject
  have hdata : (data store limit (room + 1) n position).run.run g = _ :=
    run_data_first (room + 1) hnode hobject
  exact ⟨_, g', met', later, hdata.trans (run_bind_of_ok hrun), hg', W', hsub⟩

end Data

/-- The data of a type is made while the walk goes through it, if there is room for all
that is not too deep. -/
theorem passes_data (store : Store) (limit : UInt32) (room : Nat) :
    ∀ n position trail, depth ≤ room + trail.length →
      Passes store depth [(trail, .type n)] (data store limit room n position) := by
  induction room with
  | zero =>
    intro n position trail hroom met rest spots g hg W F
    have hspot : (trail, .type n) ∈ spots := W.subset List.mem_cons_self
    have hshallow := F.shallow _ _ hspot nofun
    omega
  | succ room ih =>
    intro n position trail hroom met rest spots g hg W F
    obtain ⟨id, content, hnode⟩ := F.complete _ _ (W.subset List.mem_cons_self)
    have hchild : ChildPasses store depth (trail.length + 1) (data store limit room) :=
      fun n position trail' htrail' => ih n position trail' (by omega)
    cases hobject : g.objects.lookup (id, content.kind) with
    | some made => exact leaves_again hg W hnode hobject
    | none => exact leaves_first hchild hg W F hnode hobject

end Types

end Generation

/-! ## The literal of a node -/

/-- A literal is written if the data is made and encoded, and the tree is written. -/
theorem LiteralGenerator.exists_literal {g g' : LiteralGenerator} {limits : LiteralLimits}
    {store : Store} {n : NodeRef} {modifiers : Option Modifiers} {v t : Value Expression}
    {k : Heap Expression} {L : Literal}
    (hrun : g.data limits store n ⟨modifiers, none⟩ = (.ok v, g'))
    (hencoded : g'.heap.encoded limits.codec v = .ok (t, k))
    (hwritten : k.toLiteral limits.depth t = .ok L) :
    g.literal limits store n modifiers = .ok L := by
  unfold LiteralGenerator.literal
  rw [hrun]
  exact bind_eq_ok.2 ⟨v, rfl, bind_eq_ok.2 ⟨(t, k), mapError_eq_ok.2 hencoded, hwritten⟩⟩

section Node

variable {store : Store} {nodes : NodeRef → Prop} {g : LiteralGenerator} {v : Value Expression}
  {n : NodeRef} {spots : List Spot} {tour : List (Stop Expression)}

/-- The tree of the data is written exactly if nothing but scalars lies too deep. -/
theorem Traced.toLiteral_ok_iff (T : Traced store nodes g v spots tour) {codec depth : UInt32}
    {t : Value Expression} {k : Heap Expression} (hencoded : g.heap.encoded codec v = .ok (t, k)) :
    (∃ L, k.toLiteral depth t = .ok L) ↔
      ∀ trail layout, (trail, layout) ∈ spots → layout ≠ .scalar →
        trail.length < depth.toNat := by
  rw [Heap.toLiteral_ok_iff T.sound.proper T.below T.tours
    (exemptsScalars_of_traces T.sound T.owned T.traces) hencoded]
  constructor
  · intro hdepth trail layout hspot hscalar
    obtain ⟨u, hstop, htraces⟩ := T.exists_stop hspot
    exact hdepth trail u hstop ((htraces.isContainer_iff T.owned).2 hscalar)
  · intro hdepth trail u hstop hcontainer
    obtain ⟨layout, hspot, htraces⟩ := T.exists_spot hstop
    exact hdepth trail layout hspot ((htraces.isContainer_iff T.owned).1 hcontainer)

/-- The data is encoded if nothing but scalars lies too deep. -/
theorem Traced.exists_encoded (T : Traced store nodes g v spots tour) (codec : UInt32)
    (hdepth : ∀ trail layout, (trail, layout) ∈ spots → layout ≠ .scalar →
      trail.length < codec.toNat) : ∃ t k, g.heap.encoded codec v = .ok (t, k) := by
  unfold Heap.encoded Heap.encode
  rcases Heap.run_encodeAt_root codec T.tours with
    ⟨_, e, seen, hrun, _⟩ | ⟨⟨r, first, hfirst, hle⟩, _⟩
  · rw [hrun]
    exact ⟨_, _, rfl⟩
  · obtain ⟨⟨trail, layout⟩, hspot, htraces⟩ :=
      exists_mem_of_forall₂ T.traces _ (mem_of_firstVisit? hfirst)
    obtain rfl : trail = first := htraces.trail
    have hlt := hdepth trail layout hspot ((htraces.isContainer_iff T.owned).1 rfl)
    omega

/-- A node has a literal exactly if nothing but scalars lies too deep in it. -/
theorem Store.Walks.literal_ok_iff (D : Describable store nodes)
    (hcomplete : ∀ n, nodes n → ∃ id content, store.node? n = some ⟨id, some content⟩)
    (hn : nodes n) (W : store.Walks [] [([], .type n)] spots) {limits : LiteralLimits}
    (hlimits : limits.depth ≤ limits.codec) (modifiers : Option Modifiers) :
    (∃ L, store.literal limits n modifiers = .ok L) ↔
      ∀ trail layout, (trail, layout) ∈ spots → layout ≠ .scalar →
        trail.length < limits.depth.toNat := by
  constructor
  · rintro ⟨L, hL⟩
    obtain ⟨v, g, t, k, hrun, hencoded, hwritten⟩ := LiteralGenerator.literal_eq_ok hL
    obtain ⟨tour, T⟩ := W.exists_traced D hn hrun
    exact (T.toLiteral_ok_iff hencoded).1 ⟨L, hwritten⟩
  · intro hdepth
    have hspots := W.nodes_inside D (List.forall_mem_singleton.2 (List.forall_mem_singleton.2 hn))
    have F : store.Feasible limits.depth.toNat spots :=
      ⟨hdepth, fun trail m hspot => hcomplete m (hspots _ hspot m List.mem_cons_self)⟩
    have hknows : Generation.Knows [] LiteralGenerator.empty := fun _ _ => by
      simp [LiteralGenerator.empty]
    obtain ⟨v, g, _, _, hrun, _⟩ := Generation.passes_data store limits.depth limits.depth.toNat n
      ⟨modifiers, none⟩ [] (Nat.le_add_right _ _) [] [] spots _ hknows W F
    obtain ⟨tour, T⟩ := W.exists_traced D hn hrun
    obtain ⟨t, k, hencoded⟩ := T.exists_encoded limits.codec fun trail layout hspot h =>
      Nat.lt_of_lt_of_le (hdepth trail layout hspot h) hlimits
    obtain ⟨L, hwritten⟩ := (T.toLiteral_ok_iff hencoded).2 hdepth
    exact ⟨L, LiteralGenerator.exists_literal hrun hencoded hwritten⟩

end Node

namespace Reflector

/-- With the limits that hold when none are given, an answered node has a literal exactly if
nothing but scalars stands 512 levels deep in it. -/
theorem literal_ok_iff_shallow {p : Program} {limit : UInt32} {r : Reflector} {n : NodeRef}
    (hn : Answered p.host limit r n) (hnames : r.store.NamesProperties n)
    (modifiers : Option Modifiers) :
    (∃ spots, r.store.Walks [] [([], .type n)] spots) ∧
      ∀ spots, r.store.Walks [] [([], .type n)] spots →
        ((∃ L, r.store.literal .standard n modifiers = .ok L) ↔
          ∀ trail layout, (trail, layout) ∈ spots → layout ≠ .scalar → trail.length < 512) := by
  refine ⟨r.store.exists_walks [] _, fun spots W => ?_⟩
  have huniform := hn.uniform Function.injective_id
  exact W.literal_ok_iff (huniform.describable hnames) huniform.complete .self (by decide) modifiers

theorem literal_ok_iff_shallow_switch :
    let r := (ofLimit 3).after switch.host (.classType default ⟨1⟩)
    Answered switch.host 3 r 0 ∧ r.store.NamesProperties 0 ∧
      ∃ spots, r.store.Walks [] [([], .type 0)] spots ∧
        ∀ trail layout, (trail, layout) ∈ spots → layout ≠ .scalar → trail.length < 512 := by
  obtain ⟨⟨spots, W⟩, hiff⟩ := literal_ok_iff_shallow answered_switch namesProperties_switch none
  exact ⟨answered_switch, namesProperties_switch, spots, W, (hiff spots W).1 exists_literal_switch⟩

end Reflector

end TypeDescription
