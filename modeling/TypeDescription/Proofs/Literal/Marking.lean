import TypeDescription.Proofs.Literal.Capacity
import TypeDescription.Proofs.Literal.Composition
import TypeDescription.Proofs.Literal.Positions

/-!
# What data objects are marked with

A data object is given the modifiers and the initial value of a position when it is
begun, and no field that is inserted later changes them.  It is begun where a walk of
the layout first comes to its type, literal strings and numbers included.  So when a walk
is over, each data object has the position where the walk found its type first
(`Store.Walks.exists_marks`).

The walk and the step that makes the data go along: a step that succeeds uses up a part
of the walk (`Generation.Follows`).
-/

namespace TypeDescription

/-! ## Where a type is first -/

namespace Store

/-- The identity and the kind of a type, if one stands here. -/
def type? (store : Store) : Layout → Option (TypeId × TypeKind)
  | .type n => store.identity? n
  | _ => none

/-- The first of the spots where a type stands. -/
def origin? (store : Store) (spots : List Spot) (key : TypeId × TypeKind) : Option Spot :=
  spots.find? fun spot => store.type? spot.2 == some key

section Origin

variable {store : Store} {spots : List Spot} {spot : Spot} {key : TypeId × TypeKind}

theorem identity?_of_node? {n : NodeRef} {id : TypeId} {content : TypeContent}
    (h : store.node? n = some ⟨id, some content⟩) :
    store.identity? n = some (id, content.kind) := by
  unfold identity?
  rw [h]
  rfl

theorem type?_of_ne_type {layout : Layout} (h : ∀ n, layout ≠ .type n) :
    store.type? layout = none := by
  cases layout with
  | type n => exact absurd rfl (h n)
  | _ => rfl

/-- Only literal strings and numbers are written more than once. -/
theorem type?_eq_some_iff {layout : Layout} (h : key.2.isLiteral = false) :
    store.type? layout = some key ↔ store.key? layout = some key := by
  cases layout with
  | type n =>
    simp only [type?, key?, identity?, shared?, Option.bind_eq_some_iff, Option.map_eq_some_iff]
    refine exists_congr fun node => and_congr_right fun _ => exists_congr fun content =>
      and_congr_right fun _ => ?_
    cases hliteral : content.kind.isLiteral with
    | false => simp
    | true =>
      refine iff_of_false (fun heq => ?_) (by simp)
      rw [← heq, hliteral] at h
      cases h
  | _ => rfl

/-- A type that is written once is written where it is first. -/
theorem first?_eq_origin? (h : key.2.isLiteral = false) (spots : List Spot) :
    store.first? spots key = (store.origin? spots key).map Prod.fst := by
  unfold first? origin?
  congr 2
  funext spot
  rw [Bool.eq_iff_iff, beq_iff_eq, beq_iff_eq, type?_eq_some_iff h]

/-- A spot where nothing new stands changes nothing. -/
theorem origin?_append_of_ne (h : store.type? spot.2 ≠ some key) :
    store.origin? (spots ++ [spot]) key = store.origin? spots key := by
  unfold origin?
  rw [List.find?_append, List.find?_singleton, if_neg (by simpa using h), Option.or_none]

theorem origin?_append_of_some {first : Spot} (h : store.origin? spots key = some first)
    (later : List Spot) : store.origin? (spots ++ later) key = some first := by
  unfold origin? at h ⊢
  rw [List.find?_append, h, Option.some_or]

theorem origin?_append_self (h : store.origin? spots key = none)
    (hspot : store.type? spot.2 = some key) :
    store.origin? (spots ++ [spot]) key = some spot := by
  unfold origin? at h ⊢
  rw [List.find?_append, h, List.find?_singleton, if_pos (by simpa using hspot), Option.none_or]

end Origin

end Store

/-! ## Marks -/

/-- A container has the modifiers and the initial value of a position. -/
structure Heap.Marks (h : Heap Expression) (r : Ref) (position : Position) : Prop where
  modifiers : h.get? (.node r) "modifiers" = some (Generation.modifiersValue position.modifiers)
  initializer : h.get? (.node r) "initializer" = some (Generation.verbatim? position.initializer)

namespace Heap

section Marks

variable {h h' : Heap Expression} {r : Ref} {position : Position}

/-- A property of an object stays when another one is inserted. -/
theorem get?_of_insert? {target v value w : Value Expression} {key name : String}
    (hinsert : h.insert? target key value = some h') (hne : name ≠ key)
    (hget : h.get? v name = some w) : h'.get? v name = some w := by
  obtain ⟨s, t, rfl, hcell, rfl⟩ := exists_of_insert? hinsert
  cases v with
  | node r =>
    by_cases heq : r = s
    · subst heq
      have hcell' := cell?_write_self (.object (t.insert key value)) (lt_size_of_cell? hcell)
      simp only [get?, content?, hcell] at hget
      simp only [get?, content?, hcell', t.get?_insert_of_ne value hne, hget]
    · simp only [get?, content?, cell?_write_of_ne _ heq]
      exact hget
  | _ => exact hget

/-- A new container changes no property of an object. -/
theorem get?_allocate {v w : Value Expression} {name : String} (c : Cell Expression)
    (hget : h.get? v name = some w) : (h.allocate c).2.get? v name = some w := by
  cases v with
  | node r =>
    simp only [get?, content?] at hget ⊢
    cases hcell : h.cell? r with
    | none =>
      rw [hcell] at hget
      cases hget
    | some c' => rwa [cell?_allocate_of_lt c (lt_size_of_cell? hcell)]
  | _ => exact hget

theorem Marks.allocate (hr : h.Marks r position) (c : Cell Expression) :
    (h.allocate c).2.Marks r position :=
  ⟨get?_allocate c hr.modifiers, get?_allocate c hr.initializer⟩

theorem Marks.insert (hr : h.Marks r position) {target value : Value Expression} {key : String}
    (hkey : key ∉ ["kind", "modifiers", "initializer"])
    (hinsert : h.insert? target key value = some h') : h'.Marks r position := by
  have hmodifiers : "modifiers" ≠ key := by
    rintro rfl
    exact hkey (by simp)
  have hinitializer : "initializer" ≠ key := by
    rintro rfl
    exact hkey (by simp)
  exact ⟨get?_of_insert? hinsert hmodifiers hr.modifiers,
    get?_of_insert? hinsert hinitializer hr.initializer⟩

/-- A data object begins with its marks. -/
theorem marks_header (h : Heap Expression) (kind : TypeKind) (position : Position) :
    (h.allocate (.object (Table.ofList (Generation.header kind position)))).2.Marks h.size
      position := by
  constructor <;>
  · simp only [get?, content?, cell?_allocate_self]
    rfl

end Marks

end Heap

namespace Generation

/-- The generator beside a walk.  A type has a data object exactly if the walk came to it,
and the data object has the position where the walk came to it first. -/
structure Tracks (store : Store) (root : NodeRef) (given : Position)
    (met : List (TypeId × TypeKind)) (past : List Spot) (g : LiteralGenerator) : Prop where
  knows : Knows met g
  marked : ∀ key, Option.Rel (fun spot v => ∃ r position, v = .node r ∧
      store.Seated root given spot.1 spot.2 position ∧ g.heap.Marks r position)
    (store.origin? past key) (g.objects.lookup key)

/-- A step that succeeds uses up a part of the walk, and keeps beside it. -/
def Follows (store : Store) (root : NodeRef) (given : Position) {α : Type} (here : List Spot)
    (step : Generation α) : Prop :=
  ∀ met past rest spots g a g', Tracks store root given met past g →
    store.Walks met (here ++ rest) spots → step.run.run g = (.ok a, g') →
      ∃ met' passed later, spots = passed ++ later ∧
        Tracks store root given met' (past ++ passed) g' ∧ store.Walks met' rest later

section Follows

variable {α β : Type} {store : Store} {root n : NodeRef} {given position : Position}
  {met : List (TypeId × TypeKind)} {past rest spots : List Spot} {g g' : LiteralGenerator}
  {here here' : List Spot} {trail : Trail} {layout : Layout}

theorem tracks_empty (store : Store) (root : NodeRef) (given : Position) :
    Tracks store root given [] [] LiteralGenerator.empty where
  knows _ _ := by simp [LiteralGenerator.empty]
  marked _ := .none

/-- Where no data object is begun it is enough that none is changed. -/
theorem Tracks.mono (h : Tracks store root given met past g) {heap : Heap Expression}
    (hheap : ∀ r position, g.heap.Marks r position → heap.Marks r position) :
    Tracks store root given met past { g with heap := heap } := by
  refine ⟨h.knows, fun key => ?_⟩
  have hrel := h.marked key
  generalize store.origin? past key = first at hrel ⊢
  generalize g.objects.lookup key = object at hrel ⊢
  cases hrel with
  | none => exact .none
  | some hobject =>
    obtain ⟨r, position, hv, hseat, hmarks⟩ := hobject
    exact .some ⟨r, position, hv, hseat, hheap r position hmarks⟩

/-- A spot where no type stands changes nothing. -/
theorem Tracks.pass (h : Tracks store root given met past g) (htype : ∀ n, layout ≠ .type n) :
    Tracks store root given met (past ++ [(trail, layout)]) g := by
  refine ⟨h.knows, fun key => ?_⟩
  rw [Store.origin?_append_of_ne (by rw [Store.type?_of_ne_type htype]; nofun)]
  exact h.marked key

theorem follows_pure (a : α) : Follows store root given [] (pure a) := by
  intro met past rest spots g a' g' hg W hrun
  cases hrun
  exact ⟨met, [], spots, rfl, (List.append_nil past).symm ▸ hg, W⟩

theorem Follows.bind {m : Generation α} {f : α → Generation β}
    (hm : Follows store root given here m)
    (hf : ∀ a, Follows store root given here' (f a)) :
    Follows store root given (here ++ here') (m >>= f) := by
  intro met past rest spots g b g' hg W hrun
  obtain ⟨a, g₁, hfirst, hlast⟩ := ok_of_run_bind hrun
  rw [List.append_assoc] at W
  obtain ⟨met₁, passed, later, rfl, hg₁, W₁⟩ := hm met past _ spots g a g₁ hg W hfirst
  obtain ⟨met', passed', later', rfl, hg', W'⟩ := hf a met₁ _ rest later g₁ b g' hg₁ W₁ hlast
  refine ⟨met', passed ++ passed', later', (List.append_assoc _ _ _).symm, ?_, W'⟩
  rwa [← List.append_assoc]

theorem follows_allocate (c : Cell Expression) : Follows store root given [] (allocate c) := by
  intro met past rest spots g v g' hg W hrun
  cases hrun
  refine ⟨met, [], spots, rfl, ?_, W⟩
  rw [List.append_nil]
  exact hg.mono fun r position hr => hr.allocate c

theorem follows_insert (target v : Value Expression) {key : String}
    (hkey : key ∉ ["kind", "modifiers", "initializer"]) :
    Follows store root given [] (insert target key v) := by
  intro met past rest spots g u g' hg W hrun
  obtain rfl : { g with heap := (g.heap.insert? target key v).getD g.heap } = g' := by
    cases hrun
    rfl
  refine ⟨met, [], spots, rfl, ?_, W⟩
  rw [List.append_nil]
  refine hg.mono fun r position hr => ?_
  cases hinsert : g.heap.insert? target key v with
  | none => exact hr
  | some heap => exact hr.insert hkey hinsert

/-- A step that goes on behind a spot. -/
theorem Follows.cons {step : Generation α} (h : Follows store root given here step) {spot : Spot}
    {later : List Spot} (hg : Tracks store root given met (past ++ [spot]) g)
    (W : store.Walks met (here ++ rest) later) {a : α} (hrun : step.run.run g = (.ok a, g')) :
    ∃ met' passed later', spot :: later = passed ++ later' ∧
      Tracks store root given met' (past ++ passed) g' ∧ store.Walks met' rest later' := by
  obtain ⟨met', passed, later', rfl, hg', W'⟩ := h met _ rest later g a g' hg W hrun
  refine ⟨met', spot :: passed, later', rfl, ?_, W'⟩
  rwa [List.append_assoc] at hg'

theorem composes_follows (store : Store) (root : NodeRef) (given : Position) :
    Composes store fun _ here step => Follows store root given here step where
  pure := follows_pure
  bind := .bind
  allocate := follows_allocate
  insert target key v hkey := follows_insert target v hkey
  scalar h met past rest spots g a g' hg W hrun := by
    obtain ⟨later, rfl, W'⟩ := W.pass_inv id
    exact h.cons (hg.pass nofun) W' hrun
  inside hscalar htype h met past rest spots g a g' hg W hrun := by
    obtain ⟨later, rfl, W'⟩ := W.enter_inv (Store.opens_of_ne hscalar htype)
    rw [Store.key?_of_ne_type htype] at W'
    exact h.cons (hg.pass htype) W' hrun

end Follows

/-! ## The data of types -/

section Data

variable {store : Store} {root n : NodeRef} {given position : Position} {trail : Trail}
  {id : TypeId} {content : TypeContent} {met : List (TypeId × TypeKind)}
  {past rest spots : List Spot} {g g' : LiteralGenerator} {limit : UInt32} {room : Nat}
  {v : Value Expression}

theorem seating_seated (hnames : store.NamesProperties root) (given : Position) :
    Seating (store.Seated root given) where
  property h _ hmember := h.property hnames hmember
  parameter := .parameter
  part h htype hproperties hparameter _ hpart := h.part htype hproperties hparameter hpart

/-- A walk passes by a type that has a data object. -/
theorem Tracks.again (hg : Tracks store root given met past g)
    (W : store.Walks met ((trail, .type n) :: rest) spots)
    (hnode : store.node? n = some ⟨id, some content⟩)
    (hobject : g.objects.lookup (id, content.kind) = some v) :
    ∃ met' passed later, spots = passed ++ later ∧
      Tracks store root given met' (past ++ passed) g ∧ store.Walks met' rest later := by
  obtain ⟨later, rfl, W'⟩ := W.pass_inv (hg.knows.not_opens hnode hobject)
  refine ⟨met, [(trail, .type n)], later, rfl, ⟨hg.knows, fun key => ?_⟩, W'⟩
  by_cases hkey : key = (id, content.kind)
  · have hrel := hg.marked key
    subst hkey
    rw [hobject] at hrel ⊢
    cases hfirst : store.origin? past (id, content.kind) with
    | none =>
      rw [hfirst] at hrel
      cases hrel
    | some first => rwa [Store.origin?_append_of_some hfirst, ← hfirst]
  · have htype : store.type? (Layout.type n) ≠ some key := by
      rw [Store.type?, Store.identity?_of_node? hnode]
      exact fun heq => hkey (Option.some.inj heq).symm
    rw [Store.origin?_append_of_ne htype]
    exact hg.marked key

/-- A data object is begun where the walk comes to its type first. -/
theorem Tracks.begun (hg : Tracks store root given met past g)
    (hnode : store.node? n = some ⟨id, some content⟩)
    (hobject : g.objects.lookup (id, content.kind) = none)
    (hseat : store.Seated root given trail (.type n) position) {met' : List (TypeId × TypeKind)}
    (hknows : Knows met' (begun g (id, content.kind) position)) :
    Tracks store root given met' (past ++ [(trail, .type n)])
      (begun g (id, content.kind) position) := by
  refine ⟨hknows, fun key => ?_⟩
  have hrel := hg.marked key
  have hidentity : store.type? (Layout.type n) = some (id, content.kind) :=
    Store.identity?_of_node? hnode
  rw [lookup_begun]
  by_cases hkey : key = (id, content.kind)
  · subst hkey
    rw [hobject] at hrel
    have hnone : store.origin? past (id, content.kind) = none := by
      cases hfirst : store.origin? past (id, content.kind) with
      | none => rfl
      | some first =>
        rw [hfirst] at hrel
        cases hrel
    rw [Store.origin?_append_self hnone hidentity, if_pos rfl]
    exact .some ⟨g.heap.size, position, rfl, hseat, Heap.marks_header g.heap content.kind position⟩
  · rw [if_neg hkey, Store.origin?_append_of_ne fun heq =>
      hkey (Option.some.inj (hidentity.symm.trans heq)).symm]
    have hheap : ∀ r position', g.heap.Marks r position' →
        (Generation.begun g (id, content.kind) position).heap.Marks r position' :=
      fun r position' hr => hr.allocate _
    exact (hg.mono hheap).marked key

/-- The data object of a type that is met first is filled while the walk goes inside. -/
theorem follows_fill {child : NodeRef → Position → Generation (Value Expression)}
    (hnames : store.NamesProperties root)
    (hchild : AtSeats (fun _ here step => Follows store root given here step)
      (store.Seated root given) child)
    (hseat : store.Seated root given trail (.type n) position)
    (hcontent : store.content? n = some content) (target : Value Expression) :
    Follows store root given (store.inside (trail, .type n)) (fill child target content) := by
  have C := composes_follows store root given
  have hfill := C.fill (seating_seated hnames given) hchild target content
    fun field hfield => hseat.field hcontent hfield
  rw [Store.inside, Store.parts_of_content? hcontent, List.map_map]
  exact C.scalar (C.scalar (C.scalar hfill))

/-- A type that has no data object is given one with the position of the spot. -/
theorem Tracks.first (hnames : store.NamesProperties root)
    (hchild : AtSeats (fun _ here step => Follows store root given here step)
      (store.Seated root given) (data store limit room))
    (hg : Tracks store root given met past g) (W : store.Walks met ((trail, .type n) :: rest) spots)
    (hnode : store.node? n = some ⟨id, some content⟩)
    (hobject : g.objects.lookup (id, content.kind) = none)
    (hseat : store.Seated root given trail (.type n) position)
    (hfill : (fill (data store limit room) (.node g.heap.size) content).run.run
      (Generation.begun g (id, content.kind) position) = (.ok (), g')) :
    ∃ met' passed later, spots = passed ++ later ∧
      Tracks store root given met' (past ++ passed) g' ∧ store.Walks met' rest later := by
  cases hliteral : content.kind.isLiteral with
  | true =>
    obtain ⟨later, rfl, W'⟩ := W.pass_inv
      (Store.not_opens_of_shared? (Store.shared?_of_isLiteral hnode hliteral))
    have hknows : Knows met (Generation.begun g (id, content.kind) position) :=
      knows_begun_of_isLiteral hg.knows hliteral position
    exact ((composes_follows store root given).fill_of_isLiteral hliteral _).cons
      (hg.begun hnode hobject hseat hknows) W' hfill
  | false =>
    have hkey : store.shared? n = some (id, content.kind) :=
      Store.shared?_eq_some_iff.2 ⟨content, hnode, rfl, hliteral⟩
    obtain ⟨later, rfl, W'⟩ := W.enter_inv ⟨_, hkey, hg.knows.notMem hliteral hobject⟩
    rw [Store.marks_of_shared? hkey] at W'
    have hknows := knows_begun hg.knows (id, content.kind) position
    exact (follows_fill hnames hchild hseat (Store.content?_of_node? hnode) _).cons
      (hg.begun hnode hobject hseat hknows) W' hfill

/-- The data of a type is made along the walk. -/
theorem follows_data (hnames : store.NamesProperties root) (given : Position) (limit : UInt32)
    (room : Nat) :
    AtSeats (fun _ here step => Follows store root given here step) (store.Seated root given)
      (data store limit room) := by
  induction room using Nat.strong_induction_on with
  | _ room ih =>
    intro n position trail hseat met past rest spots g v g' hg W hrun
    cases supplies_of_run_data hrun with
    | again hnode hobject => exact hg.again W hnode hobject
    | first hnode hobject hfill =>
      exact hg.first hnames (ih _ (Nat.lt_succ_self _)) W hnode hobject hseat hfill

end Data

end Generation

/-- When the walk is over, each data object has the position where the walk came to its type
first. -/
theorem Store.Walks.exists_marks {store : Store} {n : NodeRef} {spots : List Spot}
    (hnames : store.NamesProperties n) (W : store.Walks [] [([], .type n)] spots)
    {limits : LiteralLimits} {position : Position} {v : Value Expression} {g : LiteralGenerator}
    (hrun : LiteralGenerator.empty.data limits store n position = (.ok v, g))
    {key : TypeId × TypeKind} {r : Ref} (hobject : g.objects.lookup key = some (.node r)) :
    ∃ spot seat, store.origin? spots key = some spot ∧
      store.Seated n position spot.1 spot.2 seat ∧ g.heap.Marks r seat := by
  obtain ⟨met, passed, later, rfl, hg, W'⟩ :=
    Generation.follows_data hnames position limits.depth limits.depth.toNat n position []
      (.start store n position) [] [] [] spots _ v g
      (Generation.tracks_empty store n position) W hrun
  cases W' with
  | done =>
    rw [List.append_nil]
    have hrel := hg.marked key
    rw [hobject] at hrel
    cases hfirst : store.origin? passed key with
    | none =>
      rw [List.nil_append, hfirst] at hrel
      cases hrel
    | some spot =>
      rw [List.nil_append, hfirst] at hrel
      cases hrel with
      | some h =>
        obtain ⟨r', seat, hr, hseat, hmarks⟩ := h
        exact ⟨spot, seat, rfl, hseat, Value.node.inj hr ▸ hmarks⟩

end TypeDescription
