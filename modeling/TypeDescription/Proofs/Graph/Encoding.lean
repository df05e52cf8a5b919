import TypeDescription.Graph.Encode
import TypeDescription.Proofs.Graph.Heap
import TypeDescription.Proofs.Graph.View
import TypeDescription.Proofs.Run

/-!
# The encoded graph

`Heap.encoded` walks a graph and allocates a tree.  This module describes the
tree container by container.  A `Place` pairs a container of the graph with the
trail of its first visit and the new container made there.  `Image` says that
the new container has the shape of the old one and that each slot `Stands` for
the old value: a scalar for itself, a container met first here for its new
container, and every other container for a token with the path of its first
visit.

`Walk` is the invariant of the depth-first walk, and `encoded_walk` says that a
successful call ends with a walk from the root.  The walk needs distinct names
in every container, since of two entries with one name only one is kept.
-/

namespace TypeDescription

variable {X : Type}

/-! ## Places -/

/-- A container of the graph, the trail to its first visit, and the new
container that was made there. -/
structure Place where
  source : Ref
  trail : Trail
  target : Ref

namespace Place

/-- What the walk records of a place. -/
def visit (p : Place) : Ref × Trail :=
  (p.source, p.trail)

end Place

/-- What is encoded for a value that is no container: an exempt value as the
value behind the marker, every other value as itself. -/
def Value.taken : Value X → Value X
  | .exempt inner => inner
  | value => value

theorem Value.taken_eq {v : Value X} (hplain : v.exempt? = none) : v.taken = v := by
  cases v <;> first | rfl | cases hplain

/-- The container of a token. -/
def tokenCell (first : Trail) : Cell X :=
  .object (Table.ofList [(refKey, .string (Path.text first.reverse))])

namespace Heap

/-- The new value in a slot stands for the old one that the walk met at the end
of a trail. -/
inductive Stands (k : Heap X) (places : List Place) (seen : Seen) (trail : Trail) :
    Value X → Value X → Prop
  | leaf {v : Value X} : v.isContainer = false → Stands k places seen trail v v.taken
  | first {r q : Ref} : ⟨r, trail, q⟩ ∈ places →
      Stands k places seen trail (.node r) (.node q)
  | again {r q : Ref} {first : Trail} : (r, first) ∈ seen → first ≠ trail →
      k.cell? q = some (tokenCell first) → Stands k places seen trail (.node r) (.node q)

/-- The new container of a place has the shape of the old one, and its values
stand for the old ones. -/
def Image (h k : Heap X) (places : List Place) (seen : Seen) (p : Place) : Prop :=
  k.Fills p.target (h.view p.source) fun _ slot u =>
    k.Stands places seen (slot.1 :: p.trail) slot.2 u

/-- The second place lies in a slot of the first. -/
def Inside (h : Heap X) (p p' : Place) : Prop :=
  ∃ step, p'.trail = step :: p.trail ∧ (step, .node p'.source) ∈ (h.view p.source).slots

theorem Stands.mono {k k' : Heap X} {places places' : List Place} {seen seen' : Seen}
    {trail : Trail} {v w : Value X} (hk : k.Within k') (hp : places ⊆ places')
    (hs : seen ⊆ seen') (h : k.Stands places seen trail v w) :
    k'.Stands places' seen' trail v w := by
  cases h with
  | leaf hv => exact .leaf hv
  | first hmem => exact .first (hp hmem)
  | again hmem hne hcell => exact .again (hs hmem) hne (hk.cell? hcell)

theorem Image.mono {h k k' : Heap X} {places places' : List Place} {seen seen' : Seen}
    {p : Place} (hk : k.Within k') (hp : places ⊆ places') (hs : seen ⊆ seen')
    (hi : h.Image k places seen p) : h.Image k' places' seen' p :=
  Fills.mono hi (fun _ hc => hk.cell? hc) fun _ _ _ _ hst => hst.mono hk hp hs

/-! ## The walk -/

/-- What a walk did: the places it made, in a heap that grew, while the
containers seen grew by those of the places. -/
structure Walk (h k : Heap X) (seen : Seen) (places : List Place) (k' : Heap X)
    (seen' : Seen) : Prop where
  seen_eq : seen' = places.map Place.visit ++ seen
  within : k.Within k'
  targets : ∀ p ∈ places, k.size ≤ p.target ∧ p.target < k'.size
  targets_nodup : (places.map Place.target).Nodup
  images : ∀ p ∈ places, h.Image k' places seen' p

theorem Walk.nil (h k : Heap X) (seen : Seen) : h.Walk k seen [] k seen where
  seen_eq := rfl
  within := .refl k
  targets := by simp
  targets_nodup := by simp
  images := by simp

/-- Two walks one after the other are a walk. -/
theorem Walk.trans {h k k₁ k₂ : Heap X} {seen seen₁ seen₂ : Seen}
    {places₁ places₂ : List Place} (w₁ : h.Walk k seen places₁ k₁ seen₁)
    (w₂ : h.Walk k₁ seen₁ places₂ k₂ seen₂) :
    h.Walk k seen (places₂ ++ places₁) k₂ seen₂ where
  seen_eq := by
    rw [w₂.seen_eq, w₁.seen_eq, List.map_append, List.append_assoc]
  within := w₁.within.trans w₂.within
  targets p hp := by
    rcases List.mem_append.1 hp with hp | hp
    · obtain ⟨hlow, hhigh⟩ := w₂.targets p hp
      exact ⟨Nat.le_trans w₁.within.size_le hlow, hhigh⟩
    · obtain ⟨hlow, hhigh⟩ := w₁.targets p hp
      exact ⟨hlow, Nat.lt_of_lt_of_le hhigh w₂.within.size_le⟩
  targets_nodup := by
    rw [List.map_append, List.nodup_append]
    refine ⟨w₂.targets_nodup, w₁.targets_nodup, ?_⟩
    rintro a ha b hb rfl
    obtain ⟨p₂, hp₂, rfl⟩ := List.mem_map.1 ha
    obtain ⟨p₁, hp₁, heq⟩ := List.mem_map.1 hb
    have h₂ := (w₂.targets p₂ hp₂).1
    rw [← heq] at h₂
    exact Nat.not_lt_of_le h₂ (w₁.targets p₁ hp₁).2
  images p hp := by
    have hseen : seen₁ ⊆ seen₂ := by
      rw [w₂.seen_eq]
      exact List.subset_append_right _ _
    rcases List.mem_append.1 hp with hp | hp
    · exact (w₂.images p hp).mono (.refl k₂) (List.subset_append_left _ _)
        (List.Subset.refl _)
    · exact (w₁.images p hp).mono w₂.within (List.subset_append_right _ _) hseen

/-- The containers seen have one trail each, and no trail comes twice. -/
structure Distinct (seen : Seen) : Prop where
  sources_nodup : (seen.map Prod.fst).Nodup
  trails_nodup : (seen.map Prod.snd).Nodup

/-- No container seen lies at the end of a trail or below it. -/
def Unvisited (seen : Seen) (trail : Trail) : Prop :=
  ∀ visit ∈ seen, ¬ trail <:+ visit.2

/-- A place of a walk is one that the walk started at, or lies in a slot of
another place of the walk. -/
def Grown (h : Heap X) (places : List Place) (start : Place → Prop) : Prop :=
  ∀ p ∈ places, start p ∨ ∃ p' ∈ places, h.Inside p' p

/-- What holds of the places a walk started at, and of a place inside another
one of which it holds, holds of all places of the walk. -/
theorem Grown.induct {h : Heap X} {places : List Place} {start motive : Place → Prop}
    (hg : h.Grown places start) (hstart : ∀ p ∈ places, start p → motive p)
    (hinside : ∀ p ∈ places, ∀ p' ∈ places, h.Inside p p' → motive p → motive p') :
    ∀ p ∈ places, motive p := by
  intro p hp
  induction htrail : p.trail generalizing p with
  | nil =>
    rcases hg p hp with hs | ⟨p', _, step, heq, _⟩
    · exact hstart p hp hs
    · rw [htrail] at heq
      cases heq
  | cons step trail ih =>
    rcases hg p hp with hs | ⟨p', hp', step', heq, hslot⟩
    · exact hstart p hp hs
    · have htail : p'.trail = trail := (List.cons.inj (htrail.symm.trans heq)).2.symm
      exact hinside p' hp' p hp ⟨step', heq, hslot⟩ (ih p' hp' htail)

/-- A walk from a value at the end of a trail, with `room` levels left. -/
structure Entered (h k : Heap X) (seen : Seen) (trail : Trail) (room : Nat) (v : Value X)
    (places : List Place) (k' : Heap X) (seen' : Seen) (w : Value X) : Prop where
  walk : h.Walk k seen places k' seen'
  distinct : Distinct seen'
  stands : k'.Stands places seen' trail v w
  below : ∀ p ∈ places, trail <:+ p.trail ∧ p.trail.length < trail.length + room
  grown : h.Grown places fun p => p.trail = trail ∧ v = .node p.source

/-- A walk from the slots of a container at the end of a trail, with `room`
levels left for each. -/
structure Crossed (h k : Heap X) (seen : Seen) (trail : Trail) (room : Nat)
    (slots : List (Step × Value X)) (places : List Place) (k' : Heap X) (seen' : Seen)
    (ws : List (Value X)) : Prop where
  walk : h.Walk k seen places k' seen'
  distinct : Distinct seen'
  stands : List.Forall₂ (fun slot w => k'.Stands places seen' (slot.1 :: trail) slot.2 w)
    slots ws
  below : ∀ p ∈ places, (∃ slot ∈ slots, slot.1 :: trail <:+ p.trail) ∧
    p.trail.length < trail.length + 1 + room
  grown : h.Grown places fun p => ∃ slot ∈ slots, p.trail = slot.1 :: trail ∧
    slot.2 = .node p.source

/-- What a walk with `room` levels left does wherever it starts.  The tree of a
successful walk is planted in any heap `k`. -/
def Encodes (h : Heap X) (room : Nat) (child : Trail → Value X → Encoder (Encoded X)) : Prop :=
  ∀ trail v seen e seen' k, (∀ r, h.Reaches v r → (h.view r).names.Nodup) →
    Distinct seen → Unvisited seen trail → (child trail v).run seen = .ok (e, seen') →
    ∃ places, h.Entered k seen trail room v places (plant e k).2 seen' (plant e k).1

/-- Two steps from one place lead to different parts of the tree. -/
theorem not_suffix_of_ne {trail t : Trail} {s s' : Step} (hne : s ≠ s')
    (h : s :: trail <:+ t) : ¬ s' :: trail <:+ t := by
  intro h'
  rcases List.suffix_or_suffix_of_suffix h h' with hs | hs
  · have heq := hs.eq_of_length rfl
    exact hne (List.cons.inj heq).1
  · have heq := hs.eq_of_length rfl
    exact hne (List.cons.inj heq).1.symm

/-- A walk from the slots of a container is one walk for each slot. -/
theorem crossed_of_run {h : Heap X} {room : Nat} {child : Trail → Value X → Encoder (Encoded X)}
    (hchild : h.Encodes room child) (trail : Trail) (slots : List (Step × Value X))
    (seen : Seen) (es : List (Encoded X)) (seen' : Seen) (k : Heap X)
    (hnames : ∀ slot ∈ slots, ∀ r, h.Reaches slot.2 r → (h.view r).names.Nodup)
    (hsteps : (slots.map Prod.fst).Nodup) (hseen : Distinct seen)
    (hfree : ∀ slot ∈ slots, Unvisited seen (slot.1 :: trail))
    (hrun : (slots.mapM fun slot => child (slot.1 :: trail) slot.2).run seen =
      .ok (es, seen')) :
    ∃ places, h.Crossed k seen trail room slots places (plantItems es k).2 seen'
      (plantItems es k).1 := by
  induction slots generalizing seen es k with
  | nil =>
    obtain ⟨rfl, rfl⟩ := run_mapM_nil_eq_ok hrun
    exact ⟨[], .nil h k seen, hseen, .nil, by simp, by simp [Grown]⟩
  | cons slot rest ih =>
    obtain ⟨e, seen₁, es', hhead, htail, rfl⟩ := run_mapM_cons_eq_ok hrun
    obtain ⟨places₁, w₁⟩ := hchild _ _ _ _ _ k (hnames slot List.mem_cons_self) hseen
      (hfree slot List.mem_cons_self) hhead
    simp only [List.map_cons, List.nodup_cons] at hsteps
    have hne : ∀ other ∈ rest, slot.1 ≠ other.1 := by
      intro other hother heq
      exact hsteps.1 (heq ▸ List.mem_map_of_mem hother)
    -- the head walked below its own step only, so the other steps stay free
    have hfree₁ : ∀ other ∈ rest, Unvisited seen₁ (other.1 :: trail) := by
      intro other hother visit hvisit
      rw [w₁.walk.seen_eq, List.mem_append] at hvisit
      rcases hvisit with hvisit | hvisit
      · obtain ⟨p, hp, rfl⟩ := List.mem_map.1 hvisit
        exact not_suffix_of_ne (hne other hother) (w₁.below p hp).1
      · exact hfree other (List.mem_cons_of_mem _ hother) visit hvisit
    obtain ⟨places₂, w₂⟩ := ih seen₁ es' (plant e k).2
      (fun other hother => hnames other (List.mem_cons_of_mem _ hother)) hsteps.2
      w₁.distinct hfree₁ htail
    have hseen₁ : seen₁ ⊆ seen' := by
      rw [w₂.walk.seen_eq]
      exact List.subset_append_right _ _
    refine ⟨places₂ ++ places₁, w₁.walk.trans w₂.walk, w₂.distinct, ?_, ?_, ?_⟩
    · refine .cons ?_ (w₂.stands.imp fun _ _ hst => ?_)
      · exact w₁.stands.mono w₂.walk.within (List.subset_append_right _ _) hseen₁
      · exact hst.mono (.refl _) (List.subset_append_left _ _) (List.Subset.refl _)
    · intro p hp
      rcases List.mem_append.1 hp with hp | hp
      · obtain ⟨⟨other, hother, hsuf⟩, hlen⟩ := w₂.below p hp
        exact ⟨⟨other, List.mem_cons_of_mem _ hother, hsuf⟩, hlen⟩
      · obtain ⟨hsuf, hlen⟩ := w₁.below p hp
        exact ⟨⟨slot, List.mem_cons_self, hsuf⟩, hlen⟩
    · intro p hp
      rcases List.mem_append.1 hp with hp | hp
      · rcases w₂.grown p hp with ⟨other, hother, hstart⟩ | ⟨p', hp', hin⟩
        · exact .inl ⟨other, List.mem_cons_of_mem _ hother, hstart⟩
        · exact .inr ⟨p', List.mem_append_left _ hp', hin⟩
      · rcases w₁.grown p hp with hstart | ⟨p', hp', hin⟩
        · exact .inl ⟨slot, List.mem_cons_self, hstart⟩
        · exact .inr ⟨p', List.mem_append_right _ hp', hin⟩

/-! ## One container -/

end Heap

/-- The tree of a container, from the trees of its values. -/
def View.assemble (docs : List (Encoded X)) : View X → Encoded X
  | .list _ => .array docs
  | .named fields => .ofFields ((fields.map Prod.fst).zip docs)

/-- The tree of an object has the tree of each value under its name. -/
theorem View.assemble_named {fields : List (String × Value X)} {docs : List (Encoded X)}
    (hnames : (named fields).names.Nodup) (hlen : docs.length = (named fields).slots.length) :
    (named fields).assemble docs = .object ((fields.map Prod.fst).zip docs) ∧
      ((fields.map Prod.fst).zip docs).map Prod.fst = fields.map Prod.fst ∧
      ((fields.map Prod.fst).zip docs).map Prod.snd = docs := by
  have hlen' : docs.length = (fields.map Prod.fst).length := by simpa [slots] using hlen
  have hkeys := List.map_fst_zip (Nat.le_of_eq hlen'.symm)
  refine ⟨?_, hkeys, List.map_snd_zip (Nat.le_of_eq hlen')⟩
  rw [assemble, Document.ofFields_of_nodup]
  rw [hkeys]
  exact hnames

namespace Heap

/-- A container is encoded by encoding its slots in order. -/
theorem encodeView_eq (child : Trail → Value X → Encoder (Encoded X)) (trail : Trail)
    (view : View X) :
    encodeView child trail view = do
      let docs ← view.slots.mapM fun slot => child (slot.1 :: trail) slot.2
      return view.assemble docs := by
  cases view with
  | list items => simp [encodeView, View.slots, View.assemble, List.mapM_map, Function.comp_def]
  | named fields =>
    have hkeyed := mapM_keyed Prod.fst
      (fun field : String × Value X => child (.key field.1 :: trail) field.2) fields
    simp only [encodeView, View.slots, View.assemble, List.mapM_map, Function.comp_def,
      bind_pure_comp] at hkeyed ⊢
    rw [hkeyed, Functor.map_map]

/-- A planted container holds what was planted for its values. -/
theorem plant_assemble {view : View X} (hnames : view.names.Nodup) {docs : List (Encoded X)}
    (hlen : docs.length = view.slots.length) (k : Heap X) :
    plant (view.assemble docs) k =
      (.node (plantItems docs k).2.size,
        ((plantItems docs k).2.allocate (view.fill (plantItems docs k).1)).2) := by
  cases view with
  | list items => simp [View.assemble, plant, View.fill, allocate, size]
  | named fields =>
    obtain ⟨hassemble, hkeys, hdocs⟩ := View.assemble_named hnames hlen
    simp only [hassemble, plant, plantFields_eq, hkeys, hdocs, View.fill, allocate, size]

/-- A token is planted as a new container. -/
theorem plant_token (first : Trail) (k : Heap X) :
    plant (Encoded.token first.reverse) k = (.node k.size, (k.allocate (tokenCell first)).2) := by
  simp [Encoded.token, plant, plantFields, tokenCell, allocate, size]

/-! ## The whole walk -/

section Lookup

variable {β : Type} {l : List (Ref × β)} {r : Ref} {b : β}

theorem lookup_eq_some_mem (h : l.lookup r = some b) : (r, b) ∈ l := by
  obtain ⟨before, after, rfl, _⟩ := List.lookup_eq_some_iff.1 h
  simp

theorem lookup_eq_none_notMem (h : l.lookup r = none) : r ∉ l.map Prod.fst := by
  intro hmem
  obtain ⟨entry, hentry, rfl⟩ := List.mem_map.1 hmem
  have := List.lookup_eq_none_iff.1 h entry hentry
  simp at this

/-- A key that comes once is found with its entry. -/
theorem lookup_of_mem (hnodup : (l.map Prod.fst).Nodup) (hmem : (r, b) ∈ l) :
    l.lookup r = some b := by
  cases hl : l.lookup r with
  | none => exact absurd (List.mem_map_of_mem hmem) (lookup_eq_none_notMem hl)
  | some b' =>
    have heq := List.inj_on_of_nodup_map hnodup (lookup_eq_some_mem hl) hmem rfl
    rw [(Prod.mk.inj heq).2]

theorem lookup_cons_of_ne {s : Ref} (hne : s ≠ r) : ((r, b) :: l).lookup s = l.lookup s := by
  rw [List.lookup_cons, beq_false_of_ne hne]

theorem lookup_isSome_iff : (l.lookup r).isSome ↔ r ∈ l.map Prod.fst := by
  cases hl : l.lookup r with
  | none => simpa using lookup_eq_none_notMem hl
  | some b => simpa using ⟨b, lookup_eq_some_mem hl⟩

end Lookup

/-- A value that is no container is encoded as it is taken. -/
theorem encodeAt_leaf {h : Heap X} {limit : UInt32} {room : Nat} {trail : Trail}
    {v : Value X} (hv : v.isContainer = false) :
    h.encodeAt limit room trail v = pure (.leaf v.taken) := by
  cases v <;> first | (cases room <;> rfl) | simp [Value.isContainer] at hv

/-- A container met before is encoded as a token. -/
theorem run_encodeAt_seen {h : Heap X} {limit : UInt32} {room : Nat} {trail : Trail}
    {r : Ref} {seen : Seen} {first : Trail} (hl : seen.lookup r = some first) :
    (h.encodeAt limit room trail (.node r)).run seen = .ok (.token first.reverse, seen) := by
  cases room <;> (simp [encodeAt, hl]; rfl)

/-- A container met first is recorded, and then its slots are encoded. -/
theorem run_encodeAt_first {h : Heap X} {limit : UInt32} {room : Nat} {trail : Trail}
    {r : Ref} {seen : Seen} (hl : seen.lookup r = none) :
    (h.encodeAt limit room trail (.node r)).run seen =
      match room with
      | 0 => .error (.depthExceeded limit)
      | room + 1 =>
          (encodeView (h.encodeAt limit room) trail (h.view r)).run ((r, trail) :: seen) := by
  cases room with
  | zero =>
    simp [encodeAt, hl]
    rfl
  | succ room => simp [encodeAt, hl]

/-- A value is encoded in one of three ways: as it is taken, as a token, or as a
container with its slots encoded in order. -/
theorem encodeAt_cases {h : Heap X} {limit : UInt32} {room : Nat} {trail : Trail} {v : Value X}
    {seen seen' : Seen} {e : Encoded X}
    (hrun : (h.encodeAt limit room trail v).run seen = .ok (e, seen')) :
    (v.isContainer = false ∧ e = .leaf v.taken ∧ seen' = seen) ∨
    (∃ r first, v = .node r ∧ seen.lookup r = some first ∧ e = .token first.reverse ∧
      seen' = seen) ∨
    ∃ r room' docs, v = .node r ∧ seen.lookup r = none ∧ room = room' + 1 ∧
      ((h.view r).slots.mapM fun slot => h.encodeAt limit room' (slot.1 :: trail) slot.2).run
        ((r, trail) :: seen) = .ok (docs, seen') ∧ e = (h.view r).assemble docs := by
  cases hv : v.isContainer with
  | false =>
    rw [encodeAt_leaf hv, run_pure_eq_ok] at hrun
    exact .inl ⟨rfl, hrun.1.symm, hrun.2.symm⟩
  | true =>
    obtain ⟨r, rfl⟩ := Value.exists_eq_node hv
    cases hl : seen.lookup r with
    | some first =>
      rw [run_encodeAt_seen hl] at hrun
      cases hrun
      exact .inr (.inl ⟨r, first, rfl, hl, rfl, rfl⟩)
    | none =>
      rw [run_encodeAt_first hl] at hrun
      cases room with
      | zero => cases hrun
      | succ room =>
        simp only [encodeView_eq, run_bind_eq_ok, run_pure_eq_ok] at hrun
        obtain ⟨docs, seen₁, hdocs, rfl, rfl⟩ := hrun
        exact .inr (.inr ⟨r, room, docs, rfl, hl, rfl, hdocs, rfl⟩)

/-- A value that is no container takes no place. -/
private theorem entered_leaf {h k : Heap X} {seen : Seen} {trail : Trail} {room : Nat}
    {v : Value X} (hseen : Distinct seen) (hv : v.isContainer = false) :
    h.Entered k seen trail room v [] k seen v.taken where
  walk := .nil h k seen
  distinct := hseen
  stands := .leaf hv
  below := by simp
  grown := by simp [Grown]

/-- A token takes no place. -/
private theorem entered_again {h k : Heap X} {seen : Seen} {trail first : Trail} {room : Nat}
    {r : Ref} (hseen : Distinct seen) (hfree : Unvisited seen trail)
    (hmem : (r, first) ∈ seen) :
    h.Entered k seen trail room (.node r) [] (k.allocate (tokenCell first)).2 seen
      (.node k.size) where
  walk :=
    { seen_eq := rfl
      within := within_allocate k _
      targets := by simp
      targets_nodup := by simp
      images := by simp }
  distinct := hseen
  stands := by
    refine .again hmem ?_ (cell?_allocate_self k _)
    intro heq
    subst heq
    exact hfree _ hmem (List.suffix_refl _)
  below := by simp
  grown := by simp [Grown]

/-- A container met first takes a place above those of its slots. -/
private theorem entered_first {h k k₁ : Heap X} {seen seen' : Seen} {trail : Trail} {room : Nat}
    {r : Ref} {places : List Place} {us : List (Value X)}
    (c : h.Crossed k ((r, trail) :: seen) trail room (h.view r).slots places k₁ seen' us) :
    h.Entered k seen trail (room + 1) (.node r) (places ++ [⟨r, trail, k₁.size⟩])
      (k₁.allocate ((h.view r).fill us)).2 seen' (.node k₁.size) where
  walk :=
    { seen_eq := by
        rw [c.walk.seen_eq]
        simp [Place.visit]
      within := c.walk.within.trans (within_allocate k₁ _)
      targets := by
        intro p hp
        rw [size_allocate]
        rcases List.mem_append.1 hp with hp | hp
        · obtain ⟨hlow, hhigh⟩ := c.walk.targets p hp
          exact ⟨hlow, Nat.lt_succ_of_lt hhigh⟩
        · obtain rfl := List.mem_singleton.1 hp
          exact ⟨c.walk.within.size_le, Nat.lt_succ_self _⟩
      targets_nodup := by
        rw [List.map_append, List.nodup_append]
        refine ⟨c.walk.targets_nodup, by simp, ?_⟩
        rintro a ha b hb rfl
        obtain ⟨p, hp, rfl⟩ := List.mem_map.1 ha
        rw [List.map_singleton, List.mem_singleton] at hb
        exact Nat.lt_irrefl _ (hb ▸ (c.walk.targets p hp).2)
      images := by
        intro p hp
        rcases List.mem_append.1 hp with hp | hp
        · exact (c.walk.images p hp).mono (within_allocate k₁ _)
            (List.subset_append_left _ _) (List.Subset.refl _)
        · obtain rfl := List.mem_singleton.1 hp
          refine Fills.of_forall₂ (cell?_allocate_self k₁ _) (c.stands.imp fun _ _ hst => ?_)
          exact hst.mono (within_allocate k₁ _) (List.subset_append_left _ _)
            (List.Subset.refl _) }
  distinct := c.distinct
  stands := .first (by simp)
  below := by
    intro p hp
    rcases List.mem_append.1 hp with hp | hp
    · obtain ⟨⟨slot, _, hsuf⟩, hlen⟩ := c.below p hp
      exact ⟨(List.suffix_cons _ _).trans hsuf, by omega⟩
    · obtain rfl := List.mem_singleton.1 hp
      exact ⟨List.suffix_refl _, by simp⟩
  grown := by
    intro p hp
    rcases List.mem_append.1 hp with hp | hp
    · rcases c.grown p hp with ⟨slot, hslot, htrail, hval⟩ | ⟨p', hp', hin⟩
      · exact .inr ⟨⟨r, trail, k₁.size⟩, by simp, slot.1, htrail, hval ▸ hslot⟩
      · exact .inr ⟨p', List.mem_append_left _ hp', hin⟩
    · obtain rfl := List.mem_singleton.1 hp
      exact .inl ⟨rfl, rfl⟩

/-- The slots of a container met first are free to walk. -/
private theorem unvisited_slot {seen : Seen} {trail : Trail} {r : Ref}
    (hfree : Unvisited seen trail) (s : Step) : Unvisited ((r, trail) :: seen) (s :: trail) := by
  intro visit hvisit hsuf
  rcases List.mem_cons.1 hvisit with rfl | hvisit
  · have hlength : (s :: trail).length ≤ trail.length := hsuf.length_le
    rw [List.length_cons] at hlength
    omega
  · exact hfree visit hvisit ((List.suffix_cons _ _).trans hsuf)

private theorem distinct_cons {seen : Seen} {trail : Trail} {r : Ref} (hseen : Distinct seen)
    (hfree : Unvisited seen trail) (hl : seen.lookup r = none) :
    Distinct ((r, trail) :: seen) where
  sources_nodup := by
    rw [List.map_cons, List.nodup_cons]
    exact ⟨lookup_eq_none_notMem hl, hseen.sources_nodup⟩
  trails_nodup := by
    rw [List.map_cons, List.nodup_cons]
    refine ⟨?_, hseen.trails_nodup⟩
    intro hmem
    obtain ⟨visit, hvisit, heq⟩ := List.mem_map.1 hmem
    exact hfree visit hvisit (heq ▸ List.suffix_refl _)

/-- The walk does what it should with every number of levels left. -/
theorem encodes_encodeAt (h : Heap X) (limit : UInt32) (room : Nat) :
    h.Encodes room (h.encodeAt limit room) := by
  induction room using Nat.strongRecOn with
  | ind room ih =>
    intro trail v seen e seen' k hnames hseen hfree hrun
    rcases encodeAt_cases hrun with ⟨hv, rfl, rfl⟩ | ⟨r, first, rfl, hl, rfl, rfl⟩ |
      ⟨r, room, docs, rfl, hl, rfl, hdocs, rfl⟩
    · exact ⟨[], entered_leaf hseen hv⟩
    · rw [plant_token]
      exact ⟨[], entered_again hseen hfree (lookup_eq_some_mem hl)⟩
    · have hhere : (h.view r).names.Nodup := hnames r (.root rfl)
      obtain ⟨places, c⟩ := crossed_of_run (ih room (Nat.lt_succ_self _)) trail (h.view r).slots
        ((r, trail) :: seen) docs seen' k
        (fun slot hslot s hs => hnames s
          (Reaches.of_value (.root rfl) (View.mem_values_of_mem_slots hslot) hs))
        (View.nodup_steps hhere) (distinct_cons hseen hfree hl)
        (fun slot _ => unvisited_slot hfree slot.1) hdocs
      have hlen : docs.length = (h.view r).slots.length := by
        rw [← length_plantItems docs k, c.stands.length_eq]
      rw [plant_assemble hhere hlen]
      exact ⟨_, entered_first c⟩

/-- A graph whose encoding succeeds was walked from its root, and every place
is fewer than `limit` steps below the root. -/
theorem encoded_walk {h k : Heap X} {limit : UInt32} {root t : Value X}
    (hnames : ∀ r, h.Reaches root r → (h.view r).names.Nodup)
    (henc : h.encoded limit root = .ok (t, k)) :
    ∃ places seen, h.Entered h [] [] limit.toNat root places k seen t := by
  unfold encoded encode at henc
  cases hrun : (h.encodeAt limit limit.toNat [] root).run [] with
  | error e =>
    rw [hrun] at henc
    cases henc
  | ok result =>
    obtain ⟨e, seen⟩ := result
    rw [hrun] at henc
    obtain ⟨places, entered⟩ := encodes_encodeAt h limit limit.toNat [] root [] e seen h hnames
      ⟨by simp, by simp⟩ (by simp [Unvisited]) hrun
    simp only [Except.map, Except.ok.injEq] at henc
    rw [henc] at entered
    exact ⟨places, seen, entered⟩

/-! ## Walks from the root -/

/-- What stands for a container at the place of its first visit is its new
container. -/
theorem Stands.eq_target {k : Heap X} {places : List Place}
    (hinj : ∀ p ∈ places, ∀ p' ∈ places, p.source = p'.source → p = p') {p : Place}
    (hp : p ∈ places) {u : Value X}
    (h : k.Stands places (places.map Place.visit) p.trail (.node p.source) u) :
    u = .node p.target := by
  generalize hv : Value.node p.source = v at h
  cases h with
  | leaf hleaf =>
    subst hv
    cases hleaf
  | first hmem => rw [hinj p hp _ hmem (Value.node.inj hv)]
  | again hseen hne _ =>
    obtain ⟨p', hp', hvisit⟩ := List.mem_map.1 hseen
    simp only [Place.visit, Prod.mk.injEq] at hvisit
    obtain rfl := hinj p hp p' hp' ((Value.node.inj hv).trans hvisit.1.symm)
    exact absurd hvisit.2.symm hne

/-- A trail one step longer leads one step further. -/
theorem resolve_cons {k : Heap X} {t v : Value X} {trail : Trail} (step : Step)
    (h : k.resolve t trail.reverse = some v) :
    k.resolve t (step :: trail).reverse = k.step? v step := by
  rw [List.reverse_cons]
  simp only [resolve] at h ⊢
  rw [List.foldlM_append, h]
  simp

/-- The trail of each place leads to its new container if the step to a place inside
another leads to the new container there. -/
theorem Grown.resolve_trail {h k : Heap X} {places : List Place} {t : Value X}
    (hg : h.Grown places fun p => p.trail = [] ∧ t = .node p.target)
    (hstep : ∀ p ∈ places, ∀ p' ∈ places, ∀ step, p'.trail = step :: p.trail →
      (step, .node p'.source) ∈ (h.view p.source).slots →
        k.step? (.node p.target) step = some (.node p'.target)) :
    ∀ p ∈ places, k.resolve t p.trail.reverse = some (.node p.target) := by
  refine hg.induct (motive := fun p => k.resolve t p.trail.reverse = some (.node p.target)) ?_ ?_
  · intro p _ hroot
    obtain ⟨htrail, rfl⟩ := hroot
    rw [htrail]
    rfl
  · intro p hp p' hp' hin ih
    obtain ⟨step, htrail, hslot⟩ := hin
    rw [htrail, resolve_cons step ih, hstep p hp p' hp' step htrail hslot]

section Root

variable {h k₀ k : Heap X} {x t : Value X} {room : Nat} {places : List Place} {seen : Seen}

/-- The walk makes places of reached containers only. -/
theorem Entered.reaches (E : h.Entered k₀ [] [] room x places k seen t) :
    ∀ p ∈ places, h.Reaches x p.source := by
  refine E.grown.induct (motive := fun p => h.Reaches x p.source) ?_ ?_
  · intro p _ hin
    obtain ⟨_, hx⟩ := hin
    exact .root hx
  · intro p _ p' _ hin ih
    obtain ⟨step, _, hslot⟩ := hin
    exact .step ih (View.mem_values_of_mem_slots hslot)

theorem Entered.seen_eq (E : h.Entered k₀ [] [] room x places k seen t) :
    seen = places.map Place.visit := by
  rw [E.walk.seen_eq, List.append_nil]

/-- No container has two places. -/
theorem Entered.source_inj (E : h.Entered k₀ [] [] room x places k seen t) :
    ∀ p ∈ places, ∀ p' ∈ places, p.source = p'.source → p = p' := by
  intro p hp p' hp'
  have hnodup := E.distinct.sources_nodup
  rw [E.seen_eq, List.map_map] at hnodup
  exact List.inj_on_of_nodup_map hnodup hp hp'

/-- No trail has two places. -/
theorem Entered.trail_inj (E : h.Entered k₀ [] [] room x places k seen t) :
    ∀ p ∈ places, ∀ p' ∈ places, p.trail = p'.trail → p = p' := by
  intro p hp p' hp'
  have hnodup := E.distinct.trails_nodup
  rw [E.seen_eq, List.map_map] at hnodup
  exact List.inj_on_of_nodup_map hnodup hp hp'

/-- A container at the root has its place there, and the walk returns its new
container. -/
theorem Entered.target_eq (E : h.Entered k₀ [] [] room x places k seen t) {p : Place}
    (hp : p ∈ places) (htrail : p.trail = []) (hx : x = .node p.source) :
    t = .node p.target := by
  have hst := E.stands
  rw [E.seen_eq, hx, ← htrail] at hst
  exact hst.eq_target E.source_inj hp

/-- The root container has its place. -/
theorem Entered.root_place (E : h.Entered k₀ [] [] room x places k seen t)
    (hx : x.isContainer = true) : ∃ p ∈ places, p.trail = [] ∧ x = .node p.source := by
  have hany : ∃ p, p ∈ places := by
    have hst := E.stands
    rw [E.seen_eq] at hst
    cases hst with
    | leaf hleaf => simp [hx] at hleaf
    | first hmem => exact ⟨_, hmem⟩
    | again hseen _ _ =>
      obtain ⟨p, hp, _⟩ := List.mem_map.1 hseen
      exact ⟨p, hp⟩
  obtain ⟨p, hp⟩ := hany
  refine E.grown.induct
    (motive := fun _ => ∃ p ∈ places, p.trail = [] ∧ x = .node p.source) ?_ ?_ p hp
  · intro p hp hstart
    exact ⟨p, hp, hstart⟩
  · intro _ _ _ _ _ ih
    exact ih

end Root

end Heap

end TypeDescription
