import TypeDescription.Proofs.Graph.Persisted

/-!
# Encoding a graph and the graph read back

The encoder walks a graph and the graph read back side by side: it first comes to
a container at the same position in both, and in the second it also comes to the
empty objects that stand for regular expressions.  `Mirrored` relates the two
records.  `PersistsAt` says what the walk of one value does and `Replays` what the
walk of slots gives; `Persistable.persistsAt` says that every walk does so.

`Persistable.run_encodeAt` is the result: the tree of the graph read back is what
persists of the tree of the graph.  The walk needs one level more, since a
regular expression is no container and an empty object is one.
-/

namespace TypeDescription

variable {X : Type}

namespace Heap

/-! ## Two walks side by side -/

/-- The records of two walks side by side, one of a graph and one of the graph read back:
they agree on the containers of the graph, and a regular expression was met in entered
containers only. -/
structure Mirrored (h : Heap X) (seen seen' : Seen) : Prop where
  old : ∀ s, s < h.size → seen'.lookup s = seen.lookup s
  new : ∀ s j, s < h.size → j < h.width → s ∉ seen.map Prod.fst →
    seen'.lookup (h.patternRef s j) = none

/-- Two walks that went on side by side.  In the containers entered before, they met
regular expressions at some positions only. -/
structure Advances (h : Heap X) (only : Ref → Nat → Prop) (seen seen' seen₁ seen₁' : Seen) :
    Prop where
  mirrored : h.Mirrored seen₁ seen₁'
  grows : seen.map Prod.fst ⊆ seen₁.map Prod.fst
  kept : ∀ s j, s < h.size → j < h.width → s ∈ seen.map Prod.fst → ¬ only s j →
    seen₁'.lookup (h.patternRef s j) = seen'.lookup (h.patternRef s j)

theorem Advances.refl {h : Heap X} {only : Ref → Nat → Prop} {seen seen' : Seen}
    (hseen : h.Mirrored seen seen') : h.Advances only seen seen' seen seen' :=
  ⟨hseen, List.Subset.refl _, fun _ _ _ _ _ _ => rfl⟩

theorem Advances.trans {h : Heap X} {only only₁ only₂ : Ref → Nat → Prop}
    {seen seen' seen₁ seen₁' seen₂ seen₂' : Seen} (h₁ : h.Advances only₁ seen seen' seen₁ seen₁')
    (h₂ : h.Advances only₂ seen₁ seen₁' seen₂ seen₂') (honly₁ : ∀ s j, only₁ s j → only s j)
    (honly₂ : ∀ s j, only₂ s j → only s j) : h.Advances only seen seen' seen₂ seen₂' where
  mirrored := h₂.mirrored
  grows := List.Subset.trans h₁.grows h₂.grows
  kept s j hs hj hmem hno := by
    rw [h₂.kept s j hs hj (h₁.grows hmem) fun hs => hno (honly₂ s j hs),
      h₁.kept s j hs hj hmem fun hs => hno (honly₁ s j hs)]

/-- A value that persists is encoded as a tree, and what does not persist is not
encoded. -/
inductive Reproduces (h : Heap X) (limit : UInt32) (room : Nat) (trail : Trail) (seen' : Seen) :
    Option (Value X) → Option (Encoded X) → Seen → Prop
  | absent : Reproduces h limit room trail seen' none none seen'
  | present {w : Value X} {e : Encoded X} {seen₁' : Seen} :
      (h.persisted.encodeAt limit room trail w).run seen' = .ok (e, seen₁') →
        Reproduces h limit room trail seen' (some w) (some e) seen₁'

/-- Where nothing persists in a list, null is encoded. -/
theorem Reproduces.orElse {h : Heap X} {limit : UInt32} {room : Nat} {trail : Trail}
    {seen' seen₁' : Seen} {w : Option (Value X)} {e : Option (Encoded X)} (view : View X)
    (hw : h.Reproduces limit room trail seen' w e seen₁') :
    h.Reproduces limit room trail seen' (view.orElse .null w) (view.orElse (.leaf .null) e)
      seen₁' := by
  cases view with
  | named fields => exact hw
  | list items =>
    cases hw with
    | absent =>
      refine .present ?_
      rw [Option.getD_none, encodeAt_leaf rfl]
      rfl
    | present hrun => exact .present hrun

/-- What the walk of a value at a position of a container does in the graph read back,
with one level more. -/
def PersistsAt (h : Heap X) (limit : UInt32) (room : Nat) (trail : Trail) (r : Ref) (i : Nat)
    (v : Value X) : Prop :=
  ∀ seen seen' e seen₁, h.Mirrored seen seen' → (r < h.size → r ∈ seen.map Prod.fst) →
    seen'.lookup (h.patternRef r i) = none →
      (h.encodeAt limit room trail v).run seen = .ok (e, seen₁) →
        ∃ seen₁', h.Advances (fun s j => s = r ∧ j = i) seen seen' seen₁ seen₁' ∧
          h.Reproduces limit (room + 1) trail seen' (h.persistValue r i v) e.persist seen₁'

section Slots

variable {h : Heap X} {limit : UInt32} {room : Nat} {trail : Trail} {r : Ref}

theorem persistSlots_cons (view : View X) (start : Nat) (slot : Step × Value X)
    (slots : List (Step × Value X)) :
    h.persistSlots view r start (slot :: slots) =
      match view.orElse .null (h.persistValue r start slot.2) with
      | some value => (slot.1, value) :: h.persistSlots view r (start + 1) slots
      | none => h.persistSlots view r (start + 1) slots := by
  simp only [persistSlots, List.zipIdx_cons, List.filterMap_cons]
  cases view.orElse .null (h.persistValue r start slot.2) <;> rfl

/-- The trees of the slots of a container, read back. -/
def persistDocs (view : View X) (docs : List (Encoded X)) : List (Encoded X) :=
  docs.filterMap fun doc => view.orElse (.leaf .null) doc.persist

/-- The names in a container and the trees there, read back. -/
def persistNamed (view : View X) (named : List (String × Encoded X)) :
    List (String × Encoded X) :=
  named.filterMap fun field =>
    (view.orElse (.leaf .null) field.2.persist).map fun doc => (field.1, doc)

/-- The walk of slots of a container in the graph read back gives the trees of the slots
read back, and leaves out the same slots. -/
structure Replays (h : Heap X) (limit : UInt32) (room : Nat) (trail : Trail) (view : View X)
    (r : Ref) (start : Nat) (slots : List (Step × Value X)) (docs : List (Encoded X))
    (seen' seen₁' : Seen) : Prop where
  run : ((h.persistSlots view r start slots).mapM fun slot =>
    h.persisted.encodeAt limit room (slot.1 :: trail) slot.2).run seen' =
      .ok (persistDocs view docs, seen₁')
  named : ((h.persistSlots view r start slots).map fun slot => slot.1.name).zip
      (persistDocs view docs) =
    persistNamed view ((slots.map fun slot => slot.1.name).zip docs)

theorem Replays.nil (view : View X) (start : Nat) (seen' : Seen) :
    h.Replays limit room trail view r start [] [] seen' seen' :=
  ⟨rfl, rfl⟩

theorem Replays.cons {view : View X} {start : Nat} {slot : Step × Value X}
    {slots : List (Step × Value X)} {e : Encoded X} {docs : List (Encoded X)}
    {seen' seen₂' seen₁' : Seen}
    (hhead : h.Reproduces limit room (slot.1 :: trail) seen' (h.persistValue r start slot.2)
      e.persist seen₂')
    (htail : h.Replays limit room trail view r (start + 1) slots docs seen₂' seen₁') :
    h.Replays limit room trail view r start (slot :: slots) (e :: docs) seen' seen₁' := by
  obtain ⟨hrun, hnamed⟩ := htail
  have hhead' := hhead.orElse view
  simp only [persistDocs, persistNamed] at hrun hnamed
  generalize hw : view.orElse .null (h.persistValue r start slot.2) = w at hhead'
  generalize he : view.orElse (.leaf .null) e.persist = e' at hhead'
  constructor
  · simp only [persistSlots_cons, persistDocs, List.filterMap_cons, hw, he]
    cases hhead' with
    | absent => exact hrun
    | present hfirst =>
      rw [List.mapM_cons, run_bind_eq_ok]
      refine ⟨_, seen₂', hfirst, ?_⟩
      rw [run_bind_eq_ok]
      exact ⟨_, seen₁', hrun, rfl⟩
  · simp only [persistSlots_cons, persistDocs, persistNamed, List.filterMap_cons, List.map_cons,
      List.zip_cons_cons, hw, he]
    cases hhead' with
    | absent => exact hnamed
    | present _ => exact congrArg _ hnamed

/-- What the walk of the slots of a container does in the graph read back. -/
theorem persist_slots (view : View X) (hr : r < h.size) {slots : List (Step × Value X)}
    (start : Nat) (hwidth : start + slots.length ≤ h.width)
    (hslots : ∀ n slot, slots[n]? = some slot →
      h.PersistsAt limit room (slot.1 :: trail) r (start + n) slot.2)
    {seen seen' seen₁ : Seen} {docs : List (Encoded X)} (hseen : h.Mirrored seen seen')
    (hentered : r ∈ seen.map Prod.fst)
    (hfree : ∀ j, start ≤ j → j < h.width → seen'.lookup (h.patternRef r j) = none)
    (hrun : (slots.mapM fun slot => h.encodeAt limit room (slot.1 :: trail) slot.2).run seen =
      .ok (docs, seen₁)) :
    ∃ seen₁', h.Advances (fun s _ => s = r) seen seen' seen₁ seen₁' ∧
      h.Replays limit (room + 1) trail view r start slots docs seen' seen₁' := by
  induction slots generalizing start seen seen' docs with
  | nil =>
    obtain ⟨rfl, rfl⟩ := run_mapM_nil_eq_ok hrun
    exact ⟨seen', .refl hseen, .nil view start seen'⟩
  | cons slot slots ih =>
    obtain ⟨e, seen₂, docs, hhead, htail, rfl⟩ := run_mapM_cons_eq_ok hrun
    rw [List.length_cons] at hwidth
    have hlt : start < h.width := by omega
    obtain ⟨seen₂', hadv, hrep⟩ := hslots 0 slot rfl seen seen' e seen₂ hseen (fun _ => hentered)
      (hfree start (Nat.le_refl _) hlt) hhead
    -- the head met a regular expression at its own position only
    have hfree₂ : ∀ j, start + 1 ≤ j → j < h.width → seen₂'.lookup (h.patternRef r j) = none := by
      intro j hle hj
      rw [hadv.kept r j hr hj hentered fun heq => by omega]
      exact hfree j (by omega) hj
    have hslots₂ : ∀ n slot, slots[n]? = some slot →
        h.PersistsAt limit room (slot.1 :: trail) r (start + 1 + n) slot.2 := by
      intro n slot hslot
      rw [Nat.add_assoc, Nat.add_comm 1 n]
      exact hslots (n + 1) slot hslot
    obtain ⟨seen₁', hadv', hreplays⟩ := ih (start + 1) (by omega) hslots₂ hadv.mirrored
      (hadv.grows hentered) hfree₂ htail
    exact ⟨seen₁', hadv.trans hadv' (fun s j heq => heq.1) fun s j heq => heq, .cons hrep hreplays⟩

/-- The tree of a container, read back, is assembled from the trees that persist. -/
theorem Replays.persist_assemble {view : View X} {docs : List (Encoded X)} {seen' seen₁' : Seen}
    (hreplays : h.Replays limit room trail view r 0 view.slots docs seen' seen₁')
    (hnames : view.names.Nodup) (hlen : docs.length = view.slots.length) :
    (view.assemble docs).persist =
      some ((h.persistView r view).assemble (persistDocs view docs)) := by
  have hnamed := hreplays.named
  rw [← slots_persistView] at hnamed
  cases view with
  | list items =>
    rw [View.assemble, Document.persist, Document.persistItems_eq]
    simp [View.orElse, persistView, View.assemble, persistDocs]
  | named fields =>
    obtain ⟨hassemble, hkeys, -⟩ := View.assemble_named hnames hlen
    have hnodup : (((fields.map Prod.fst).zip docs).map Prod.fst).Nodup := by
      rw [hkeys]
      exact hnames
    simp only [persistView, View.slots, List.map_map, Function.comp_def, Step.name, persistNamed,
      View.orElse] at hnamed
    rw [hassemble, Document.persist, Document.persistFields_eq]
    simp only [persistView, View.assemble]
    rw [hnamed,
      Document.ofFields_of_nodup (.sublist (keys_filterMap_sublist Prod.fst _ _) hnodup)]

end Slots

/-- A regular expression is encoded as an empty object in the graph read back. -/
theorem run_encodeAt_pattern {h : Heap X} {limit : UInt32} {room : Nat} {trail : Trail} {r : Ref}
    {i : Nat} {seen' : Seen} (hr : r ≤ h.size) (hi : i < h.width)
    (hfree : seen'.lookup (h.patternRef r i) = none) :
    (h.persisted.encodeAt limit (room + 1) trail (.node (h.patternRef r i))).run seen' =
      .ok (.object [], (h.patternRef r i, trail) :: seen') := by
  rw [run_encodeAt_first hfree]
  simp only [view_patternRef hr hi]
  rfl

/-- What the walk of a value that is no container does in the graph read back. -/
theorem persistsAt_leaf {h : Heap X} {limit : UInt32} {room : Nat} {trail : Trail} {r : Ref}
    {i : Nat} {v : Value X} (hr : r ≤ h.size) (hi : i < h.width) (hv : v.isContainer = false)
    (hplain : v.exempt? = none) : h.PersistsAt limit room trail r i v := by
  intro seen seen' e seen₁ hseen hentered hfree hrun
  rw [encodeAt_leaf hv, run_pure_eq_ok] at hrun
  obtain ⟨rfl, rfl⟩ := hrun
  rw [Value.taken_eq hplain, Document.persist]
  rcases Value.persist_cases hv hplain with rfl | ⟨source, flags, rfl⟩ | ⟨w, hw, hplain', hpersist⟩
  · exact ⟨seen', .refl hseen, .absent⟩
  · refine ⟨_, ⟨⟨fun s hs => ?_, fun s j hs hj hmem => ?_⟩, List.Subset.refl _,
      fun s j hs hj hmem hno => ?_⟩, .present (run_encodeAt_pattern hr hi hfree)⟩
    · rw [lookup_cons_of_ne (Nat.ne_of_lt (Nat.lt_of_lt_of_le hs size_le_patternRef))]
      exact hseen.old s hs
    · have hne : h.patternRef s j ≠ h.patternRef r i := by
        intro heq
        obtain ⟨rfl, rfl⟩ := patternRef_inj hj hi heq
        exact hmem (hentered hs)
      rw [lookup_cons_of_ne hne]
      exact hseen.new s j hs hj hmem
    · rw [lookup_cons_of_ne fun heq => hno (patternRef_inj hj hi heq)]
  · rw [persistValue, hpersist, hpersist]
    refine ⟨seen', .refl hseen, .present ?_⟩
    rw [id, encodeAt_leaf hw, Value.taken_eq hplain', run_pure_eq_ok]
    exact ⟨rfl, rfl⟩

/-! ## The whole walk -/

/-- What the walk of a container that was not met before does in the graph read back, if
that of each of its slots does. -/
theorem persistsAt_first {h : Heap X} {limit : UInt32} {room : Nat} {trail : Trail} {r s : Ref}
    {i : Nat} {seen seen' seen₁ : Seen} {docs : List (Encoded X)} (hs : s < h.size)
    (hnames : (h.view s).names.Nodup)
    (hslots : ∀ n slot, (h.view s).slots[n]? = some slot →
      h.PersistsAt limit room (slot.1 :: trail) s n slot.2)
    (hseen : h.Mirrored seen seen') (hl : seen.lookup s = none)
    (hdocs : ((h.view s).slots.mapM fun slot => h.encodeAt limit room (slot.1 :: trail) slot.2).run
      ((s, trail) :: seen) = .ok (docs, seen₁)) :
    ∃ seen₁', h.Advances (fun s j => s = r ∧ j = i) seen seen' seen₁ seen₁' ∧
      h.Reproduces limit (room + 2) trail seen' (some (.node s)) ((h.view s).assemble docs).persist
        seen₁' := by
  have hold : ∀ q j, h.patternRef q j ≠ s := fun q j =>
    Nat.ne_of_gt (Nat.lt_of_lt_of_le hs size_le_patternRef)
  have hmirrored : h.Mirrored ((s, trail) :: seen) ((s, trail) :: seen') := by
    refine ⟨fun q hq => ?_, fun q j hq hj hmem => ?_⟩
    · rw [List.lookup_cons, List.lookup_cons, hseen.old q hq]
    · rw [lookup_cons_of_ne (hold q j)]
      exact hseen.new q j hq hj fun hin => hmem (List.mem_cons_of_mem _ hin)
  obtain ⟨seen₁', hadv, hreplays⟩ :=
    persist_slots (h.view s) hs 0
      (by rw [Nat.zero_add]; exact Nat.le_of_lt length_slots_lt_width)
      (fun n slot hslot => by rw [Nat.zero_add]; exact hslots n slot hslot) hmirrored
      List.mem_cons_self
      (fun j _ hj => by
        rw [lookup_cons_of_ne (hold s j)]
        exact hseen.new s j hs hj (lookup_eq_none_notMem hl)) hdocs
  have hrun' := hreplays.run
  rw [← slots_persistView] at hrun'
  refine ⟨seen₁', ⟨hadv.mirrored, fun q hq => hadv.grows (List.mem_cons_of_mem _ hq),
    fun q j hq hj hmem _ => ?_⟩, ?_⟩
  · have hne : q ≠ s := by
      rintro rfl
      exact lookup_eq_none_notMem hl hmem
    rw [hadv.kept q j hq hj (List.mem_cons_of_mem _ hmem) hne, lookup_cons_of_ne (hold q j)]
  · have hlen : docs.length = (h.view s).slots.length := (forall₂_of_run_mapM hdocs).length_eq.symm
    rw [hreplays.persist_assemble hnames hlen]
    refine .present ?_
    have hl' : seen'.lookup s = none := by rw [hseen.old s hs, hl]
    rw [run_encodeAt_first hl']
    simp only [view_persisted hs hnames, encodeView_eq, run_bind_eq_ok]
    exact ⟨_, seen₁', hrun', rfl⟩

/-- What the walk of a graph does in the graph read back. -/
theorem Persistable.persistsAt {h : Heap X} {x : Value X} (hx : h.Persistable x) (limit : UInt32)
    (room : Nat) (trail : Trail) {r : Ref} {i : Nat} {v : Value X} (hv : h.Occurs x v)
    (hr : r ≤ h.size) (hi : i < h.width) : h.PersistsAt limit room trail r i v := by
  induction room using Nat.strongRecOn generalizing trail r i v with
  | ind room ih =>
    intro seen seen' e seen₁ hseen hentered hfree hrun
    rcases encodeAt_cases hrun with ⟨hleaf, rfl, rfl⟩ | ⟨s, first, rfl, hl, rfl, rfl⟩ |
      ⟨s, room, docs, rfl, hl, rfl, hdocs, rfl⟩
    · exact persistsAt_leaf hr hi hleaf (hx.plain v hv) _ _ _ _ hseen hentered hfree hrun
    · have hl' : seen'.lookup s = some first := by rw [hseen.old s (hx.closed.lt hv), hl]
      exact ⟨seen', .refl hseen, .present (run_encodeAt_seen hl')⟩
    · have hs := hx.closed.lt hv
      refine persistsAt_first hs (hx.keys.names_nodup hv.reaches) (fun n slot hslot => ?_) hseen hl
        hdocs
      exact ih room (Nat.lt_succ_self _) (slot.1 :: trail)
        (.slot hv.reaches (List.mem_of_getElem? hslot)) (Nat.le_of_lt hs)
        (Nat.lt_trans (List.getElem?_eq_some_iff.1 hslot).1 length_slots_lt_width)

/-- What is read back of the tree of a graph is the tree of the graph read back.  Its walk
first comes to a container where the walk of the graph does. -/
theorem Persistable.run_encodeAt {h : Heap X} {x : Value X} (hx : h.Persistable x) {limit : UInt32}
    {e : Encoded X} {seen : Seen}
    (hrun : (h.encodeAt limit limit.toNat [] x).run [] = .ok (e, seen)) :
    ∃ seen', (h.persisted.encodeAt limit (limit.toNat + 1) [] (h.persistedRoot x)).run [] =
        .ok (e.persist.getD (.leaf .null), seen') ∧
      ∀ r, r < h.size → seen'.lookup r = seen.lookup r := by
  obtain ⟨seen', hadv, hrep⟩ := hx.persistsAt limit limit.toNat [] (.inl rfl) (Nat.le_refl _)
    (Nat.succ_pos _) [] [] e seen ⟨fun _ _ => rfl, fun _ _ _ _ _ => rfl⟩
    (fun hlt => absurd hlt (Nat.lt_irrefl _)) rfl hrun
  -- at the root, as in a list, null stands for what is undefined
  have hroot := hrep.orElse (.list [])
  cases hroot with
  | present hrun' => exact ⟨seen', hrun', hadv.mirrored.old⟩

end Heap

end TypeDescription
