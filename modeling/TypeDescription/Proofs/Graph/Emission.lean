import TypeDescription.Proofs.Graph.Planting
import TypeDescription.Proofs.Graph.Tour

/-!
# What encoding emits

`Emitted` describes the graph that an encoder leaves, position by position
along the depth-first walk: a new container at the first position of a
container, a token at its other positions, and every other value as it is
taken.  `encoded_emits` is the main result; it also says when an encoder
succeeds.

The places of `Entered` are the first positions of the walk
(`Entered.firstVisit?_eq_some_iff`), so its invariant describes what stands at
every stop (`Entered.exists_stands`).
-/

namespace TypeDescription

variable {X : Type}

namespace Heap

/-! ## Encoded documents -/

/-- A value stands at the root, or in a container that the root reaches. -/
def Occurs (h : Heap X) (x v : Value X) : Prop :=
  v = x ∨ ∃ r, h.Reaches x r ∧ v ∈ (h.view r).values

theorem Occurs.of_slot {h : Heap X} {r : Ref} {slot : Step × Value X} {v : Value X}
    (hslot : slot ∈ (h.view r).slots) (hv : h.Occurs slot.2 v) : h.Occurs (.node r) v := by
  have hmem := View.mem_values_of_mem_slots hslot
  rcases hv with rfl | ⟨s, hs, hv⟩
  · exact .inr ⟨r, .root rfl, hmem⟩
  · exact .inr ⟨s, .of_value (.root rfl) hmem hs, hv⟩

theorem Occurs.reaches {h : Heap X} {x : Value X} {r : Ref} (hr : h.Occurs x (.node r)) :
    h.Reaches x r := by
  rcases hr with rfl | ⟨s, hs, hmem⟩
  · exact .root rfl
  · exact .step hs hmem

theorem Occurs.slot {h : Heap X} {x : Value X} {r : Ref} {slot : Step × Value X}
    (hr : h.Reaches x r) (hslot : slot ∈ (h.view r).slots) : h.Occurs x slot.2 :=
  .inr ⟨r, hr, View.mem_values_of_mem_slots hslot⟩

theorem tidy_assemble {P : Value X → Prop} {docs : List (Encoded X)}
    (hdocs : ∀ doc ∈ docs, doc.Tidy P) (view : View X) : (view.assemble docs).Tidy P := by
  cases view with
  | list items => exact .array hdocs
  | named fields =>
    rw [View.assemble, Document.ofFields_eq]
    refine .object (Table.ofList _).keys_nodup fun doc hdoc => hdocs doc ?_
    obtain ⟨field, hfield, rfl⟩ := List.mem_map.1 (Table.values_ofList_subset _ hdoc)
    exact (List.of_mem_zip hfield).2

/-- The leaves of an encoded graph are the values taken from it and the texts of
tokens. -/
theorem tidy_of_run_encodeAt {h : Heap X} {limit : UInt32} {P : Value X → Prop}
    (hpath : ∀ s, P (.string s)) {room : Nat} {trail : Trail} {v : Value X} {seen seen' : Seen}
    {e : Encoded X} (hleaf : ∀ w, h.Occurs v w → w.isContainer = false → P w.taken)
    (hrun : (h.encodeAt limit room trail v).run seen = .ok (e, seen')) : e.Tidy P := by
  induction room using Nat.strongRecOn generalizing trail v seen seen' e with
  | ind room ih =>
    rcases encodeAt_cases hrun with ⟨hv, rfl, rfl⟩ | ⟨r, first, rfl, hl, rfl, rfl⟩ |
      ⟨r, room, docs, rfl, hl, rfl, hdocs, rfl⟩
    · exact .leaf (hleaf v (.inl rfl) hv)
    · refine .object (by simp) fun item hitem => ?_
      obtain rfl : item = .leaf (.string (Path.text first.reverse)) := by simpa using hitem
      exact .leaf (hpath _)
    · have hall := forall₂_of_run_mapM hdocs
      refine tidy_assemble (fun doc hdoc => ?_) (h.view r)
      obtain ⟨i, hi, rfl⟩ := List.getElem_of_mem hdoc
      have hi' : i < (h.view r).slots.length := hall.length_eq ▸ hi
      obtain ⟨u, u', hdoc⟩ := hall.get hi' hi
      have hslot : (h.view r).slots[i] ∈ (h.view r).slots := List.getElem_mem hi'
      exact ih room (Nat.lt_succ_self _) (fun w hw => hleaf w (.of_slot hslot hw)) hdoc

/-- Without exempt values the leaves are values of the graph. -/
theorem tidy_of_plain {h : Heap X} {limit : UInt32} {P : Value X → Prop}
    (hpath : ∀ s, P (.string s)) {room : Nat} {trail : Trail} {v : Value X} {seen seen' : Seen}
    {e : Encoded X} (hplain : ∀ w, h.Occurs v w → w.exempt? = none)
    (hleaf : ∀ w, h.Occurs v w → w.isContainer = false → P w)
    (hrun : (h.encodeAt limit room trail v).run seen = .ok (e, seen')) : e.Tidy P :=
  tidy_of_run_encodeAt hpath
    (fun w hw hcontainer => by
      rw [Value.taken_eq (hplain w hw)]
      exact hleaf w hw hcontainer) hrun

/-! ## Steps inside a filled container -/

section Fills

variable {k : Heap X} {q : Ref} {view : View X} {rel : Nat → Step × Value X → Value X → Prop}

/-- In the place of each slot stands the value to which the step of the slot leads. -/
theorem Fills.with_step? (h : k.Fills q view rel) (hnames : view.names.Nodup) :
    k.Fills q view fun i slot u => rel i slot u ∧ k.step? (.node q) slot.1 = some u := by
  obtain ⟨us, hcell, hlen, hall⟩ := h
  refine ⟨us, hcell, hlen, fun i slot u hslot hu => ⟨hall i slot u hslot hu, ?_⟩⟩
  have hindexed : k.Fills q view fun i slot u => view.slots[i]? = some slot ∧ us[i]? = some u :=
    ⟨us, hcell, hlen, fun i slot u hslot hu => ⟨hslot, hu⟩⟩
  obtain ⟨j, u', hstep, hslot', hu'⟩ := hindexed.step? hnames (List.mem_of_getElem? hslot)
  -- no step comes twice, so the slots are the same
  have hi : (view.slots.map Prod.fst)[i]? = some slot.1 := by simp [hslot]
  have hj : (view.slots.map Prod.fst)[j]? = some slot.1 := by simp [hslot']
  have hlt := (List.getElem?_eq_some_iff.1 hi).1
  have hij := (List.getElem?_inj hlt (View.nodup_steps hnames)).1 (hi.trans hj.symm)
  rw [hij, hu'] at hu
  rw [hstep, hu]

end Fills

/-! ## Positions in the encoded graph -/

section Emission

variable {h k₀ k : Heap X} {x t : Value X} {room : Nat} {places : List Place} {seen : Seen}
  {tour : List (Stop X)}

/-- The trail of a place leads to its new container. -/
theorem Entered.resolve_trail (E : h.Entered k₀ [] [] room x places k seen t)
    (hnames : ∀ r, h.Reaches x r → (h.view r).names.Nodup) :
    ∀ p ∈ places, k.resolve t p.trail.reverse = some (.node p.target) := by
  have hgrown : h.Grown places fun p => p.trail = [] ∧ t = .node p.target := by
    intro p hp
    rcases E.grown p hp with ⟨htrail, hx⟩ | hin
    · exact .inl ⟨htrail, E.target_eq hp htrail hx⟩
    · exact .inr hin
  refine hgrown.resolve_trail fun p hp p' hp' step htrail hslot => ?_
  obtain ⟨i, u, hstep, hst⟩ := (E.walk.images p hp).step? (hnames _ (E.reaches p hp)) hslot
  rw [E.seen_eq, ← htrail] at hst
  rw [hstep, hst.eq_target E.source_inj hp']

/-- The place of a container is where the walk first comes to it. -/
theorem Entered.firstVisit?_eq_some_iff (E : h.Entered k₀ [] [] room x places k seen t) {r : Ref}
    (hseen : seen.lookup r = firstVisit? tour r) {first : Trail} :
    firstVisit? tour r = some first ↔ ∃ p ∈ places, p.source = r ∧ p.trail = first := by
  rw [← hseen]
  constructor
  · intro hr
    have hmem := lookup_eq_some_mem hr
    rw [E.seen_eq] at hmem
    obtain ⟨p, hp, hvisit⟩ := List.mem_map.1 hmem
    exact ⟨p, hp, Prod.mk.inj hvisit⟩
  · rintro ⟨p, hp, rfl, rfl⟩
    exact lookup_of_mem E.distinct.sources_nodup (E.seen_eq ▸ List.mem_map_of_mem hp)

/-- At each position that the walk comes to, the new graph holds what stands for the
value there. -/
theorem Entered.exists_stands (E : h.Entered k₀ [] [] room x places k seen t)
    (hnames : ∀ r, h.Reaches x r → (h.view r).names.Nodup)
    (T : h.Tours [] [([], x)] tour) (hseen : ∀ r, seen.lookup r = firstVisit? tour r)
    {trail : Trail} {v : Value X} (hstop : (trail, v) ∈ tour) :
    ∃ u, k.resolve t trail.reverse = some u ∧ k.Stands places seen trail v u := by
  rcases T.origin hstop with hroot | ⟨r, first, _, hfirst, hin⟩
  · obtain ⟨rfl, rfl⟩ := Prod.mk.inj (List.mem_singleton.1 hroot)
    exact ⟨t, rfl, E.stands⟩
  · obtain ⟨p, hp, rfl, rfl⟩ := (E.firstVisit?_eq_some_iff (hseen r)).1 hfirst
    obtain ⟨slot, hslot, heq⟩ := List.mem_map.1 hin
    obtain ⟨rfl, rfl⟩ := Prod.mk.inj heq
    obtain ⟨i, u, hstep, hst⟩ := (E.walk.images p hp).step? (hnames _ (E.reaches p hp)) hslot
    refine ⟨u, ?_, hst⟩
    rw [resolve_cons _ (E.resolve_trail hnames p hp), hstep]

end Emission

/-! ## What the encoder emits -/

/-- No container that is missing from the heap is named in it. -/
structure Closed (h : Heap X) (x : Value X) : Prop where
  root : ∀ r, x.unwrap = .node r → r < h.size
  inside : ∀ r v, v ∈ h.slots r → ∀ s, v.unwrap = .node s → s < h.size

/-- The graph that an encoder leaves for a depth-first walk. -/
structure Emitted (h : Heap X) (tour : List (Stop X)) (k : Heap X) (t : Value X) : Prop where
  /-- No container of the graph is changed. -/
  kept : h.Within k
  /-- Where the walk first comes to a container stands a new array or object, with
  what is emitted for the values inside in their order. -/
  first : ∀ r first, firstVisit? tour r = some first →
    ∃ q, k.resolve t first.reverse = some (.node q) ∧ h.size ≤ q ∧
      k.Fills q (h.view r) fun _ slot u =>
        (slot.1 :: first, slot.2) ∈ tour ∧ k.resolve t (slot.1 :: first).reverse = some u
  /-- Where it comes to the container again stands a token, and the path in the token
  leads to what stands at the first position. -/
  again : ∀ r first trail, firstVisit? tour r = some first → (trail, .node r) ∈ tour →
    trail ≠ first → ∃ q q', k.resolve t trail.reverse = some (.node q) ∧
      k.cell? q = some (tokenCell first) ∧ k.resolve t first.reverse = some (.node q') ∧
        (Path.parse? (Path.text first.reverse)).bind (k.resolve t) = some (.node q')
  /-- An exempt value is emitted as the value behind the marker, a scalar as itself. -/
  leaf : ∀ trail v, (trail, v) ∈ tour → v.isContainer = false →
    k.resolve t trail.reverse = some v.taken
  /-- No new container stands at two positions. -/
  alone : ∀ a b q, h.size ≤ q → k.follow t a = some (.node q) → k.follow t b = some (.node q) →
    a = b

theorem Closed.lt {h : Heap X} {x : Value X} {r : Ref} (hx : h.Closed x)
    (hr : h.Occurs x (.node r)) : r < h.size := by
  rcases hr with heq | ⟨s, _, hmem⟩
  · exact hx.root r (heq ▸ rfl)
  · exact hx.inside s _ (values_view h s ▸ hmem) r rfl

/-- What an exempt value marks is a container of the heap, if any. -/
theorem Closed.taken_lt {h : Heap X} {x w : Value X} (hx : h.Closed x) (hw : h.Occurs x w)
    (hleaf : w.isContainer = false) : ∀ r, w.taken = .node r → r < h.size := by
  intro r htaken
  obtain rfl : w = .exempt (.node r) := by
    cases w <;> simp_all [Value.taken, Value.isContainer]
  rcases hw with rfl | ⟨s, _, hmem⟩
  · exact hx.root r rfl
  · exact hx.inside s _ (values_view h s ▸ hmem) r rfl

theorem Closed.sealed_of_within {h k : Heap X} {x : Value X} (hx : h.Closed x) (hk : h.Within k) :
    k.Sealed (· < h.size) := by
  intro r hr s hs
  rw [hk.slots hr] at hs
  exact hx.inside r _ hs s rfl

section Emission

variable {h k : Heap X} {x : Value X} {tour : List (Stop X)} {seen : Seen}

/-- What is planted for an encoded graph is emitted for its depth-first walk. -/
theorem emitted_of_run {limit : UInt32} {e : Encoded X} (hx : h.Closed x)
    (hkeys : h.DistinctKeys x) (T : h.Tours [] [([], x)] tour)
    (hseen : ∀ r, seen.lookup r = firstVisit? tour r)
    (hrun : (h.encodeAt limit limit.toNat [] x).run [] = .ok (e, seen)) :
    h.Emitted tour (plant e h).2 (plant e h).1 := by
  have hnames : ∀ r, h.Reaches x r → (h.view r).names.Nodup := fun r hr => hkeys.names_nodup hr
  obtain ⟨places, E⟩ := encodes_encodeAt h limit limit.toNat [] x [] e seen h hnames
    ⟨by simp, by simp⟩ (by simp [Unvisited]) hrun
  refine ⟨E.walk.within, ?_, ?_, ?_, ?_⟩
  · intro r first hfirst
    have hinside := T.inside_subset List.not_mem_nil hfirst
    obtain ⟨p, hp, rfl, rfl⟩ := (E.firstVisit?_eq_some_iff (hseen r)).1 hfirst
    have hresolve := E.resolve_trail hnames p hp
    have hfills := Fills.with_step? (E.walk.images p hp) (hnames _ (E.reaches p hp))
    refine ⟨p.target, hresolve, (E.walk.targets p hp).1, ?_⟩
    refine hfills.mono (fun _ hc => hc) fun i slot u hslot hrel => ⟨hinside ?_, ?_⟩
    · exact List.mem_map_of_mem (List.mem_of_getElem? hslot)
    · rw [resolve_cons _ hresolve, hrel.2]
  · intro r first trail hfirst hstop hne
    obtain ⟨u, hu, hst⟩ := E.exists_stands hnames T hseen hstop
    obtain ⟨p, hp, rfl, rfl⟩ := (E.firstVisit?_eq_some_iff (hseen r)).1 hfirst
    have hresolve := E.resolve_trail hnames p hp
    cases hst with
    | leaf hleaf => cases hleaf
    | first hmem => exact absurd (congrArg Place.trail (E.source_inj _ hmem p hp rfl)) hne
    | again hmem _ hcell =>
      obtain ⟨p', hp', hvisit⟩ := List.mem_map.1 (E.seen_eq ▸ hmem)
      simp only [Place.visit, Prod.mk.injEq] at hvisit
      obtain rfl := E.source_inj p' hp' p hp hvisit.1
      refine ⟨_, p'.target, hu, hvisit.2 ▸ hcell, hresolve, ?_⟩
      rw [Path.parse?_text]
      exact hresolve
  · intro trail v hstop hleaf
    obtain ⟨u, hu, hst⟩ := E.exists_stands hnames T hseen hstop
    cases hst with
    | leaf _ => exact hu
    | first _ => cases hleaf
    | again _ _ _ => cases hleaf
  · have htidy : e.Tidy fun v => ∀ r, v = .node r → r < h.size :=
      tidy_of_run_encodeAt (fun s r hr => by cases hr) (fun w => hx.taken_lt) hrun
    have hrooted := rooted_plant (hx.sealed_of_within E.walk.within) htidy h (.refl _)
    exact fun a b q hq ha hb => hrooted.once hq ha hb

end Emission

/-- A graph is encoded exactly if its depth-first walk first comes to every container
fewer than `limit` steps below the root; what is then emitted has each container once,
at the first position, and tokens for it at the others. -/
theorem encoded_emits (h : Heap X) (x : Value X) (limit : UInt32) (hx : h.Closed x)
    (hkeys : h.DistinctKeys x) :
    (∃ tour, h.Tours [] [([], x)] tour) ∧
      ∀ tour, h.Tours [] [([], x)] tour →
        ((∃ t k, h.encoded limit x = .ok (t, k)) ↔
          ∀ r first, firstVisit? tour r = some first → first.length < limit.toNat) ∧
        ∀ t k, h.encoded limit x = .ok (t, k) → h.Emitted tour k t := by
  refine ⟨exists_tours h [] _, fun tour T => ?_⟩
  unfold encoded encode
  rcases run_encodeAt_root limit T with
    ⟨hshallow, e, seen, hrun, hseen⟩ | ⟨⟨r, first, hfirst, hdeep⟩, hrun⟩
  · rw [hrun]
    refine ⟨⟨fun _ => hshallow, fun _ => ⟨_, _, rfl⟩⟩, fun t k hok => ?_⟩
    obtain ⟨rfl, rfl⟩ := Prod.mk.inj (Except.ok.inj hok)
    exact emitted_of_run hx hkeys T hseen hrun
  · rw [hrun]
    refine ⟨⟨fun hok => ?_, fun hshallow => ?_⟩, fun t k hok => by cases hok⟩
    · obtain ⟨t, k, hok⟩ := hok
      cases hok
    · exact absurd (hshallow r first hfirst) (Nat.not_lt_of_le hdeep)

/-- An array that holds a map twice, an exempt object and itself; the map holds the
array. -/
def knot : Heap Unit :=
  ⟨#[.array [.node 1, .exempt (.node 2), .node 1, .node 0], .map [(.bool true, .node 0)],
    .object Table.empty]⟩

theorem encoded_emits_knot :
    knot.Closed (.node 0) ∧ knot.DistinctKeys (.node 0) ∧
      ∃ tour t k, knot.Tours [] [([], .node 0)] tour ∧
        knot.encoded 2 (.node 0) = .ok (t, k) ∧ knot.Emitted tour k t := by
  have hclosed : knot.Closed (.node 0) := by
    refine ⟨fun r hr => ?_, fun r v hv s hs => ?_⟩
    · obtain rfl := Value.node.inj hr
      decide
    · rcases r with _ | _ | _ | r
      · obtain rfl | rfl | rfl | rfl : v = .node 1 ∨ v = .exempt (.node 2) ∨ v = .node 1 ∨
            v = .node 0 := by simpa [slots, knot, cell?, Cell.slots] using hv
        all_goals (cases hs; decide)
      · obtain rfl : v = .node 0 := by simpa [slots, knot, cell?, Cell.slots] using hv
        cases hs
        decide
      · simp [slots, knot, cell?, Cell.slots, Table.values, Table.empty] at hv
      · simp [slots, knot, cell?] at hv
  have hkeys : knot.DistinctKeys (.node 0) := by
    intro r entries _ hcell
    rcases r with _ | _ | _ | r <;> simp [knot, cell?] at hcell
    subst hcell
    decide +kernel
  have hok : (knot.encoded 2 (.node 0)).isOk = true := by decide +kernel
  obtain ⟨⟨tour, T⟩, hall⟩ := encoded_emits knot (.node 0) 2 hclosed hkeys
  cases henc : knot.encoded 2 (.node 0) with
  | error e => simp [henc, Except.isOk, Except.toBool] at hok
  | ok result => exact ⟨hclosed, hkeys, tour, result.1, result.2, T, rfl, (hall tour T).2 _ _ henc⟩

end Heap

end TypeDescription
