import TypeDescription.Proofs.Graph.Emission
import TypeDescription.Proofs.Literal.ReadBack

/-!
# What stands in a literal

The literal of a graph has a place for each stop of the depth-first walk.  Where the walk
first comes to a container stands what is written for it, where it comes to the container
again stands a token for that place, and an exempt container is written wherever the walk
comes to it (`Transcribes`).  Nothing else in the literal has something inside.

A literal is written exactly if no container at a stop lies too deep
(`toLiteral_ok_iff`).

Exempt containers are not walked.  It is asked of them that nothing but scalars is inside.
-/

namespace TypeDescription

namespace Heap

/-! ## The places of an encoded graph -/

/-- A graph that is encoded was walked, and its places are where the walk first comes to
the containers. -/
theorem exists_entered {X : Type} {h k : Heap X} {limit : UInt32} {x t : Value X}
    {tour : List (Stop X)} (hnames : ∀ r, h.Reaches x r → (h.view r).names.Nodup)
    (T : h.Tours [] [([], x)] tour) (henc : h.encoded limit x = .ok (t, k)) :
    ∃ places seen, h.Entered h [] [] limit.toNat x places k seen t ∧
      ∀ r, seen.lookup r = firstVisit? tour r := by
  unfold encoded encode at henc
  rcases run_encodeAt_root limit T with ⟨_, e, seen, hrun, hseen⟩ | ⟨_, hrun⟩
  · rw [hrun] at henc
    obtain ⟨rfl, rfl⟩ := Prod.mk.inj (Except.ok.inj henc)
    obtain ⟨places, E⟩ := encodes_encodeAt h limit limit.toNat [] x [] e seen h hnames
      ⟨by simp, by simp⟩ (by simp [Unvisited]) hrun
    exact ⟨places, seen, E, hseen⟩
  · rw [hrun] at henc
    cases henc

/-- A slot of a filled container is one of the view. -/
theorem Fills.exists_slot {X : Type} {k : Heap X} {q : Ref} {view : View X}
    {rel : Nat → Step × Value X → Value X → Prop} (h : k.Fills q view rel)
    (hnames : view.names.Nodup) {step : Step} {u : Value X} (hu : (step, u) ∈ (k.view q).slots) :
    ∃ i v, (step, v) ∈ view.slots ∧ rel i (step, v) u := by
  obtain ⟨us, hcell, hlen, hall⟩ := h
  unfold Heap.view at hu
  rw [hcell] at hu
  cases view with
  | list items =>
    obtain ⟨⟨u', i⟩, hitem, heq⟩ := List.mem_map.1 hu
    obtain ⟨rfl, rfl⟩ := Prod.mk.inj heq
    have hui := List.mem_zipIdx_iff_getElem?.1 hitem
    obtain ⟨hi, _⟩ := List.getElem?_eq_some_iff.1 hui
    rw [hlen] at hi
    have hslot : (View.list items).slots[i]? = some (View.list items).slots[i] :=
      List.getElem?_eq_getElem hi
    have hstep : (View.list items).slots[i].1 = Step.ofIndex i := by
      simp [View.slots]
    refine ⟨i, (View.list items).slots[i].2, ?_, ?_⟩
    · rw [← hstep]
      exact List.getElem_mem hi
    · rw [← hstep]
      exact hall i _ _ hslot hui
  | named fields =>
    simp only [View.fill, viewCell, View.entries_fill hnames hlen] at hu
    obtain ⟨⟨name, u'⟩, hfield, heq⟩ := List.mem_map.1 hu
    obtain ⟨rfl, rfl⟩ := Prod.mk.inj heq
    obtain ⟨i, hi⟩ := List.getElem?_of_mem hfield
    rw [List.getElem?_zip_eq_some, List.getElem?_map, Option.map_eq_some_iff] at hi
    obtain ⟨⟨⟨name', v⟩, hv, rfl⟩, hui⟩ := hi
    have hslot : (View.named fields).slots[i]? = some (.key name', v) := by
      simp [View.slots, hv]
    exact ⟨i, v, List.mem_of_getElem? hslot, hall i _ _ hslot hui⟩

/-! ## Stops and sites -/

/-- Nothing but scalars is inside the exempt containers that a walk comes to. -/
def ExemptsScalars (h : Heap Expression) (tour : List (Stop Expression)) : Prop :=
  ∀ trail v r, (trail, v) ∈ tour → v.isContainer = false → v.unwrap = .node r →
    ∀ u ∈ h.slots r, u.unwrap.isContainer = false

section Stops

variable {h k : Heap Expression} {limit : UInt32} {room left : Nat} {places : List Place}
  {seen : Seen} {x t v u : Value Expression} {L M : Literal} {tour : List (Stop Expression)}
  {trail : Trail} {r : Ref}

/-- A defined value of a written container stands under its step. -/
theorem exists_part_of_toLiteralAt (hM : k.toLiteralAt limit left (.node r) = .ok M) {step : Step}
    (hslot : (step, u) ∈ (k.view r).slots) (hu : u.isDefined = true) :
    ∃ left' M', left = left' + 1 ∧ (step, M') ∈ M.slots ∧ k.toLiteralAt limit left' u = .ok M' := by
  rcases toLiteralAt_cases hM with ⟨r', left', hr, rfl, hview⟩ | ⟨hscalar, _⟩
  · obtain rfl := Value.node.inj hr
    obtain ⟨slots, _, hdefined, hall⟩ := forall₂_slots_of_viewToLiteral hview
    obtain ⟨⟨step', M'⟩, hM', heq, hwritten⟩ :=
      exists_mem_of_forall₂ hall.flip _ (hdefined _ hslot hu)
    obtain rfl : step = step' := heq
    exact ⟨left', M', rfl, hM', hwritten⟩
  · cases hscalar

/-- What stands under a step in what is written is written for a value of the container. -/
theorem exists_slot_of_toLiteralAt (hM : k.toLiteralAt limit left u = .ok M) {step : Step}
    {M' : Literal} (hpart : (step, M') ∈ M.slots) :
    ∃ r u' left', u.unwrap = .node r ∧ (step, u') ∈ (k.view r).slots ∧
      k.toLiteralAt limit left' u' = .ok M' := by
  rcases toLiteralAt_cases hM with ⟨r, left', hr, rfl, hview⟩ | ⟨_, ⟨s, rfl⟩ | rfl⟩
  · obtain ⟨slots, hsublist, _, hall⟩ := forall₂_slots_of_viewToLiteral hview
    obtain ⟨⟨step', u'⟩, hslot, heq, hwritten⟩ := exists_mem_of_forall₂ hall _ hpart
    obtain rfl : step' = step := heq
    exact ⟨r, u', left', hr, hsublist.subset hslot, hwritten⟩
  · cases hpart
  · cases hpart

/-- What is no container has nothing inside. -/
theorem slots_eq_nil_of_toLiteralAt (hu : u.unwrap.isContainer = false)
    (hM : k.toLiteralAt limit left u = .ok M) : M.slots = [] := by
  rcases toLiteralAt_cases hM with ⟨r, _, hr, _⟩ | ⟨_, ⟨s, rfl⟩ | rfl⟩
  · rw [hr] at hu
    cases hu
  · rfl
  · rfl

/-- Where the walk stops at a defined value, the literal has what stands for it. -/
theorem Entered.site_of_stop (E : h.Entered h [] [] room x places k seen t) (hh : h.Proper)
    (T : h.Tours [] [([], x)] tour) (hseen : ∀ r, seen.lookup r = firstVisit? tour r)
    (hL : k.toLiteralAt limit left t = .ok L) (hstop : (trail, v) ∈ tour)
    (hv : v.isDefined = true) :
    ∃ u M left', k.Stands places seen trail v u ∧ L.Site trail M ∧
      k.toLiteralAt limit left' u = .ok M ∧ trail.length + left' = left := by
  rcases T.origin hstop with hroot | ⟨r, first, _, hfirst, hin⟩
  · obtain ⟨rfl, rfl⟩ := Prod.mk.inj (List.mem_singleton.1 hroot)
    exact ⟨t, L, left, E.stands, .root, hL, Nat.zero_add _⟩
  · obtain ⟨p, hp, rfl, rfl⟩ := (E.firstVisit?_eq_some_iff (hseen r)).1 hfirst
    obtain ⟨slot, hslot, heq⟩ := List.mem_map.1 hin
    obtain ⟨rfl, rfl⟩ := Prod.mk.inj heq
    obtain ⟨N, left', hN, hwritten, hlen⟩ := E.site_trail hh hL p hp
    obtain ⟨i, u, hu, hst⟩ := (E.walk.images p hp).mem_slots (hh.nodup_names _) hslot
    have hdefined : u.isDefined = true := hst.isDefined_eq.trans hv
    obtain ⟨left'', M, rfl, hpart, hM⟩ := exists_part_of_toLiteralAt hwritten hu hdefined
    exact ⟨u, M, left'', hst, .slot hN hpart, hM, by rw [List.length_cons]; omega⟩

/-- The container of a place has something under a step only if the walk stops there. -/
theorem Entered.stop_of_slot (E : h.Entered h [] [] room x places k seen t) (hh : h.Proper)
    (T : h.Tours [] [([], x)] tour) (hseen : ∀ r, seen.lookup r = firstVisit? tour r) {p : Place}
    (hp : p ∈ places) {step : Step} (hu : (step, u) ∈ (k.view p.target).slots) :
    ∃ v, (step :: p.trail, v) ∈ tour ∧ k.Stands places seen (step :: p.trail) v u := by
  obtain ⟨i, v, hslot, hst⟩ := (E.walk.images p hp).exists_slot (hh.nodup_names _) hu
  have hfirst := (E.firstVisit?_eq_some_iff (hseen p.source)).2 ⟨p, hp, rfl, rfl⟩
  refine ⟨v, T.inside_subset List.not_mem_nil hfirst ?_, hst⟩
  exact List.mem_map_of_mem (f := fun slot => (slot.1 :: p.trail, slot.2)) hslot

/-- The containers in the values that a walk comes to are among those of the heap. -/
theorem Tours.below_of_stop (T : h.Tours [] [([], x)] tour) (hh : h.Proper) (hx : x.Below h.size)
    (hstop : (trail, v) ∈ tour) : v.Below h.size := by
  rcases T.origin hstop with hroot | ⟨r, first, _, _, hin⟩
  · obtain ⟨_, rfl⟩ := Prod.mk.inj (List.mem_singleton.1 hroot)
    exact hx
  · obtain ⟨slot, hslot, heq⟩ := List.mem_map.1 hin
    obtain ⟨_, rfl⟩ := Prod.mk.inj heq
    exact hh.below_of_mem_values (View.mem_values_of_mem_slots hslot)

/-- Nothing but scalars is inside an exempt container in the encoded graph either. -/
theorem Entered.scalar_of_exempt (E : h.Entered h [] [] room x places k seen t) (hh : h.Proper)
    (T : h.Tours [] [([], x)] tour) (hexempt : h.ExemptsScalars tour) (hx : x.Below h.size)
    (hstop : (trail, v) ∈ tour) (hleaf : v.isContainer = false) (hunwrap : v.unwrap = .node r)
    (hu : u ∈ (k.view r).values) : u.unwrap.isContainer = false := by
  have hlt : r < h.size := T.below_of_stop hh hx hstop r hunwrap
  refine hexempt trail v r hstop hleaf hunwrap u ?_
  rwa [← E.walk.within.slots hlt, ← values_view]

/-- What stands for a value that is no container looks the same without its markers. -/
theorem unwrap_taken (v : Value Expression) : v.taken.unwrap = v.unwrap := by
  cases v <;> rfl

/-- What stands in the literal stands where the walk stops, or has nothing inside. -/
theorem Entered.stop_of_site (E : h.Entered h [] [] room x places k seen t) (hh : h.Proper)
    (T : h.Tours [] [([], x)] tour) (hseen : ∀ r, seen.lookup r = firstVisit? tour r)
    (hexempt : h.ExemptsScalars tour) (hx : x.Below h.size)
    (hL : k.toLiteralAt limit left t = .ok L) (hsite : L.Site trail M) :
    (∃ v u left', (trail, v) ∈ tour ∧ k.Stands places seen trail v u ∧
      k.toLiteralAt limit left' u = .ok M) ∨ M.slots = [] := by
  induction hsite with
  | root => exact .inl ⟨x, t, left, T.subset List.mem_cons_self, E.stands, hL⟩
  | @slot trail step N M _ hpart ih =>
    rcases ih with ⟨v, u, left', hstop, hst, hN⟩ | hnone
    · obtain ⟨r, u', left'', hr, hslot, hM⟩ := exists_slot_of_toLiteralAt hN hpart
      cases hst with
      | leaf hleaf =>
        have hscalar := E.scalar_of_exempt hh T hexempt hx hstop hleaf
          ((unwrap_taken v).symm.trans hr) (View.mem_values_of_mem_slots hslot)
        exact .inr (slots_eq_nil_of_toLiteralAt hscalar hM)
      | @first s q hmem =>
        obtain rfl := Value.node.inj hr
        obtain ⟨v', hstop', hst'⟩ := E.stop_of_slot hh T hseen hmem hslot
        exact .inl ⟨v', u', left'', hstop', hst', hM⟩
      | again _ _ hcell =>
        obtain rfl := Value.node.inj hr
        rw [view_tokenCell hcell] at hslot
        obtain ⟨_, rfl⟩ := Prod.mk.inj (List.mem_singleton.1 hslot)
        exact .inr (slots_eq_nil_of_toLiteralAt rfl hM)
    · rw [hnone] at hpart
      cases hpart

/-! ## Levels -/

/-- What is no container is written whatever the number of levels. -/
theorem exists_toLiteralAt_of_scalar (hu : u.unwrap.isContainer = false) (k : Heap Expression)
    (limit : UInt32) (left : Nat) : ∃ M, k.toLiteralAt limit left u = .ok M := by
  unfold toLiteralAt
  cases hv : u.unwrap with
  | node r =>
    rw [hv] at hu
    cases hu
  | _ => exact ⟨_, rfl⟩

/-- A container is written if all is written that is inside. -/
theorem exists_toLiteralAt_succ (hr : u.unwrap = .node r)
    (hvalues : ∀ w ∈ (k.view r).values, ∃ M, k.toLiteralAt limit left w = .ok M) :
    ∃ M, k.toLiteralAt limit (left + 1) u = .ok M := by
  unfold toLiteralAt
  rw [hr]
  dsimp only
  cases hview : k.view r with
  | list items =>
    obtain ⟨written, hwritten⟩ := exists_mapM_ok (f := k.toLiteralAt limit left) (l := items)
      fun w hw => hvalues w (by rwa [hview])
    exact ⟨_, by rw [viewToLiteral, hwritten]; rfl⟩
  | named fields =>
    have hfields : ∀ field ∈ fields.filter fun field => !field.2.unwrap.isUndefined,
        ∃ part, (do
          let item ← k.toLiteralAt limit left field.2
          return (field.1, item)) = .ok part := by
      intro field hfield
      have hmem : field.2 ∈ (k.view r).values := by
        rw [hview]
        exact List.mem_map_of_mem (List.mem_filter.1 hfield).1
      obtain ⟨M, hM⟩ := hvalues _ hmem
      exact ⟨(field.1, M), by rw [hM]; rfl⟩
    obtain ⟨written, hwritten⟩ := exists_mapM_ok hfields
    exact ⟨_, by rw [viewToLiteral]; dsimp only; rw [hwritten]; rfl⟩

/-- Where no container lies too deep, all is written that stands where the walk stops. -/
theorem Entered.exists_toLiteralAt (E : h.Entered h [] [] room x places k seen t) (hh : h.Proper)
    (T : h.Tours [] [([], x)] tour) (hseen : ∀ r, seen.lookup r = firstVisit? tour r)
    (hexempt : h.ExemptsScalars tour) (hx : x.Below h.size)
    (hdepth : ∀ trail v, (trail, v) ∈ tour → v.unwrap.isContainer = true →
      trail.length < limit.toNat)
    (hstop : (trail, v) ∈ tour) (hst : k.Stands places seen trail v u)
    (hleft : limit.toNat ≤ trail.length + left) : ∃ M, k.toLiteralAt limit left u = .ok M := by
  induction left generalizing trail v u with
  | zero =>
    cases hu : u.unwrap.isContainer with
    | false => exact exists_toLiteralAt_of_scalar hu k limit 0
    | true =>
      have hv : v.unwrap.isContainer = true := by
        rcases hst.unwrap with heq | ⟨⟨r, rfl⟩, _⟩
        · rwa [← heq]
        · rfl
      have := hdepth trail v hstop hv
      omega
  | succ left ih =>
    cases hu : u.unwrap with
    | node r =>
      refine exists_toLiteralAt_succ hu fun w hw => ?_
      rw [← View.slots_snd] at hw
      obtain ⟨⟨step, w'⟩, hslot, rfl⟩ := List.mem_map.1 hw
      cases hst with
      | leaf hleaf =>
        refine exists_toLiteralAt_of_scalar ?_ k limit left
        exact E.scalar_of_exempt hh T hexempt hx hstop hleaf ((unwrap_taken v).symm.trans hu)
          (View.mem_values_of_mem_slots hslot)
      | @first s q hmem =>
        obtain rfl := Value.node.inj hu
        obtain ⟨v', hstop', hst'⟩ := E.stop_of_slot hh T hseen hmem hslot
        exact ih hstop' hst' (by simp only [List.length_cons]; omega)
      | again _ _ hcell =>
        obtain rfl := Value.node.inj hu
        rw [view_tokenCell hcell] at hslot
        obtain ⟨_, rfl⟩ := Prod.mk.inj (List.mem_singleton.1 hslot)
        exact exists_toLiteralAt_of_scalar rfl k limit left
    | _ => exact exists_toLiteralAt_of_scalar (by rw [hu]; rfl) k limit (left + 1)

end Stops

/-! ## The literal of a graph -/

/-- What stands in the literal of a graph where the walk of the graph stops, and
elsewhere. -/
structure Transcribes (tour : List (Stop Expression)) (L : Literal) (R : Ref → Literal → Prop) :
    Prop where
  tidy : L.Tidy fun _ => True
  /-- Where the walk first comes to a container stands what is written for it. -/
  first : ∀ r trail, firstVisit? tour r = some trail →
    ∃ M : Literal, L.Site trail M ∧ R r M ∧ M.refPath? = none
  /-- Where it comes to the container again stands a token. -/
  again : ∀ r trail first, (trail, .node r) ∈ tour → firstVisit? tour r = some first →
    trail ≠ first → L.Site trail (Literal.token first.reverse)
  /-- An exempt container is written wherever it stands. -/
  exempt : ∀ r trail, (trail, .exempt (.node r)) ∈ tour →
    ∃ M : Literal, L.Site trail M ∧ R r M ∧ M.refPath? = none
  /-- Whatever has something inside stands where the walk comes to a container. -/
  stop : ∀ trail M, L.Site trail M → M.slots ≠ [] →
    ∃ v, (trail, v) ∈ tour ∧ v.unwrap.isContainer = true

section Transcript

variable {h k : Heap Expression} {codec depth : UInt32} {x t : Value Expression} {L : Literal}
  {tour : List (Stop Expression)}

/-- The literal of a graph transcribes its walk. -/
theorem exists_transcript (hh : h.Proper) (hx : x.Below h.size)
    (T : h.Tours [] [([], x)] tour) (hexempt : h.ExemptsScalars tour)
    (henc : h.encoded codec x = .ok (t, k)) (hL : k.toLiteral depth t = .ok L) :
    ∃ R, h.Renders L R ∧ Transcribes tour L R := by
  obtain ⟨places, seen, E, hseen⟩ := exists_entered (fun r _ => hh.nodup_names r) T henc
  have hwritten : k.Writes depth t L := ⟨_, hL⟩
  have hsite : ∀ {trail v}, (trail, v) ∈ tour → v.isDefined = true →
      ∃ u M, k.Stands places seen trail v u ∧ L.Site trail M ∧ k.Writes depth u M := by
    intro trail v hstop hv
    obtain ⟨u, M, left, hst, hM, hu, _⟩ := E.site_of_stop hh T hseen hL hstop hv
    exact ⟨u, M, hst, hM, left, hu⟩
  refine ⟨Rendered h k depth places, E.renders hh hwritten, ?_, fun r trail hfirst => ?_,
    fun r trail first hstop hfirst hne => ?_, fun r trail hstop => ?_, fun trail M hM hslots => ?_⟩
  · exact E.tidy_written hh (E.origin_of_stands E.stands hx) hL
  · obtain ⟨p, hp, rfl, rfl⟩ := (E.firstVisit?_eq_some_iff (hseen r)).1 hfirst
    obtain ⟨M, left, hM, hp', _⟩ := E.site_trail hh hL p hp
    have hwrites : k.Writes depth (.node p.target) M := ⟨left, hp'⟩
    exact ⟨M, hM, .inl ⟨p, hp, rfl, hwrites⟩,
      hwrites.refPath?_eq_none (hh.plain_target (E.walk.images p hp))⟩
  · obtain ⟨p, hp, rfl, rfl⟩ := (E.firstVisit?_eq_some_iff (hseen r)).1 hfirst
    obtain ⟨u, M, hst, hM, hu⟩ := hsite hstop rfl
    cases hst with
    | leaf hleaf => cases hleaf
    | first hmem => exact absurd (congrArg Place.trail (E.source_inj _ hmem p hp rfl)) hne
    | again hmem _ hcell =>
      obtain ⟨p', hp', hvisit⟩ := List.mem_map.1 (E.seen_eq ▸ hmem)
      simp only [Place.visit, Prod.mk.injEq] at hvisit
      obtain ⟨hsource, rfl⟩ := hvisit
      obtain rfl := E.source_inj p' hp' p hp hsource
      rwa [hu.eq_token hcell] at hM
  · obtain ⟨u, M, hst, hM, hu⟩ := hsite hstop rfl
    cases hst with
    | leaf _ =>
      have hr : r < h.size := T.below_of_stop hh hx hstop r rfl
      have hplain : ∀ c, k.cell? r = some c → c.Plain := fun c hc =>
        hh.plain r c (by rw [← E.walk.within.cell?_eq r hr, hc])
      have hnode : k.Writes depth (.node r) M := hu
      exact ⟨M, hM, .inr ⟨hr, hnode⟩, hnode.refPath?_eq_none hplain⟩
  · rcases E.stop_of_site hh T hseen hexempt hx hL hM with ⟨v, u, left, hstop, hst, hu⟩ | hnone
    · refine ⟨v, hstop, eq_true_of_ne_false fun hv => hslots ?_⟩
      refine slots_eq_nil_of_toLiteralAt ?_ hu
      rcases hst.unwrap with heq | ⟨⟨r, rfl⟩, _⟩
      · rwa [heq]
      · cases hv
    · exact absurd hnone hslots

/-- An encoded graph is written exactly if no container at a stop of the walk lies too
deep. -/
theorem toLiteral_ok_iff (hh : h.Proper) (hx : x.Below h.size) (T : h.Tours [] [([], x)] tour)
    (hexempt : h.ExemptsScalars tour) (henc : h.encoded codec x = .ok (t, k)) :
    (∃ L, k.toLiteral depth t = .ok L) ↔
      ∀ trail v, (trail, v) ∈ tour → v.unwrap.isContainer = true →
        trail.length < depth.toNat := by
  obtain ⟨places, seen, E, hseen⟩ := exists_entered (fun r _ => hh.nodup_names r) T henc
  constructor
  · rintro ⟨L, hL⟩ trail v hstop hv
    have hdefined : v.isDefined = true := by
      unfold Value.isDefined
      cases hu : v.unwrap <;> simp_all [Value.isContainer, Value.isUndefined]
    obtain ⟨u, M, left, hst, _, hM, hlen⟩ := E.site_of_stop hh T hseen hL hstop hdefined
    rcases toLiteralAt_cases hM with ⟨r, left', _, rfl, _⟩ | ⟨hscalar, _⟩
    · omega
    · rcases hst.unwrap with heq | ⟨_, q, rfl⟩
      · rw [heq, hv] at hscalar
        cases hscalar
      · cases hscalar
  · intro hdepth
    exact E.exists_toLiteralAt hh T hseen hexempt hx hdepth (T.subset List.mem_cons_self) E.stands
      (Nat.le_add_left _ _)

end Transcript

end Heap

end TypeDescription
