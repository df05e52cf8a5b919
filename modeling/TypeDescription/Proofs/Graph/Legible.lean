import Mathlib.Algebra.Order.BigOperators.Group.List
import Mathlib.Algebra.Order.Group.Nat
import TypeDescription.Proofs.Graph.Decoding
import TypeDescription.Proofs.Graph.Planting
import TypeDescription.Proofs.Graph.Rewriting
import TypeDescription.Proofs.Graph.Tour

/-!
# Trees with tokens

A tree is `Legible` if no container stands at two positions and each token has
nothing but the path of a container that is no token, wherever that stands.

`Heap.linked` is the graph that such a tree stands for.  The tree is what
encoding could leave of that graph (`Legible.planted`), so decoding produces the
graph, and fails if a container lies too deep (`Legible.decode_cases`).  In the
graph no container passes for a token (`Legible.tokenPath?_decoded`).
-/

namespace TypeDescription

variable {X : Type}

namespace Heap

/-- The walk of a tree of arrays, objects and scalars in which each token has the path
of a container that is no token, and nothing but the path. -/
structure Legible (k : Heap X) (t : Value X) (tour : List (Stop X)) : Prop where
  walked : k.Tours [] [([], t)] tour
  alone : ∀ a b r, (a, .node r) ∈ tour → (b, .node r) ∈ tour → a = b
  built : ∀ trail r, (trail, .node r) ∈ tour → ∃ c, k.cell? r = some c ∧ c.Holds (k.view r)
  plain : ∀ trail v, (trail, v) ∈ tour → v.exempt? = none
  token : ∀ trail v, (trail, v) ∈ tour → k.tokenPath? v ≠ none →
    ∃ first u, (first, u) ∈ tour ∧ u.isContainer = true ∧ k.tokenPath? u = none ∧
      k.content? v = some (tokenCell first)

/-- What a value stands for in a tree with tokens. -/
def dereference (k : Heap X) (t v : Value X) : Value X :=
  match k.tokenPath? v with
  | some (_, path) => (k.resolve t path).getD v
  | none => v

/-- The graph of a tree with tokens: each token is replaced by what it stands for. -/
def linked (k : Heap X) (t : Value X) : Heap X :=
  ofViews k.size fun r => (k.view r).mapValues (k.dereference t)

/-- The place of a container that is no token, where the container stays itself. -/
def place? (k : Heap X) (stop : Stop X) : Option Place :=
  stop.2.ref?.bind fun r =>
    if (k.tokenPath? (.node r)).isNone then some ⟨r, stop.1, r⟩ else none

/-- The places of the containers that a walk comes to, tokens left out. -/
def spots (k : Heap X) (stops : List (Stop X)) : List Place :=
  stops.filterMap k.place?

theorem dereference_of_none {k : Heap X} {t v : Value X} (h : k.tokenPath? v = none) :
    k.dereference t v = v := by
  simp [dereference, h]

theorem mem_spots {k : Heap X} {stops : List (Stop X)} {p : Place} :
    p ∈ k.spots stops ↔ p.target = p.source ∧ (p.trail, .node p.source) ∈ stops ∧
      k.tokenPath? (.node p.source) = none := by
  simp only [spots, List.mem_filterMap, place?]
  constructor
  · rintro ⟨⟨trail, v⟩, hstop, hplace⟩
    cases v <;> simp only [Value.ref?, Option.bind_some, Option.bind_none, reduceCtorEq,
      Option.ite_none_right_eq_some, Option.some.injEq, Option.isNone_iff_eq_none] at hplace
    obtain ⟨hnone, rfl⟩ := hplace
    exact ⟨rfl, hstop, hnone⟩
  · rintro ⟨htarget, hstop, hnone⟩
    refine ⟨_, hstop, ?_⟩
    obtain ⟨source, trail, target⟩ := p
    obtain rfl : target = source := htarget
    simp [Value.ref?, hnone]

/-- A token has a text under one name. -/
theorem view_tokenCell {k : Heap X} {r : Ref} {first : Trail}
    (hcell : k.cell? r = some (tokenCell first)) :
    k.view r = .named [(refKey, .string (Path.text first.reverse))] := by
  simp [view, hcell, tokenCell, viewCell, Table.ofList, Table.insert, Table.putEntry, Table.empty]

section Legible

variable {k : Heap X} {t v : Value X} {tour : List (Stop X)} {trail : Trail} {r : Ref}

theorem Legible.cell_stop (C : k.Legible t tour) (hstop : (trail, .node r) ∈ tour) :
    k.cell? r = some (k.view r).cell ∧ (k.view r).names.Nodup := by
  obtain ⟨c, hcell, hc⟩ := C.built trail r hstop
  obtain ⟨rfl, hnames⟩ := hc.eq_cell
  exact ⟨hcell, hnames⟩

/-- What lies inside a container that is met, is met. -/
theorem Legible.inside_subset (C : k.Legible t tour) (hstop : (trail, .node r) ∈ tour) :
    k.inside trail r ⊆ tour := by
  obtain ⟨first, hfirst⟩ := exists_firstVisit? hstop
  obtain rfl := C.alone first trail r (mem_of_firstVisit? hfirst) hstop
  exact C.walked.inside_subset List.not_mem_nil hfirst

/-- The trail of a stop leads to the value there. -/
theorem Legible.resolve_stop (C : k.Legible t tour) (hstop : (trail, v) ∈ tour) :
    k.resolve t trail.reverse = some v := by
  induction trail generalizing v with
  | nil =>
    rcases C.walked.origin hstop with hroot | ⟨r, first, _, _, hin⟩
    · obtain ⟨_, rfl⟩ := Prod.mk.inj (List.mem_singleton.1 hroot)
      rfl
    · obtain ⟨slot, _, heq⟩ := List.mem_map.1 hin
      cases (Prod.mk.inj heq).1
  | cons step trail ih =>
    rcases C.walked.origin hstop with hroot | ⟨r, first, _, hfirst, hin⟩
    · cases (Prod.mk.inj (List.mem_singleton.1 hroot)).1
    · obtain ⟨slot, hslot, heq⟩ := List.mem_map.1 hin
      obtain ⟨hsteps, rfl⟩ := Prod.mk.inj heq
      obtain ⟨rfl, rfl⟩ := List.cons.inj hsteps
      have hmet := mem_of_firstVisit? hfirst
      obtain ⟨hcell, hnames⟩ := C.cell_stop hmet
      obtain ⟨_, u, hstep, rfl⟩ := (fills_cell hcell).step? hnames hslot
      rw [resolve_cons _ (ih hmet), hstep]

/-- A token with the path of a container stands for it, at another position. -/
theorem Legible.token_target (C : k.Legible t tour) {first : Trail} {q : Ref}
    (hstop : (trail, .node r) ∈ tour) (hfirst : (first, .node q) ∈ tour)
    (hnone : k.tokenPath? (.node q) = none) (hcell : k.cell? r = some (tokenCell first)) :
    first ≠ trail ∧ k.dereference t (.node r) = .node q := by
  have htoken := tokenPath?_tokenCell hcell
  have hresolve := C.resolve_stop hfirst
  refine ⟨?_, by simp [dereference, htoken, hresolve]⟩
  rintro rfl
  have hsame := (C.resolve_stop hstop).symm.trans hresolve
  rw [Option.some.inj hsame, hnone] at htoken
  cases htoken

/-- A token stands for a container that is no token, at another position. -/
theorem Legible.token_stop (C : k.Legible t tour) (hstop : (trail, .node r) ∈ tour)
    (htoken : k.tokenPath? (.node r) ≠ none) :
    ∃ first q, (first, .node q) ∈ tour ∧ k.tokenPath? (.node q) = none ∧ first ≠ trail ∧
      k.cell? r = some (tokenCell first) ∧ k.dereference t (.node r) = .node q := by
  obtain ⟨first, u, hfirst, hcont, hnone, hcell⟩ := C.token _ _ hstop htoken
  obtain ⟨q, rfl⟩ := Value.exists_eq_node hcont
  obtain ⟨hne, hderef⟩ := C.token_target hstop hfirst hnone hcell
  exact ⟨first, q, hfirst, hnone, hne, hcell, hderef⟩

/-- Each value of the tree stands for what it is dereferenced to. -/
theorem Legible.stands (C : k.Legible t tour) (hstop : (trail, v) ∈ tour) :
    k.Stands (k.spots tour) ((k.spots tour).map Place.visit) trail (k.dereference t v) v := by
  cases hv : v.isContainer with
  | false =>
    have htaken : v.taken = v := by
      have hplain := C.plain _ _ hstop
      cases v <;> simp_all [Value.taken, Value.exempt?]
    rw [dereference_of_none (tokenPath?_leaf hv)]
    have hst : k.Stands (k.spots tour) ((k.spots tour).map Place.visit) trail v v.taken := .leaf hv
    rwa [htaken] at hst
  | true =>
    obtain ⟨r, rfl⟩ := Value.exists_eq_node hv
    by_cases htoken : k.tokenPath? (.node r) = none
    · rw [dereference_of_none htoken]
      exact .first (mem_spots.2 ⟨rfl, hstop, htoken⟩)
    · obtain ⟨first, q, hq, hnone, hne, hcell, hderef⟩ := C.token_stop hstop htoken
      have hspot : (⟨q, first, q⟩ : Place) ∈ k.spots tour := mem_spots.2 ⟨rfl, hq, hnone⟩
      rw [hderef]
      exact .again (List.mem_map_of_mem hspot) hne hcell

/-- A value is dereferenced to itself, or it is a token and dereferenced to a container. -/
theorem Legible.dereference_cases (C : k.Legible t tour) (hstop : (trail, v) ∈ tour) :
    k.dereference t v = v ∨ ∃ r q, v = .node r ∧ k.dereference t v = .node q := by
  by_cases htoken : k.tokenPath? v = none
  · exact .inl (dereference_of_none htoken)
  · obtain ⟨r, rfl⟩ : ∃ r, v = .node r := by
      cases v <;> first | exact ⟨_, rfl⟩ | exact absurd (tokenPath?_leaf rfl) htoken
    obtain ⟨first, q, _, _, _, _, hderef⟩ := C.token_stop hstop htoken
    exact .inr ⟨r, q, rfl, hderef⟩

theorem Legible.view_linked (C : k.Legible t tour) (hstop : (trail, .node r) ∈ tour) :
    (k.linked t).view r = (k.view r).mapValues (k.dereference t) := by
  obtain ⟨hcell, hnames⟩ := C.cell_stop hstop
  exact view_ofViews (lt_size_of_cell? hcell) (by simpa using hnames)

/-- What lies inside a place is met. -/
theorem Legible.slot_stop (C : k.Legible t tour) {p : Place} (hp : p ∈ k.spots tour)
    {slot : Step × Value X} (hslot : slot ∈ (k.view p.source).slots) :
    (slot.1 :: p.trail, slot.2) ∈ tour :=
  C.inside_subset (mem_spots.1 hp).2.1 (List.mem_map_of_mem hslot)

/-- A container has one place. -/
theorem Legible.spot_inj (C : k.Legible t tour) :
    ∀ p ∈ k.spots tour, ∀ p' ∈ k.spots tour, p.source = p'.source → p = p' := by
  intro p hp p' hp' heq
  obtain ⟨htarget, hstop, _⟩ := mem_spots.1 hp
  obtain ⟨htarget', hstop', _⟩ := mem_spots.1 hp'
  obtain ⟨source, trail, target⟩ := p
  obtain ⟨source', trail', target'⟩ := p'
  simp only at htarget htarget' hstop hstop' heq
  subst heq htarget htarget'
  rw [C.alone _ _ _ hstop hstop']

theorem Legible.image_spot (C : k.Legible t tour) :
    ∀ p ∈ k.spots tour,
      (k.linked t).Image k (k.spots tour) ((k.spots tour).map Place.visit) p := by
  intro p hp
  obtain ⟨htarget, hstop, _⟩ := mem_spots.1 hp
  rw [Image, C.view_linked hstop, htarget]
  obtain ⟨us, hcell, hlen, hall⟩ := fills_cell (C.cell_stop hstop).1
  refine ⟨us, by rw [View.fill_mapValues, hcell], by simp [View.slots_mapValues, hlen], ?_⟩
  intro i slot u hi hu
  rw [View.slots_mapValues, List.getElem?_map, Option.map_eq_some_iff] at hi
  obtain ⟨slot, hi, rfl⟩ := hi
  rw [hall i slot u hi hu]
  exact C.stands (C.slot_stop hp (List.mem_of_getElem? hi))

/-- A container lies in no token: a token holds a text. -/
theorem Legible.tokenPath?_of_slot (C : k.Legible t tour) (hstop : (trail, .node r) ∈ tour)
    {step : Step} {s : Ref} (hslot : (step, .node s) ∈ (k.view r).slots) :
    k.tokenPath? (.node r) = none := by
  by_contra htoken
  obtain ⟨_, q, _, _, _, hcell, _⟩ := C.token_stop hstop htoken
  rw [view_tokenCell hcell] at hslot
  cases (Prod.mk.inj (List.mem_singleton.1 hslot)).2

/-- Each place is at the root or inside another place. -/
theorem Legible.grown_spots (C : k.Legible t tour) :
    (k.linked t).Grown (k.spots tour) fun p => p.trail = [] ∧ t = .node p.target := by
  intro p hp
  obtain ⟨htarget, hstop, hnone⟩ := mem_spots.1 hp
  rcases C.walked.origin hstop with hroot | ⟨r, first, _, hfirst, hin⟩
  · obtain ⟨htrail, ht⟩ := Prod.mk.inj (List.mem_singleton.1 hroot)
    exact .inl ⟨htrail, by rw [htarget, ht]⟩
  · obtain ⟨slot, hslot, heq⟩ := List.mem_map.1 hin
    obtain ⟨htrail, hv⟩ := Prod.mk.inj heq
    have hmet := mem_of_firstVisit? hfirst
    have hmem : (slot.1, Value.node p.source) ∈ (k.view r).slots := by
      rw [← hv]
      exact hslot
    have hr := C.tokenPath?_of_slot hmet hmem
    refine .inr ⟨⟨r, first, r⟩, mem_spots.2 ⟨rfl, hmet, hr⟩, slot.1, htrail.symm, ?_⟩
    rw [C.view_linked hmet, View.slots_mapValues]
    refine List.mem_map.2 ⟨slot, hslot, ?_⟩
    rw [hv, dereference_of_none hnone]

/-- What tokens stand for is not exempt, and neither is anything else. -/
theorem Legible.plain_spot (C : k.Legible t tour) :
    ∀ p ∈ k.spots tour, ∀ v ∈ ((k.linked t).view p.source).values, v.exempt? = none := by
  intro p hp v hv
  rw [C.view_linked (mem_spots.1 hp).2.1, ← View.slots_snd, View.slots_mapValues] at hv
  simp only [List.map_map, List.mem_map, Function.comp_apply] at hv
  obtain ⟨slot, hmem, rfl⟩ := hv
  have hstop := C.slot_stop hp hmem
  rcases C.dereference_cases hstop with heq | ⟨r, q, _, heq⟩
  · rw [heq]
    exact C.plain _ _ hstop
  · rw [heq]
    rfl

/-- No place could be taken for a token in the graph. -/
theorem Legible.free_spot (C : k.Legible t tour) :
    ∀ p ∈ k.spots tour, ∀ fields text, (k.linked t).view p.source = .named fields →
      (refKey, .string text) ∈ fields → Path.parse? text = none := by
  intro p hp fields text hfields hmem
  obtain ⟨_, hstop, hnone⟩ := mem_spots.1 hp
  rw [C.view_linked hstop] at hfields
  obtain ⟨c, hcell, hc⟩ := C.built _ _ hstop
  generalize hv : k.view p.source = view at hc hfields
  cases hc with
  | array items => cases hfields
  | object properties =>
    obtain rfl := View.named.inj hfields
    obtain ⟨⟨key, u⟩, hentry, heq⟩ := List.mem_map.1 hmem
    obtain ⟨rfl, hu⟩ := Prod.mk.inj heq
    have hslot : (Step.key refKey, u) ∈ (k.view p.source).slots := by
      rw [hv]
      exact List.mem_map_of_mem (f := fun field : String × Value X => (Step.key field.1, field.2))
        hentry
    rcases C.dereference_cases (C.slot_stop hp hslot) with heq | ⟨r, q, _, heq⟩
    · obtain rfl := heq.symm.trans hu
      have hget := properties.get?_eq_some_iff.2 hentry
      rw [Option.eq_none_iff_forall_ne_some]
      simpa [tokenPath?, refPath?, get?, content?, hcell, hget, Value.string?] using hnone
    · rw [heq] at hu
      cases hu

/-- The tree is what encoding leaves of its graph, each container in its own place. -/
theorem Legible.planted (C : k.Legible t tour) :
    ∃ room, (k.linked t).Planted k room (k.spots tour) t := by
  have hcell : ∀ p ∈ k.spots tour, (k.view p.source).names.Nodup :=
    fun p hp => (C.cell_stop (mem_spots.1 hp).2.1).2
  refine ⟨((k.spots tour).map fun p => p.trail.length).sum + 1,
    { image := C.image_spot
      source_inj := C.spot_inj
      trail_inj := fun p hp p' hp' heq => ?_
      target_inj := fun p hp p' hp' heq => ?_
      grown := C.grown_spots
      shallow := fun p hp => ?_
      names := fun p hp => ?_
      plain := C.plain_spot
      free := C.free_spot }⟩
  · have hresolve := C.resolve_stop (mem_spots.1 hp).2.1
    rw [heq, C.resolve_stop (mem_spots.1 hp').2.1] at hresolve
    exact C.spot_inj p hp p' hp' (Value.node.inj (Option.some.inj hresolve)).symm
  · rw [(mem_spots.1 hp).1, (mem_spots.1 hp').1] at heq
    exact C.spot_inj p hp p' hp' heq
  · have hle := List.le_sum_of_mem (List.mem_map_of_mem (f := fun p : Place => p.trail.length) hp)
    omega
  · rw [C.view_linked (mem_spots.1 hp).2.1, View.names_mapValues]
    exact hcell p hp

/-- Where there is a place, there is one at the root. -/
theorem Legible.exists_root (C : k.Legible t tour) {p : Place} (hp : p ∈ k.spots tour) :
    ∃ p₀ ∈ k.spots tour, p₀.trail = [] := by
  refine C.grown_spots.induct (motive := fun _ => ∃ p₀ ∈ k.spots tour, p₀.trail = []) ?_ ?_ p hp
  · exact fun p hp hstart => ⟨p, hp, hstart.1⟩
  · exact fun _ _ _ _ _ ih => ih

/-- Decoding succeeds and leaves the graph, or it fails because a place is too deep. -/
theorem Legible.decode_cases (C : k.Legible t tour) (limit : UInt32) {p₀ : Place}
    (hp₀ : p₀ ∈ k.spots tour) (hroot : p₀.trail = []) :
    (∃ k', k.decode limit t = (.ok (), k') ∧ ∀ p ∈ k.spots tour,
      k'.view p.source = (k.linked t).view p.source ∧ p.trail.length < limit.toNat) ∨
    (∃ k', k.decode limit t = (.error (.depthExceeded limit), k') ∧
      ∃ p ∈ k.spots tour, limit.toNat ≤ p.trail.length) := by
  obtain ⟨room, P⟩ := C.planted
  rcases P.decode_cases limit hp₀ hroot with ⟨k', hrun, hdone, hshallow⟩ | hdeep
  · refine .inl ⟨k', hrun, fun p hp => ⟨?_, hshallow p hp⟩⟩
    have hfills := hdone p hp
    rw [Done, (mem_spots.1 hp).1] at hfills
    refine Fills.view_eq (P.names p hp) (hfills.mono (fun _ hc => hc) fun i slot u _ hset => ?_)
    generalize slot.2 = v at hset
    cases hset with
    | leaf _ => rfl
    | place hq => rw [(mem_spots.1 hq).1]
  · exact .inr hdeep

/-- Decoding succeeds only if no place is too deep, and leaves the graph. -/
theorem Legible.view_decoded (C : k.Legible t tour) {k' : Heap X} {limit : UInt32}
    (hdec : k.decode limit t = (.ok (), k')) :
    ∀ p ∈ k.spots tour, k'.view p.source = (k.linked t).view p.source ∧
      p.trail.length < limit.toNat := by
  intro p hp
  obtain ⟨p₀, hp₀, hroot⟩ := C.exists_root hp
  rcases C.decode_cases limit hp₀ hroot with ⟨k₁, hrun, hviews⟩ | ⟨k₁, hrun, _⟩
  · obtain rfl := (Prod.mk.inj (hrun.symm.trans hdec)).2
    exact hviews p hp
  · rw [hrun] at hdec
    cases hdec

/-! ## No token is left -/

section Decoded

variable {k' : Heap X} (hviews : ∀ p ∈ k.spots tour,
  k'.view p.source = (k.linked t).view p.source)
include hviews

/-- No place passes for a token in the decoded graph. -/
theorem Legible.tokenPath?_spot (C : k.Legible t tour) {p : Place} (hp : p ∈ k.spots tour) :
    k'.tokenPath? (.node p.source) = none := by
  cases hget : k'.get? (.node p.source) refKey with
  | none => simp [tokenPath?, refPath?, hget]
  | some u =>
    cases hu : u.string? with
    | none => simp [tokenPath?, refPath?, hget, hu]
    | some text =>
      obtain rfl : u = .string text := by cases u <;> simp_all [Value.string?]
      obtain ⟨fields, hview, hmem⟩ := view_of_get? hget
      have hfree := C.free_spot p hp fields text ((hviews p hp).symm.trans hview) hmem
      simp [tokenPath?, refPath?, hget, Value.string?, hfree]

/-- What a place holds in the decoded graph is the container of a place or no container. -/
theorem Legible.mem_values_cases (C : k.Legible t tour) {p : Place} (hp : p ∈ k.spots tour)
    {v : Value X} (hv : v ∈ (k'.view p.source).values) :
    v.isContainer = false ∨ ∃ p' ∈ k.spots tour, v = .node p'.source := by
  have hmet := (mem_spots.1 hp).2.1
  rw [hviews p hp, C.view_linked hmet, ← View.slots_snd, View.slots_mapValues] at hv
  simp only [List.map_map, List.mem_map, Function.comp_apply] at hv
  obtain ⟨slot, hslot, rfl⟩ := hv
  have hstop := C.slot_stop hp hslot
  cases hcont : slot.2.isContainer with
  | false => exact .inl (by rw [dereference_of_none (tokenPath?_leaf hcont), hcont])
  | true =>
    obtain ⟨r, hr⟩ := Value.exists_eq_node hcont
    rw [hr] at hstop ⊢
    by_cases htoken : k.tokenPath? (.node r) = none
    · exact .inr ⟨⟨r, _, r⟩, mem_spots.2 ⟨rfl, hstop, htoken⟩, dereference_of_none htoken⟩
    · obtain ⟨first, q, hq, hnone, _, _, hderef⟩ := C.token_stop hstop htoken
      exact .inr ⟨⟨q, first, q⟩, mem_spots.2 ⟨rfl, hq, hnone⟩, hderef⟩

/-- Nothing passes for a token in the decoded graph. -/
theorem Legible.tokenPath?_decoded (C : k.Legible t tour) {p₀ : Place} (hp₀ : p₀ ∈ k.spots tour)
    (hroot : t = .node p₀.source) :
    ∀ r, k'.Reaches t r → k'.tokenPath? (.node r) = none ∧
      ∀ v ∈ (k'.view r).values, k'.tokenPath? v = none := by
  intro r hr
  have hplace : ∃ p ∈ k.spots tour, p.source = r := by
    induction hr with
    | root heq => exact ⟨p₀, hp₀, Value.node.inj (hroot.symm.trans heq)⟩
    | step _ hmem ih =>
      obtain ⟨p, hp, rfl⟩ := ih
      rcases C.mem_values_cases hviews hp hmem with hleaf | ⟨p', hp', heq⟩
      · cases hleaf
      · exact ⟨p', hp', (Value.node.inj heq).symm⟩
  obtain ⟨p, hp, rfl⟩ := hplace
  refine ⟨C.tokenPath?_spot hviews hp, fun v hv => ?_⟩
  rcases C.mem_values_cases hviews hp hv with hleaf | ⟨p', hp', rfl⟩
  · exact tokenPath?_leaf hleaf
  · exact C.tokenPath?_spot hviews hp'

end Decoded

end Legible

end Heap

end TypeDescription
