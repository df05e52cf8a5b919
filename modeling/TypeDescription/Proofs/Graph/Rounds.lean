import TypeDescription.Proofs.Graph.Addresses
import TypeDescription.Proofs.Graph.Decoding

/-!
# The walk of the decoder

`Heap.Rounds` is the depth-first walk that decoding makes, without its changes: it works off
an agenda of addresses and goes into a container that it was not in before, unless the value
there is a token.  `Heap.Itinerary` lists the addresses that the walk of a graph comes to, in
order: each position of each container that is entered, once (`mem_itinerary_iff`,
`nodup_of_itinerary`).
-/

namespace TypeDescription

variable {X : Type}

theorem Value.isContainer_of_ref?_eq_none {v : Value X} (h : v.ref? = none) :
    v.isContainer = false := by
  cases v with
  | node r => cases h
  | _ => rfl

namespace Heap

/-! ## The walk -/

/-- The container that the walk goes into at an address, behind exempt markers.  It goes into
no token. -/
def entrance? (h : Heap X) (p : Address) : Option Ref :=
  match h.token? p with
  | some _ => none
  | none => (h.read? p).bind fun v => v.unwrap.ref?

/-- The positions of a container in order. -/
def addresses (h : Heap X) (r : Ref) : List Address :=
  (List.range (h.slots r).length).map (r, ·)

/-- The positions of all containers. -/
def positions (h : Heap X) : List Address :=
  (List.range h.size).flatMap h.addresses

/-- The depth-first walk of an agenda: the addresses that it comes to, in order, when the
containers `met` were entered before. -/
inductive Rounds (h : Heap X) : List Ref → List Address → List Address → Prop
  | done {met : List Ref} : Rounds h met [] []
  | pass {met : List Ref} {p : Address} {rest stops : List Address} :
      (∀ r, h.entrance? p = some r → r ∈ met) → Rounds h met rest stops →
        Rounds h met (p :: rest) (p :: stops)
  | enter {met : List Ref} {p : Address} {r : Ref} {rest stops : List Address} :
      h.entrance? p = some r → r ∉ met → Rounds h (r :: met) (h.addresses r ++ rest) stops →
        Rounds h met (p :: rest) (p :: stops)

/-- The containers that decoding enters. -/
inductive Enters (h : Heap X) (root : Value X) : Ref → Prop
  | root {r : Ref} : root.unwrap = .node r → Enters h root r
  | inside {p : Address} {r : Ref} : Enters h root p.1 → h.entrance? p = some r → Enters h root r

/-- The addresses that decoding comes to, in order. -/
def Itinerary (h : Heap X) (root : Value X) (stops : List Address) : Prop :=
  h.Rounds root.unwrap.ref?.toList (root.unwrap.ref?.toList.flatMap h.addresses) stops

theorem mem_addresses {h : Heap X} {r : Ref} {p : Address} :
    p ∈ h.addresses r ↔ p.1 = r ∧ p.2 < (h.slots r).length := by
  obtain ⟨s, i⟩ := p
  simp only [addresses, List.mem_map, List.mem_range, Prod.mk.injEq]
  constructor
  · rintro ⟨j, hj, rfl, rfl⟩
    exact ⟨rfl, hj⟩
  · rintro ⟨rfl, hi⟩
    exact ⟨i, hi, rfl, rfl⟩

/-- A missing container has no positions. -/
theorem addresses_of_size_le {h : Heap X} {r : Ref} (hr : h.size ≤ r) : h.addresses r = [] := by
  have hnone : h.cell? r = none := Array.getElem?_eq_none hr
  simp [addresses, slots, hnone]

theorem read?_ne_none_iff {h : Heap X} {p : Address} :
    h.read? p ≠ none ↔ p ∈ h.addresses p.1 := by
  simp [mem_addresses, read?]

theorem mem_positions {h : Heap X} {p : Address} {token : String × Path}
    (hp : h.token? p = some token) : p ∈ h.positions := by
  obtain ⟨v, hv, _⟩ := Option.bind_eq_some_iff.1 hp
  have hmem := read?_ne_none_iff.1 (show h.read? p ≠ none by simp [hv])
  refine List.mem_flatMap.2 ⟨p.1, List.mem_range.2 ?_, hmem⟩
  by_contra hlt
  rw [addresses_of_size_le (Nat.le_of_not_lt hlt)] at hmem
  cases hmem

theorem Retains.addresses_eq {h k : Heap X} (hk : h.Retains k) (r : Ref) :
    k.addresses r = h.addresses r := by
  rw [addresses, addresses, hk.length_slots]

theorem nodup_addresses (h : Heap X) (r : Ref) : (h.addresses r).Nodup :=
  List.nodup_range.map fun _ _ heq => (Prod.mk.inj heq).2

section Rounds

variable {h : Heap X} {root : Value X} {met : List Ref} {agenda rest stops : List Address}

theorem entrance?_eq_some_iff {p : Address} {r : Ref} :
    h.entrance? p = some r ↔ h.token? p = none ∧ ∃ v, h.read? p = some v ∧ v.unwrap = .node r := by
  unfold entrance?
  cases h.token? p with
  | none => simp [Option.bind_eq_some_iff, Value.ref?_eq_some_iff]
  | some token => simp

/-- The walk ends on every graph: each container is entered once. -/
theorem exists_rounds (h : Heap X) (met : List Ref) (agenda : List Address) :
    ∃ stops, h.Rounds met agenda stops := by
  refine agenda_induct (C := fun met agenda => ∃ stops, h.Rounds met agenda stops)
    (Finset.range h.size) (fun _ => ⟨[], .done⟩) (fun met p rest => ?_) met agenda
  by_cases hmet : ∀ r, h.entrance? p = some r → r ∈ met
  · exact .inl fun ⟨_, R⟩ => ⟨_, .pass hmet R⟩
  · simp only [not_forall] at hmet
    obtain ⟨r, hr, hnew⟩ := hmet
    exact .inr ⟨r, h.addresses r, hnew, fun hlt => addresses_of_size_le (by simpa using hlt),
      fun ⟨_, R⟩ => ⟨_, .enter hr hnew R⟩⟩

/-- A walk takes the first address of its agenda first. -/
theorem Rounds.head {p : Address} (R : h.Rounds met (p :: rest) stops) :
    ∃ later, stops = p :: later := by
  cases R <;> exact ⟨_, rfl⟩

theorem Rounds.pass_inv {p : Address} (R : h.Rounds met (p :: rest) stops)
    (hmet : ∀ r, h.entrance? p = some r → r ∈ met) :
    ∃ later, stops = p :: later ∧ h.Rounds met rest later := by
  cases R with
  | pass _ R => exact ⟨_, rfl, R⟩
  | enter hr hnew _ => exact absurd (hmet _ hr) hnew

theorem Rounds.enter_inv {p : Address} {r : Ref} (R : h.Rounds met (p :: rest) stops)
    (hr : h.entrance? p = some r) (hnew : r ∉ met) :
    ∃ later, stops = p :: later ∧ h.Rounds (r :: met) (h.addresses r ++ rest) later := by
  cases R with
  | pass hmet _ => exact absurd (hmet r hr) hnew
  | enter hr' _ R =>
    obtain rfl := Option.some.inj (hr.symm.trans hr')
    exact ⟨_, rfl, R⟩

theorem Rounds.subset (R : h.Rounds met agenda stops) : agenda ⊆ stops := by
  induction R with
  | done => exact List.Subset.refl _
  | pass _ _ ih => exact List.cons_subset_cons _ ih
  | enter _ _ _ ih =>
    exact List.cons_subset_cons _ fun p hp => ih (List.mem_append_right _ hp)

/-- What holds along the agenda and is passed on into containers holds all along the walk. -/
theorem Rounds.forall_mem {P : Address → Prop} (R : h.Rounds met agenda stops)
    (hagenda : ∀ p ∈ agenda, P p)
    (hinside : ∀ p r, P p → h.entrance? p = some r → ∀ q ∈ h.addresses r, P q) :
    ∀ p ∈ stops, P p := by
  induction R with
  | done => exact hagenda
  | pass _ _ ih =>
    obtain ⟨hp, hrest⟩ := List.forall_mem_cons.1 hagenda
    exact List.forall_mem_cons.2 ⟨hp, ih hrest⟩
  | enter hr _ _ ih =>
    obtain ⟨hp, hrest⟩ := List.forall_mem_cons.1 hagenda
    exact List.forall_mem_cons.2 ⟨hp, ih (List.forall_mem_append.2 ⟨hinside _ _ hp hr, hrest⟩)⟩

/-- The walk comes to all positions of a container that it can go into and was not in
before. -/
theorem Rounds.addresses_subset (R : h.Rounds met agenda stops) {p : Address} {r : Ref}
    (hp : p ∈ stops) (hr : h.entrance? p = some r) (hnew : r ∉ met) : h.addresses r ⊆ stops := by
  induction R with
  | done => cases hp
  | pass hmet _ ih =>
    rcases List.mem_cons.1 hp with rfl | hp
    · exact absurd (hmet r hr) hnew
    · exact fun q hq => List.mem_cons_of_mem _ (ih hp hnew hq)
  | @enter met p' s rest stops hs _ R ih =>
    by_cases hsr : r = s
    · subst hsr
      exact fun q hq => List.mem_cons_of_mem _ (R.subset (List.mem_append_left _ hq))
    · rcases List.mem_cons.1 hp with rfl | hp
      · exact absurd (Option.some.inj (hr.symm.trans hs)) hsr
      · exact fun q hq => List.mem_cons_of_mem _ (ih hp (by simp [hsr, hnew]) hq)

/-- The walk comes to no address twice, and to those of its agenda and of containers that it
enters only. -/
theorem Rounds.nodup (R : h.Rounds met agenda stops) (hagenda : agenda.Nodup)
    (hmet : ∀ p ∈ agenda, p.1 ∈ met) :
    stops.Nodup ∧ ∀ p ∈ stops, p ∈ agenda ∨ p.1 ∉ met := by
  induction R with
  | done => exact ⟨hagenda, fun p hp => .inl hp⟩
  | @pass met p rest stops _ R ih =>
    obtain ⟨hp, hrest⟩ := List.nodup_cons.1 hagenda
    obtain ⟨hpmet, hmet⟩ := List.forall_mem_cons.1 hmet
    obtain ⟨hnodup, horigin⟩ := ih hrest hmet
    refine ⟨List.nodup_cons.2 ⟨fun hmem => ?_, hnodup⟩, ?_⟩
    · exact (horigin p hmem).elim hp fun hnot => hnot hpmet
    · exact List.forall_mem_cons.2 ⟨.inl List.mem_cons_self, fun q hq =>
        (horigin q hq).imp_left (List.mem_cons_of_mem _)⟩
  | @enter met p r rest stops _ hnew R ih =>
    obtain ⟨hp, hrest⟩ := List.nodup_cons.1 hagenda
    obtain ⟨hpmet, hmet⟩ := List.forall_mem_cons.1 hmet
    have hapart : (h.addresses r).Disjoint rest := fun q hq hq' =>
      hnew ((mem_addresses.1 hq).1 ▸ hmet q hq')
    obtain ⟨hnodup, horigin⟩ := ih ((nodup_addresses h r).append hrest hapart)
      (List.forall_mem_append.2 ⟨fun q hq => (mem_addresses.1 hq).1 ▸ List.mem_cons_self,
        fun q hq => List.mem_cons_of_mem _ (hmet q hq)⟩)
    have horigin' : ∀ q ∈ stops, q ∈ rest ∨ q.1 ∉ met := by
      intro q hq
      rcases horigin q hq with hq | hnot
      · exact (List.mem_append.1 hq).symm.imp_right fun hq => (mem_addresses.1 hq).1 ▸ hnew
      · exact .inr fun hmem => hnot (List.mem_cons_of_mem _ hmem)
    refine ⟨List.nodup_cons.2 ⟨fun hmem => ?_, hnodup⟩, ?_⟩
    · exact (horigin' p hmem).elim hp fun hnot => hnot hpmet
    · exact List.forall_mem_cons.2 ⟨.inl List.mem_cons_self, fun q hq =>
        (horigin' q hq).imp_left (List.mem_cons_of_mem _)⟩

/-! ## The walk of a graph -/

theorem exists_itinerary (h : Heap X) (root : Value X) : ∃ stops, h.Itinerary root stops :=
  exists_rounds h _ _

theorem nodup_of_itinerary (R : h.Itinerary root stops) : stops.Nodup := by
  refine (R.nodup ?_ ?_).1
  · cases root.unwrap.ref? with
    | none => exact List.nodup_nil
    | some r => simpa using nodup_addresses h r
  · intro p hp
    obtain ⟨r, hr, hp⟩ := List.mem_flatMap.1 hp
    exact (mem_addresses.1 hp).1 ▸ hr

/-- Decoding comes to the positions of the containers that it enters. -/
theorem mem_itinerary_iff (R : h.Itinerary root stops) {p : Address} :
    p ∈ stops ↔ h.Enters root p.1 ∧ p ∈ h.addresses p.1 := by
  constructor
  · have hall : ∀ r, h.Enters root r → ∀ q ∈ h.addresses r,
        h.Enters root q.1 ∧ q ∈ h.addresses q.1 := by
      intro r hr q hq
      rw [(mem_addresses.1 hq).1]
      exact ⟨hr, hq⟩
    refine R.forall_mem (P := fun q => h.Enters root q.1 ∧ q ∈ h.addresses q.1) ?_ ?_ p
    · intro q hq
      obtain ⟨r, hr, hq⟩ := List.mem_flatMap.1 hq
      exact hall r (.root (Value.ref?_eq_some_iff.1 (Option.mem_toList.1 hr))) q hq
    · exact fun q r hq hr => hall r (.inside hq.1 hr)
  · intro hp
    have hsubset : ∀ r, h.Enters root r → h.addresses r ⊆ stops := by
      intro r hr
      induction hr with
      | root hroot =>
        intro q hq
        exact R.subset (List.mem_flatMap.2 ⟨_, by simp [hroot, Value.ref?], hq⟩)
      | @inside q r _ hr ih =>
        by_cases hroot : r ∈ root.unwrap.ref?.toList
        · exact fun q hq => R.subset (List.mem_flatMap.2 ⟨_, hroot, hq⟩)
        · refine R.addresses_subset (ih ?_) hr hroot
          obtain ⟨_, v, hv, _⟩ := entrance?_eq_some_iff.1 hr
          exact read?_ne_none_iff.1 (by simp [hv])
    exact hsubset _ hp.1 hp.2

end Rounds

end Heap

end TypeDescription
