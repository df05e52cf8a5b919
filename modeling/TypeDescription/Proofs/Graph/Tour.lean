import Mathlib.Data.Finset.Card
import Mathlib.Data.Finset.Range
import TypeDescription.Proofs.Graph.Encoding

/-!
# The depth-first walk of a graph

`Heap.Tours` describes the walk without an encoder: it works off an agenda of
stops, and at a container that was not met before it puts what lies inside in
front of the rest.  The stops it comes to, in order, are all that later proofs
need: `firstVisit?` is the position of the first stop at a container.

Every graph has a walk (`exists_tours`), since each step enters a container or
takes a stop off the agenda.  `Covers` says which part of the walk one encoding
step is responsible for; `run_encodeAt_root` concludes that the encoder fails
exactly if the walk first comes to some container too deep.
-/

namespace TypeDescription

variable {X : Type}

/-- The container that a value is. -/
def Value.ref? : Value X → Option Ref
  | .node r => some r
  | _ => none

/-- A position that a walk comes to, by the steps back to the root, and the value
found there. -/
abbrev Stop (X : Type) : Type :=
  Trail × Value X

/-- The stops at containers. -/
def visits (stops : List (Stop X)) : Seen :=
  stops.filterMap fun stop => stop.2.ref?.map fun r => (r, stop.1)

/-- The position at which a walk first comes to a container. -/
def firstVisit? (stops : List (Stop X)) (r : Ref) : Option Trail :=
  (visits stops).lookup r

@[simp]
theorem firstVisit?_nil (r : Ref) : firstVisit? ([] : List (Stop X)) r = none :=
  rfl

theorem firstVisit?_append (here later : List (Stop X)) (r : Ref) :
    firstVisit? (here ++ later) r = (firstVisit? here r).or (firstVisit? later r) := by
  simp only [firstVisit?, visits, List.filterMap_append, List.lookup_append]

theorem firstVisit?_cons_self (trail : Trail) (r : Ref) (stops : List (Stop X)) :
    firstVisit? ((trail, .node r) :: stops) r = some trail := by
  simp [firstVisit?, visits, Value.ref?]

theorem firstVisit?_cons_of_ne {stop : Stop X} {r : Ref} (hne : stop.2 ≠ .node r)
    (stops : List (Stop X)) : firstVisit? (stop :: stops) r = firstVisit? stops r := by
  obtain ⟨trail, v⟩ := stop
  cases v with
  | node s =>
    have hs : (r == s) = false := beq_eq_false_iff_ne.2 fun heq => hne (heq ▸ rfl)
    simp [firstVisit?, visits, Value.ref?, List.lookup_cons, hs]
  | _ => rfl

@[simp]
theorem visits_append (here later : List (Stop X)) :
    visits (here ++ later) = visits here ++ visits later :=
  List.filterMap_append

@[simp]
theorem mem_visits {stops : List (Stop X)} {r : Ref} {trail : Trail} :
    (r, trail) ∈ visits stops ↔ (trail, Value.node r) ∈ stops := by
  simp only [visits, List.mem_filterMap]
  constructor
  · rintro ⟨⟨trail', v⟩, hstop, hvisit⟩
    cases v <;> simp only [Value.ref?, Option.map_some, Option.map_none, Option.some.injEq,
      Prod.mk.injEq, reduceCtorEq] at hvisit
    obtain ⟨rfl, rfl⟩ := hvisit
    exact hstop
  · exact fun hstop => ⟨_, hstop, rfl⟩

/-- A walk comes to a container where it first comes to it. -/
theorem mem_of_firstVisit? {stops : List (Stop X)} {r : Ref} {first : Trail}
    (h : firstVisit? stops r = some first) : (first, Value.node r) ∈ stops :=
  mem_visits.1 (Heap.lookup_eq_some_mem h)

/-- A walk that comes to a container first comes to it somewhere. -/
theorem exists_firstVisit? {stops : List (Stop X)} {trail : Trail} {r : Ref}
    (h : (trail, Value.node r) ∈ stops) : ∃ first, firstVisit? stops r = some first :=
  Option.isSome_iff_exists.1 (Heap.lookup_isSome_iff.2 (List.mem_map_of_mem (mem_visits.2 h)))

namespace Heap

/-- What lies in a container, each value at its own position. -/
def inside (h : Heap X) (trail : Trail) (r : Ref) : List (Stop X) :=
  (h.view r).slots.map fun slot => (slot.1 :: trail, slot.2)

/-- The depth-first walk of an agenda: what it comes to, in order, when the
containers `met` were entered before. -/
inductive Tours (h : Heap X) : List Ref → List (Stop X) → List (Stop X) → Prop
  | done {met : List Ref} : Tours h met [] []
  | pass {met : List Ref} {stop : Stop X} {rest stops : List (Stop X)} :
      (∀ r, stop.2 = .node r → r ∈ met) → Tours h met rest stops →
        Tours h met (stop :: rest) (stop :: stops)
  | enter {met : List Ref} {trail : Trail} {r : Ref} {rest stops : List (Stop X)} : r ∉ met →
      Tours h (r :: met) (h.inside trail r ++ rest) stops →
        Tours h met ((trail, .node r) :: rest) ((trail, .node r) :: stops)

section Tours

variable {h : Heap X} {met : List Ref} {agenda rest stops : List (Stop X)}

theorem Tours.nil_inv (T : h.Tours met [] stops) : stops = [] := by
  cases T
  rfl

/-- A walk takes the first stop of its agenda first. -/
theorem Tours.head {stop : Stop X} (T : h.Tours met (stop :: rest) stops) :
    ∃ later, stops = stop :: later := by
  cases T <;> exact ⟨_, rfl⟩

theorem Tours.pass_inv {stop : Stop X} (T : h.Tours met (stop :: rest) stops)
    (hmet : ∀ r, stop.2 = .node r → r ∈ met) :
    ∃ later, stops = stop :: later ∧ h.Tours met rest later := by
  cases T with
  | pass _ T => exact ⟨_, rfl, T⟩
  | enter hr _ => exact absurd (hmet _ rfl) hr

theorem Tours.enter_inv {trail : Trail} {r : Ref}
    (T : h.Tours met ((trail, .node r) :: rest) stops) (hr : r ∉ met) :
    ∃ later, stops = (trail, .node r) :: later ∧
      h.Tours (r :: met) (h.inside trail r ++ rest) later := by
  cases T with
  | pass hmet _ => exact absurd (hmet r rfl) hr
  | enter _ T => exact ⟨_, rfl, T⟩

/-! ## Every graph has a walk -/

/-- The containers of the heap that were not entered yet. -/
def unmet (h : Heap X) (met : List Ref) : Finset Ref :=
  (Finset.range h.size).filter (· ∉ met)

theorem view_of_size_le {r : Ref} (hr : h.size ≤ r) : h.view r = .list [] := by
  have hnone : h.cell? r = none := Array.getElem?_eq_none hr
  simp [view, hnone]

theorem inside_of_size_le {trail : Trail} {r : Ref} (hr : h.size ≤ r) : h.inside trail r = [] := by
  simp [inside, view_of_size_le hr, View.slots]

/-- The walk ends on every graph: each container is entered once. -/
theorem exists_tours (h : Heap X) (met : List Ref) (agenda : List (Stop X)) :
    ∃ stops, h.Tours met agenda stops := by
  refine agenda_induct (C := fun met agenda => ∃ stops, h.Tours met agenda stops)
    (Finset.range h.size) (fun _ => ⟨[], .done⟩) (fun met stop rest => ?_) met agenda
  obtain ⟨trail, v⟩ := stop
  by_cases hmet : ∀ r, v = .node r → r ∈ met
  · exact .inl fun ⟨_, T⟩ => ⟨_, .pass hmet T⟩
  · simp only [not_forall] at hmet
    obtain ⟨r, rfl, hr⟩ := hmet
    exact .inr ⟨r, h.inside trail r, hr, fun hlt => inside_of_size_le (by simpa using hlt),
      fun ⟨_, T⟩ => ⟨_, .enter hr T⟩⟩

/-! ## What a walk comes to -/

/-- A walk comes to all of its agenda. -/
theorem Tours.subset (T : h.Tours met agenda stops) : agenda ⊆ stops := by
  induction T with
  | done => exact List.Subset.refl _
  | pass _ _ ih => exact List.cons_subset_cons _ ih
  | enter _ _ ih =>
    exact List.cons_subset_cons _ (fun stop hstop => ih (List.mem_append_right _ hstop))

/-- A walk comes to everything inside a container that it enters. -/
theorem Tours.inside_subset (T : h.Tours met agenda stops) {r : Ref} (hr : r ∉ met)
    {first : Trail} (hfirst : firstVisit? stops r = some first) : h.inside first r ⊆ stops := by
  induction T with
  | done => cases hfirst
  | pass hmet _ ih =>
    rw [firstVisit?_cons_of_ne fun heq => hr (hmet r heq)] at hfirst
    exact fun stop hstop => List.mem_cons_of_mem _ (ih hr hfirst hstop)
  | @enter met trail s rest stops _ T ih =>
    by_cases heq : s = r
    · subst heq
      rw [firstVisit?_cons_self] at hfirst
      obtain rfl := Option.some.inj hfirst
      exact fun stop hstop => List.mem_cons_of_mem _ (T.subset (List.mem_append_left _ hstop))
    · rw [firstVisit?_cons_of_ne fun hnode => heq (Value.node.inj hnode)] at hfirst
      have hr' : r ∉ s :: met := by
        simp only [List.mem_cons, not_or]
        exact ⟨fun h => heq h.symm, hr⟩
      exact fun stop hstop => List.mem_cons_of_mem _ (ih hr' hfirst hstop)

/-- What a walk comes to stands on its agenda, or lies inside a container where the
walk first came to it. -/
theorem Tours.origin (T : h.Tours met agenda stops) {stop : Stop X} (hstop : stop ∈ stops) :
    stop ∈ agenda ∨ ∃ r first, r ∉ met ∧ firstVisit? stops r = some first ∧
      stop ∈ h.inside first r := by
  induction T with
  | done => cases hstop
  | pass hmet _ ih =>
    rcases List.mem_cons.1 hstop with rfl | hstop
    · exact .inl List.mem_cons_self
    · rcases ih hstop with hrest | ⟨r, first, hr, hfirst, hin⟩
      · exact .inl (List.mem_cons_of_mem _ hrest)
      · refine .inr ⟨r, first, hr, ?_, hin⟩
        rw [firstVisit?_cons_of_ne fun heq => hr (hmet r heq), hfirst]
  | @enter met trail s rest stops hs T ih =>
    rcases List.mem_cons.1 hstop with rfl | hstop
    · exact .inl List.mem_cons_self
    · rcases ih hstop with hagenda | ⟨r, first, hr, hfirst, hin⟩
      · rcases List.mem_append.1 hagenda with hin | hrest
        · exact .inr ⟨s, trail, hs, firstVisit?_cons_self _ _ _, hin⟩
        · exact .inl (List.mem_cons_of_mem _ hrest)
      · simp only [List.mem_cons, not_or] at hr
        refine .inr ⟨r, first, hr.2, ?_, hin⟩
        rw [firstVisit?_cons_of_ne fun heq => hr.1 (Value.node.inj heq).symm, hfirst]

end Tours

/-! ## The walk of the encoder -/

/-- What an encoding did that began with `seen`, the walk ahead of it being `stops`
and what remains after it `rest`: it went through the first stops and recorded
where it met containers first, all of them above the bound; or it failed at one
that is not. -/
inductive Covers {α : Type} (h : Heap X) (limit : UInt32) (seen : Seen) (bound : Nat)
    (rest stops : List (Stop X)) : Except CodecError (α × Seen) → Prop
  | ok {a : α} {seen' : Seen} {here later : List (Stop X)} : stops = here ++ later →
      h.Tours (seen'.map Prod.fst) rest later →
      (∀ r, seen'.lookup r = (seen.lookup r).or (firstVisit? here r)) →
      (∀ r first, seen.lookup r = none → firstVisit? here r = some first → first.length < bound) →
      Covers h limit seen bound rest stops (.ok (a, seen'))
  | error {r : Ref} {first : Trail} {here later : List (Stop X)} : stops = here ++ later →
      seen.lookup r = none → firstVisit? here r = some first → bound ≤ first.length →
      Covers h limit seen bound rest stops (.error (.depthExceeded limit))

section Covers

variable {α β : Type} {h : Heap X} {limit : UInt32} {seen : Seen} {bound : Nat}
  {rest stops : List (Stop X)}

/-- A step that records nothing goes on to the next stop. -/
theorem Covers.skip {stop : Stop X} {later : List (Stop X)} {a : α} (hstops : stops = stop :: later)
    (T : h.Tours (seen.map Prod.fst) rest later)
    (hseen : ∀ r, stop.2 = .node r → (seen.lookup r).isSome) :
    h.Covers limit seen bound rest stops (.ok (a, seen)) := by
  have hfirst : ∀ r, seen.lookup r = none → firstVisit? [stop] r = none := by
    intro r hnone
    rw [firstVisit?_cons_of_ne, firstVisit?_nil]
    intro hnode
    have hsome := hseen r hnode
    rw [hnone] at hsome
    cases hsome
  have hsplit : stops = [stop] ++ later := hstops
  refine .ok hsplit T (fun r => ?_) fun r first hnone hsome => ?_
  · cases hlookup : seen.lookup r with
    | some first => rfl
    | none => rw [hfirst r hlookup]; rfl
  · rw [hfirst r hnone] at hsome
    cases hsome

/-- One encoding after the other goes through the stops of both. -/
theorem Covers.bind {m : Encoder α} {f : α → Encoder β} {mid : List (Stop X)}
    (hm : h.Covers limit seen bound mid stops (m.run seen))
    (hf : ∀ a seen' stops', h.Tours (seen'.map Prod.fst) mid stops' →
      h.Covers limit seen' bound rest stops' ((f a).run seen')) :
    h.Covers limit seen bound rest stops ((m >>= f).run seen) := by
  rw [StateT.run_bind]
  generalize m.run seen = outcome at hm
  cases hm with
  | error hstops hnone hfirst hlen => exact .error hstops hnone hfirst hlen
  | @ok a seen' here later hstops T hlookup hbound =>
    have hnext := hf a seen' later T
    show h.Covers limit seen bound rest stops ((f a).run seen')
    generalize (f a).run seen' = outcome at hnext
    -- what the second part meets first, the first part did not meet
    have hsplit : ∀ r, seen'.lookup r = none →
        seen.lookup r = none ∧ firstVisit? here r = none := by
      intro r hnone
      rw [hlookup r, Option.or_eq_none_iff] at hnone
      exact hnone
    cases hnext with
    | @error r first here' later' hstops' hnone hfirst hlen =>
      obtain ⟨hnone, hhere⟩ := hsplit r hnone
      have hsplit : stops = (here ++ here') ++ later' := by rw [hstops, hstops', List.append_assoc]
      refine .error hsplit hnone ?_ hlen
      rw [firstVisit?_append, hhere, hfirst]
      rfl
    | @ok b seen'' here' later' hstops' T' hlookup' hbound' =>
      have hsplit : stops = (here ++ here') ++ later' := by rw [hstops, hstops', List.append_assoc]
      refine .ok hsplit T' (fun r => ?_) fun r first hnone hfirst => ?_
      · rw [hlookup', hlookup, firstVisit?_append, Option.or_assoc]
      · rw [firstVisit?_append] at hfirst
        cases hhere : firstVisit? here r with
        | some first' =>
          rw [hhere, Option.some_or] at hfirst
          exact hbound r first hnone (hhere.trans hfirst)
        | none =>
          rw [hhere, Option.none_or] at hfirst
          refine hbound' r first ?_ hfirst
          rw [hlookup, hnone, hhere]
          rfl

theorem Covers.pure {a : α} (T : h.Tours (seen.map Prod.fst) rest stops) :
    h.Covers limit seen bound rest stops ((Pure.pure a : Encoder α).run seen) :=
  .ok (List.nil_append stops).symm T (fun r => by simp) fun r first _ hfirst => by simp at hfirst

/-- The encoding of a list of slots goes through their stops. -/
theorem Covers.mapM {f : Stop X → Encoder α} {l : List (Stop X)}
    (hf : ∀ stop ∈ l, ∀ seen rest stops, h.Tours (seen.map Prod.fst) (stop :: rest) stops →
      h.Covers limit seen bound rest stops ((f stop).run seen))
    (T : h.Tours (seen.map Prod.fst) (l ++ rest) stops) :
    h.Covers limit seen bound rest stops ((l.mapM f).run seen) := by
  induction l generalizing seen stops with
  | nil => exact .pure T
  | cons stop l ih =>
    rw [List.mapM_cons]
    refine .bind (hf stop List.mem_cons_self _ _ _ T) fun a seen' stops' T' => ?_
    refine .bind (ih (fun s hs => hf s (List.mem_cons_of_mem _ hs)) T')
      fun as seen'' stops'' T'' => ?_
    exact .pure T''

/-- The encoding of a container that is met first begins one level further up. -/
theorem Covers.enter {r : Ref} {trail : Trail} {later : List (Stop X)} {room : Nat}
    {outcome : Except CodecError (α × Seen)} (hnone : seen.lookup r = none)
    (C : h.Covers limit ((r, trail) :: seen) (trail.length + 1 + room) rest later outcome) :
    h.Covers limit seen (trail.length + (room + 1)) rest ((trail, .node r) :: later) outcome := by
  have hlookup : ∀ s, ((r, trail) :: seen).lookup s = none →
      seen.lookup s = none ∧ Value.node (X := X) r ≠ .node s := by
    intro s hs
    rw [List.lookup_cons] at hs
    split at hs
    · cases hs
    · next heq => exact ⟨hs, fun hnode => by simp [Value.node.inj hnode] at heq⟩
  cases C with
  | @error s first here later hstops hs hfirst hlen =>
    obtain ⟨hs, hne⟩ := hlookup s hs
    have hfirst' : firstVisit? ((trail, .node r) :: here) s = some first := by
      rw [firstVisit?_cons_of_ne hne, hfirst]
    exact .error (by rw [hstops, List.cons_append]) hs hfirst' (by omega)
  | @ok a seen' here later' hstops T hall hbound =>
    have hsplit : (trail, Value.node r) :: later = ((trail, Value.node r) :: here) ++ later' := by
      rw [hstops, List.cons_append]
    refine .ok hsplit T (fun s => ?_) ?_
    · rw [hall s]
      by_cases hs : r = s
      · subst hs
        rw [hnone, firstVisit?_cons_self, List.lookup_cons_self]
        rfl
      · have hs' : (s == r) = false := beq_eq_false_iff_ne.2 fun heq => hs heq.symm
        rw [firstVisit?_cons_of_ne fun hnode => hs (Value.node.inj hnode), List.lookup_cons, hs']
    · intro s first hs hfirst
      by_cases heq : r = s
      · subst heq
        rw [firstVisit?_cons_self] at hfirst
        obtain rfl := Option.some.inj hfirst
        omega
      · rw [firstVisit?_cons_of_ne fun hnode => heq (Value.node.inj hnode)] at hfirst
        have hs' : (s == r) = false := beq_eq_false_iff_ne.2 fun h => heq h.symm
        have := hbound s first (by rw [List.lookup_cons, hs', hs]) hfirst
        omega

/-- Only a container met first makes the encoder go on. -/
private theorem covers_of_first {room : Nat} {trail : Trail} {v : Value X}
    (T : h.Tours (seen.map Prod.fst) ((trail, v) :: rest) stops)
    (hfirst : ∀ r, v = .node r → seen.lookup r = none →
      h.Covers limit seen bound rest stops ((h.encodeAt limit room trail v).run seen)) :
    h.Covers limit seen bound rest stops ((h.encodeAt limit room trail v).run seen) := by
  cases hv : v.isContainer with
  | false =>
    have hnode : ∀ r, v ≠ .node r := by
      rintro r rfl
      cases hv
    obtain ⟨later, hstops, T'⟩ := T.pass_inv fun r hr => absurd hr (hnode r)
    rw [encodeAt_leaf hv]
    exact .skip hstops T' fun r hr => absurd hr (hnode r)
  | true =>
    obtain ⟨r, rfl⟩ := Value.exists_eq_node hv
    cases hl : seen.lookup r with
    | none => exact hfirst r rfl hl
    | some first =>
      have hmem : r ∈ seen.map Prod.fst := List.mem_map_of_mem (lookup_eq_some_mem hl)
      obtain ⟨later, hstops, T'⟩ := T.pass_inv fun s hs => Value.node.inj hs ▸ hmem
      rw [run_encodeAt_seen hl]
      refine .skip hstops T' fun s hs => ?_
      rw [← Value.node.inj hs, hl]
      rfl

/-- The slots of a container are encoded as the stops inside it. -/
theorem mapM_slots (h : Heap X) (limit : UInt32) (room : Nat) (trail : Trail) (r : Ref) :
    ((h.view r).slots.mapM fun slot => h.encodeAt limit room (slot.1 :: trail) slot.2) =
      (h.inside trail r).mapM fun stop => h.encodeAt limit room stop.1 stop.2 := by
  rw [inside, List.mapM_map]
  rfl

/-- The encoder walks depth first, and fails at the first container that lies too
deep. -/
theorem covers_encodeAt (h : Heap X) (limit : UInt32) (room : Nat) (trail : Trail) (v : Value X)
    (seen : Seen) (rest stops : List (Stop X))
    (T : h.Tours (seen.map Prod.fst) ((trail, v) :: rest) stops) :
    h.Covers limit seen (trail.length + room) rest stops
      ((h.encodeAt limit room trail v).run seen) := by
  induction room generalizing trail v seen rest stops with
  | zero =>
    refine covers_of_first T fun r hv hl => ?_
    subst hv
    obtain ⟨later, rfl, _⟩ := T.enter_inv (lookup_eq_none_notMem hl)
    rw [run_encodeAt_first hl]
    have hsplit : (trail, Value.node r) :: later = [(trail, Value.node r)] ++ later := rfl
    exact .error hsplit hl (firstVisit?_cons_self _ _ _) (Nat.le_refl _)
  | succ room ih =>
    refine covers_of_first T fun r hv hl => ?_
    subst hv
    obtain ⟨later, rfl, T'⟩ := T.enter_inv (lookup_eq_none_notMem hl)
    rw [run_encodeAt_first hl]
    refine .enter hl ?_
    simp only [encodeView_eq, mapM_slots]
    refine .bind (.mapM (fun stop hstop seen rest stops T => ?_) T') fun docs seen' stops' T'' =>
      .pure T''
    obtain ⟨slot, _, rfl⟩ := List.mem_map.1 hstop
    have hlen : (slot.1 :: trail).length + room = trail.length + 1 + room := by simp
    exact hlen ▸ ih _ _ _ _ _ T

end Covers

/-- The encoding of a graph succeeds exactly if the walk first comes to each
container fewer than `limit` steps below the root, and it records where. -/
theorem run_encodeAt_root {h : Heap X} (limit : UInt32) {x : Value X} {tour : List (Stop X)}
    (T : h.Tours [] [([], x)] tour) :
    ((∀ r first, firstVisit? tour r = some first → first.length < limit.toNat) ∧
      ∃ e seen, (h.encodeAt limit limit.toNat [] x).run [] = .ok (e, seen) ∧
        ∀ r, seen.lookup r = firstVisit? tour r) ∨
    ((∃ r first, firstVisit? tour r = some first ∧ limit.toNat ≤ first.length) ∧
      (h.encodeAt limit limit.toNat [] x).run [] = .error (.depthExceeded limit)) := by
  have C := covers_encodeAt h limit limit.toNat [] x [] [] tour T
  simp only [List.length_nil, Nat.zero_add] at C
  generalize (h.encodeAt limit limit.toNat [] x).run [] = outcome at C
  cases C with
  | @ok e seen here later htour T' hlookup hbound =>
    obtain rfl := T'.nil_inv
    rw [List.append_nil] at htour
    subst htour
    refine .inl ⟨fun r first => hbound r first rfl, e, seen, rfl, fun r => ?_⟩
    rw [hlookup r]
    rfl
  | @error r first here later htour _ hfirst hlen =>
    refine .inr ⟨⟨r, first, ?_, hlen⟩, rfl⟩
    rw [htour, firstVisit?_append, hfirst]
    rfl

end Heap
end TypeDescription
