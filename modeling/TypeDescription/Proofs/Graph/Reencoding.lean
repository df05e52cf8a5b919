import TypeDescription.Proofs.Graph.Legible

/-!
# Encoding undoes decoding

`encoded_decode` is the main result: a tree of arrays, objects, scalars and
tokens that decodes within a limit encodes within it again, to the same tree.
`Canonical` says for which trees: a token has nothing but the path of a
container that comes earlier in the depth-first walk, and no container stands
at two positions.

A canonical tree is legible, so decoding it produces the graph that it stands for.
`Rebuilds` is the invariant of the walk back: the encoder has recorded the
containers of the stops behind it, tokens left out.
-/

namespace TypeDescription

variable {X : Type}

namespace Heap

/-! ## Trees that could be encoded graphs -/

/-- The walk of a tree of arrays, objects and scalars in which each token has the path
of an earlier container that is no token, and nothing but the path. -/
structure Canonical (k : Heap X) (t : Value X) (tour : List (Stop X)) : Prop where
  walked : k.Tours [] [([], t)] tour
  alone : ((visits tour).map Prod.fst).Nodup
  built : ∀ trail r, (trail, .node r) ∈ tour → ∃ c, k.cell? r = some c ∧ c.Holds (k.view r)
  plain : ∀ trail v, (trail, v) ∈ tour → v.exempt? = none
  token : ∀ before trail v after, tour = before ++ (trail, v) :: after → k.tokenPath? v ≠ none →
    ∃ first u, (first, u) ∈ before ∧ u.isContainer = true ∧ k.tokenPath? u = none ∧
      k.content? v = some (tokenCell first)

section Canonical

variable {k : Heap X} {t v : Value X} {tour : List (Stop X)} {trail : Trail} {r : Ref}

/-- A canonical tree is legible. -/
theorem Canonical.legible (C : k.Canonical t tour) : k.Legible t tour where
  walked := C.walked
  alone a b r ha hb :=
    (Prod.mk.inj (List.inj_on_of_nodup_map C.alone (mem_visits.2 ha) (mem_visits.2 hb) rfl)).2
  built := C.built
  plain := C.plain
  token trail v hstop htoken := by
    obtain ⟨before, after, htour⟩ := List.append_of_mem hstop
    obtain ⟨first, u, hfirst, hu⟩ := C.token _ _ _ _ htour htoken
    exact ⟨first, u, by simp [htour, hfirst], hu⟩

/-- A token stands for a container that comes before it. -/
theorem Canonical.token_stop (C : k.Canonical t tour) {before after : List (Stop X)}
    (htour : tour = before ++ (trail, .node r) :: after) (htoken : k.tokenPath? (.node r) ≠ none) :
    ∃ first q, (first, .node q) ∈ before ∧ k.tokenPath? (.node q) = none ∧
      k.cell? r = some (tokenCell first) ∧ k.dereference t (.node r) = .node q := by
  obtain ⟨first, u, hfirst, hcont, hnone, hcell⟩ := C.token _ _ _ _ htour htoken
  obtain ⟨q, rfl⟩ := Value.exists_eq_node hcont
  have hstop : (trail, .node r) ∈ tour := by simp [htour]
  obtain ⟨_, hderef⟩ := C.legible.token_target hstop (by simp [htour, hfirst]) hnone hcell
  exact ⟨first, q, hfirst, hnone, hcell, hderef⟩

/-! ## Encoding again -/

/-- What an encoder has recorded after certain stops, tokens left out. -/
def noted (k : Heap X) (stops : List (Stop X)) : Seen :=
  ((visits stops).filter fun visit => (k.tokenPath? (.node visit.1)).isNone).reverse

/-- The containers that were entered after certain stops. -/
def entered (stops : List (Stop X)) : List Ref :=
  ((visits stops).map Prod.fst).reverse

theorem mem_noted {stops : List (Stop X)} :
    (r, trail) ∈ k.noted stops ↔ (trail, .node r) ∈ stops ∧ k.tokenPath? (.node r) = none := by
  simp [noted]

theorem mem_entered {stops : List (Stop X)} :
    r ∈ entered stops ↔ ∃ trail, (trail, .node r) ∈ stops := by
  simp [entered]

/-- An encoding goes through the first stops of the walk ahead and records what it should,
with a certain result. -/
inductive Rebuilds {α : Type} (k : Heap X) (before rest stops : List (Stop X))
    (made : α → Prop) : Except CodecError (α × Seen) → Prop
  | ok {a : α} {here later : List (Stop X)} : stops = here ++ later →
      k.Tours (entered (before ++ here)) rest later → made a →
        Rebuilds k before rest stops made (.ok (a, k.noted (before ++ here)))

/-- The encoding of a list of slots goes through their stops. -/
theorem Rebuilds.mapM {α : Type} {rel : Stop X → α → Prop} {f : Stop X → Encoder α}
    {l before rest stops : List (Stop X)}
    (hf : ∀ stop ∈ l, ∀ before rest stops, tour = before ++ stops →
      k.Tours (entered before) (stop :: rest) stops →
        k.Rebuilds before rest stops (rel stop) ((f stop).run (k.noted before)))
    (htour : tour = before ++ stops) (T : k.Tours (entered before) (l ++ rest) stops) :
    k.Rebuilds before rest stops (List.Forall₂ rel l) ((l.mapM f).run (k.noted before)) := by
  induction l generalizing before stops with
  | nil =>
    have hnil : k.noted before = k.noted (before ++ []) := by rw [List.append_nil]
    rw [hnil]
    exact .ok (List.nil_append _).symm (by rwa [List.append_nil]) .nil
  | cons stop l ih =>
    have hhead := hf stop List.mem_cons_self before (l ++ rest) stops htour T
    rw [List.mapM_cons, StateT.run_bind]
    generalize (f stop).run (k.noted before) = outcome at hhead
    cases hhead with
    | @ok a here later hstops T' ha =>
      have htour' : tour = (before ++ here) ++ later := by rw [htour, hstops, List.append_assoc]
      have htail := ih (fun s hs => hf s (List.mem_cons_of_mem _ hs)) htour' T'
      show k.Rebuilds before rest stops (List.Forall₂ rel (stop :: l))
        ((l.mapM f >>= fun as => pure (a :: as)).run (k.noted (before ++ here)))
      rw [StateT.run_bind]
      generalize (l.mapM f).run (k.noted (before ++ here)) = outcome at htail
      cases htail with
      | @ok as here' later' hlater T'' has =>
        rw [List.append_assoc] at T'' ⊢
        exact .ok (by rw [hstops, hlater, List.append_assoc]) T'' (.cons ha has)

/-- An array or object unfolds to the document of its values. -/
theorem unfolds_assemble {view : View X} {docs : List (Encoded X)}
    (hcell : k.cell? r = some view.cell) (hnames : view.names.Nodup)
    (hdocs : List.Forall₂ k.Unfolds view.values docs) :
    k.Unfolds (.node r) (view.assemble docs) := by
  cases view with
  | list items => exact .array hcell hdocs
  | named fields =>
    have hlen : docs.length = (View.named fields).slots.length := by
      rw [View.length_slots, hdocs.length_eq]
    obtain ⟨hassemble, hkeys, hvalues⟩ := View.assemble_named hnames hlen
    rw [hassemble]
    refine .object hcell ?_ ?_
    · rw [Table.keys, View.entries_cell hnames, hkeys]
    · rw [Table.values, View.entries_cell hnames, hvalues]
      exact hdocs

/-- A token unfolds to the document of a token. -/
theorem unfolds_token {first : Trail} (hcell : k.cell? r = some (tokenCell first)) :
    k.Unfolds (.node r) (Encoded.token first.reverse) :=
  .object hcell rfl (.cons (.leaf rfl) .nil)

/-- The containers ahead were not entered before. -/
theorem Canonical.notMem_entered (C : k.Canonical t tour) {before stops : List (Stop X)}
    (htour : tour = before ++ stops) (hstop : (trail, .node r) ∈ stops) : r ∉ entered before := by
  intro hmem
  obtain ⟨first, hfirst⟩ := mem_entered.1 hmem
  have hnodup := C.alone
  rw [htour, visits_append, List.map_append, List.nodup_append] at hnodup
  exact hnodup.2.2 r (List.mem_map_of_mem (mem_visits.2 hfirst)) r
    (List.mem_map_of_mem (mem_visits.2 hstop)) rfl

/-- A container was recorded where it was met. -/
theorem Canonical.lookup_noted (C : k.Canonical t tour) {before stops : List (Stop X)}
    (htour : tour = before ++ stops) {first : Trail} (hfirst : (first, .node r) ∈ before)
    (hnone : k.tokenPath? (.node r) = none) : (k.noted before).lookup r = some first := by
  have hnodup := C.alone
  rw [htour, visits_append, List.map_append, List.nodup_append] at hnodup
  refine lookup_of_mem ?_ (mem_noted.2 ⟨hfirst, hnone⟩)
  rw [noted, List.map_reverse, List.nodup_reverse]
  exact hnodup.1.sublist (List.filter_sublist.map _)

/-- A value that is no container is passed, and rebuilt as it is. -/
theorem Canonical.rebuilds_leaf (C : k.Canonical t tour) {k' : Heap X} (limit : UInt32) (room : Nat)
    {before rest stops : List (Stop X)} (htour : tour = before ++ stops)
    (T : k.Tours (entered before) ((trail, v) :: rest) stops) (hv : v.isContainer = false) :
    k.Rebuilds before rest stops (k.Unfolds v)
      ((k'.encodeAt limit room trail (k.dereference t v)).run (k.noted before)) := by
  have hstop : (trail, v) ∈ stops := T.subset List.mem_cons_self
  have htaken : v.taken = v := by
    have hplain := C.plain trail v (by simp [htour, hstop])
    cases v <;> simp_all [Value.taken, Value.exempt?]
  obtain ⟨later, rfl, T'⟩ := T.pass_inv fun r hr => by
    rw [show v = .node r from hr] at hv
    cases hv
  have hvisits : visits (before ++ [(trail, v)]) = visits before := by
    cases v <;> simp_all [visits, Value.ref?, Value.isContainer]
  have hnoted : k.noted before = k.noted (before ++ [(trail, v)]) := by
    rw [noted, noted, hvisits]
  rw [dereference_of_none (tokenPath?_leaf hv), encodeAt_leaf hv, htaken, StateT.run_pure, hnoted]
  exact .ok rfl (by rwa [entered, hvisits]) (.leaf hv)

/-- What a token stands for was recorded, so a token is rebuilt, with the path that it had. -/
theorem Canonical.rebuilds_token (C : k.Canonical t tour) {k' : Heap X} (limit : UInt32)
    (room : Nat) {before rest later : List (Stop X)}
    (htour : tour = before ++ (trail, .node r) :: later)
    (T : k.Tours (r :: entered before) (k.inside trail r ++ rest) later)
    (htoken : k.tokenPath? (.node r) ≠ none) :
    k.Rebuilds before rest ((trail, .node r) :: later) (k.Unfolds (.node r))
      ((k'.encodeAt limit room trail (k.dereference t (.node r))).run (k.noted before)) := by
  obtain ⟨first, q, hfirst, hnone, hcell, hderef⟩ := C.token_stop htour htoken
  rw [inside, view_tokenCell hcell] at T
  obtain ⟨later, rfl, T'⟩ := T.pass_inv (fun r hr => by cases hr)
  -- the text in a token is passed, and of the token nothing is recorded
  have hvisits : visits [(trail, Value.node r), (.key refKey :: trail,
      .string (X := X) (Path.text first.reverse))] = [(r, trail)] := rfl
  have hnoted : k.noted before = k.noted (before ++ [(trail, .node r),
      (.key refKey :: trail, .string (Path.text first.reverse))]) := by
    simp [noted, hvisits, htoken]
  rw [hderef, run_encodeAt_seen (C.lookup_noted htour hfirst hnone), hnoted]
  refine .ok rfl ?_ (unfolds_token hcell)
  simpa [entered, hvisits] using T'

section Spots

variable {k' : Heap X} {bound : Nat} (hspots : ∀ p ∈ k.spots tour,
  k'.view p.source = (k.linked t).view p.source ∧ p.trail.length < bound)
include hspots

/-- A container that is no token is recorded and rebuilt from what lies inside. -/
theorem Canonical.rebuilds_container (C : k.Canonical t tour) (limit : UInt32) (room : Nat)
    {before rest later : List (Stop X)} (htour : tour = before ++ (trail, .node r) :: later)
    (T : k.Tours (r :: entered before) (k.inside trail r ++ rest) later)
    (hnew : r ∉ entered before) (hnone : k.tokenPath? (.node r) = none)
    (hroom : trail.length + room = bound)
    (hinside : ∀ stop ∈ k.inside trail r, ∀ room', room = room' + 1 → ∀ before rest stops,
      tour = before ++ stops → k.Tours (entered before) (stop :: rest) stops →
        k.Rebuilds before rest stops (k.Unfolds stop.2)
          ((k'.encodeAt limit room' stop.1 (k.dereference t stop.2)).run (k.noted before))) :
    k.Rebuilds before rest ((trail, .node r) :: later) (k.Unfolds (.node r))
      ((k'.encodeAt limit room trail (k.dereference t (.node r))).run (k.noted before)) := by
  have hmet : (trail, .node r) ∈ tour := by simp [htour]
  obtain ⟨hview, hlt⟩ := hspots ⟨r, trail, r⟩ (mem_spots.2 ⟨rfl, hmet, hnone⟩)
  obtain ⟨room, rfl⟩ : ∃ room', room = room' + 1 := ⟨room - 1, by simp only at hlt; omega⟩
  have hl : (k.noted before).lookup r = none := by
    cases hl : (k.noted before).lookup r with
    | none => rfl
    | some first =>
      exact absurd (mem_entered.2 ⟨first, (mem_noted.1 (lookup_eq_some_mem hl)).1⟩) hnew
  have hentered : r :: entered before = entered (before ++ [(trail, Value.node (X := X) r)]) := by
    simp [entered, visits, Value.ref?]
  have hnoted : (r, trail) :: k.noted before = k.noted (before ++ [(trail, .node r)]) := by
    simp [noted, visits, Value.ref?, hnone]
  have hchildren : k.Rebuilds (before ++ [(trail, .node r)]) rest later
      (List.Forall₂ (fun stop d => k.Unfolds stop.2 d) (k.inside trail r))
      (((k.inside trail r).mapM fun stop =>
        k'.encodeAt limit room stop.1 (k.dereference t stop.2)).run
          (k.noted (before ++ [(trail, .node r)]))) :=
    .mapM (fun stop hmem => hinside stop hmem room rfl) (by simp [htour]) (hentered ▸ T)
  have hslots : ((k.linked t).view r).slots.mapM
        (fun slot => k'.encodeAt limit room (slot.1 :: trail) slot.2) =
      (k.inside trail r).mapM fun stop =>
        k'.encodeAt limit room stop.1 (k.dereference t stop.2) := by
    rw [C.legible.view_linked hmet, View.slots_mapValues, inside, List.mapM_map, List.mapM_map]
    rfl
  rw [dereference_of_none hnone, run_encodeAt_first hl, hnoted]
  simp only [hview, encodeView_eq, hslots, StateT.run_bind]
  generalize ((k.inside trail r).mapM fun stop =>
    k'.encodeAt limit room stop.1 (k.dereference t stop.2)).run
      (k.noted (before ++ [(trail, .node r)])) = outcome at hchildren
  cases hchildren with
  | @ok docs here later' hlater T' hdocs =>
    rw [List.append_assoc] at T' ⊢
    refine .ok (by rw [hlater]; rfl) T' ?_
    rw [C.legible.view_linked hmet, View.assemble_mapValues]
    refine unfolds_assemble (C.legible.cell_stop hmet).1 (C.legible.cell_stop hmet).2 ?_
    rw [inside, List.forall₂_map_left_iff] at hdocs
    rw [← View.slots_snd, List.forall₂_map_left_iff]
    exact hdocs

/-- In the decoded graph the encoder goes through the tree again, and rebuilds it. -/
theorem Canonical.rebuilds (C : k.Canonical t tour) (limit : UInt32) (room : Nat)
    {before rest stops : List (Stop X)} (htour : tour = before ++ stops)
    (T : k.Tours (entered before) ((trail, v) :: rest) stops)
    (hroom : trail.length + room = bound) :
    k.Rebuilds before rest stops (k.Unfolds v)
      ((k'.encodeAt limit room trail (k.dereference t v)).run (k.noted before)) := by
  induction room using Nat.strongRecOn generalizing trail v before rest stops with
  | ind room ih =>
    cases hv : v.isContainer with
    | false => exact C.rebuilds_leaf limit room htour T hv
    | true =>
      obtain ⟨r, rfl⟩ := Value.exists_eq_node hv
      have hnew := C.notMem_entered htour (T.subset List.mem_cons_self)
      obtain ⟨later, rfl, T'⟩ := T.enter_inv hnew
      by_cases hnone : k.tokenPath? (.node r) = none
      · refine C.rebuilds_container hspots limit room htour T' hnew hnone hroom ?_
        rintro stop hmem room' rfl before rest stops htour T
        obtain ⟨slot, _, rfl⟩ := List.mem_map.1 hmem
        exact ih room' (Nat.lt_succ_self _) htour T (by simp; omega)
      · exact C.rebuilds_token limit room htour T' hnone

end Spots

/-- Nothing comes before the root, so the root is no token. -/
theorem Canonical.dereference_root (C : k.Canonical t tour) : k.dereference t t = t := by
  obtain ⟨after, htour⟩ := C.walked.head
  refine dereference_of_none ?_
  by_contra htoken
  obtain ⟨_, _, hmem, _⟩ := C.token [] [] t after htour htoken
  cases hmem

end Canonical

/-- If a tree of arrays, objects, scalars and tokens decodes within a limit, then the
graph encodes within it, to the tree as it was. -/
theorem encoded_decode {k k' : Heap X} {limit : UInt32} {t : Value X} {tour : List (Stop X)}
    (C : k.Canonical t tour) (hdec : k.decode limit t = (.ok (), k')) :
    ∃ d t' k'', k.Unfolds t d ∧ k'.encoded limit t = .ok (t', k'') ∧ k''.Unfolds t' d := by
  have hrebuilds := C.rebuilds (C.legible.view_decoded hdec) limit limit.toNat
    (List.nil_append tour).symm C.walked (Nat.zero_add _)
  rw [C.dereference_root] at hrebuilds
  have hnil : k.noted [] = [] := rfl
  rw [hnil] at hrebuilds
  unfold encoded encode
  generalize (k'.encodeAt limit limit.toNat [] t).run [] = outcome at hrebuilds
  cases hrebuilds with
  | @ok d here later _ _ hd =>
    exact ⟨d, _, _, hd, rfl, unfolds_plant hd.tidy k' (.refl _)⟩

/-- An object with an array and a token for the array. -/
def sprig : Heap Unit :=
  ⟨#[.object (Table.ofList [("a", .node 1), ("b", .node 2)]), .array [], tokenCell [.key "a"]]⟩

/-- The walk of the object. -/
def sprigTour : List (Stop Unit) :=
  [([], .node 0), ([.key "a"], .node 1), ([.key "b"], .node 2),
    ([.key refKey, .key "b"], .string "$[\"a\"]")]

theorem encoded_decode_sprig :
    sprig.Canonical (.node 0) sprigTour ∧
      ∃ k', sprig.decode 2 (.node 0) = (.ok (), k') ∧
        ∃ d t' k'', sprig.Unfolds (.node 0) d ∧ k'.encoded 2 (.node 0) = .ok (t', k'') ∧
          k''.Unfolds t' d := by
  have hcanonical : sprig.Canonical (.node 0) sprigTour := by
    refine ⟨?_, by decide, ?_, ?_, ?_⟩
    · refine .enter (by decide) (.enter (by decide) (.enter (by decide) (.pass ?_ .done)))
      rintro r hr
      cases hr
    · intro trail r hstop
      simp [sprigTour] at hstop
      rcases hstop with ⟨_, rfl⟩ | ⟨_, rfl⟩ | ⟨_, rfl⟩
      · exact ⟨_, rfl, .object _⟩
      · exact ⟨_, rfl, .array _⟩
      · exact ⟨_, rfl, .object _⟩
    · intro trail v hstop
      simp [sprigTour] at hstop
      rcases hstop with ⟨_, rfl⟩ | ⟨_, rfl⟩ | ⟨_, rfl⟩ | ⟨_, rfl⟩ <;> rfl
    · intro before trail v after htour htoken
      -- the third stop is the only one at a token
      rcases before with _ | ⟨_, _ | ⟨stop, _ | ⟨_, _ | ⟨_, before⟩⟩⟩⟩ <;>
        simp only [sprigTour, List.nil_append, List.cons_append, List.cons.injEq,
          Prod.mk.injEq] at htour
      · exact absurd (htour.1.2 ▸ by decide +kernel) htoken
      · exact absurd (htour.2.1.2 ▸ by decide +kernel) htoken
      · refine ⟨[.key "a"], .node 1, by simp [← htour.2.1], rfl, by decide +kernel, ?_⟩
        rw [← htour.2.2.1.2]
        rfl
      · exact absurd (htour.2.2.2.1.2 ▸ tokenPath?_leaf rfl) htoken
      · simp at htour
  have hok : (sprig.decode 2 (.node 0)).1.isOk = true := by decide +kernel
  cases hdec : sprig.decode 2 (.node 0) with
  | mk outcome k' =>
    rw [hdec] at hok
    cases outcome with
    | error e => cases hok
    | ok u => exact ⟨hcanonical, k', rfl, encoded_decode hcanonical hdec⟩

end Heap

end TypeDescription