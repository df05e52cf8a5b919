import TypeDescription.Proofs.Graph.Decoding
import TypeDescription.Proofs.Graph.Isomorphism

/-!
# Decoding undoes encoding

`decode_encoded` is the main result: a graph that encodes within a limit
decodes within it, and the result is isomorphic to the graph.  `Codable` says
for which graphs: an exempt marker would be dropped, of two map entries with
one name only the last would be kept, and a property that looks like a token
would be followed.
-/

namespace TypeDescription

variable {X : Type}

namespace Heap

/-! ## Graphs that can be read back -/

/-- No exempt value, no map with two keys of one name, and no path text under
`$ref` in what a value reaches. -/
structure Codable (h : Heap X) (x : Value X) : Prop where
  plain_root : x.exempt? = none
  plain : ∀ r, h.Reaches x r → ∀ v ∈ (h.view r).values, v.exempt? = none
  keys_nodup : ∀ r entries, h.Reaches x r → h.cell? r = some (.map entries) →
    (entries.map fun entry => h.propertyKey entry.1).Nodup
  free : ∀ r fields text, h.Reaches x r → h.view r = .named fields →
    (refKey, .string text) ∈ fields → Path.parse? text = none

section Codable

variable {h k₀ k₁ : Heap X} {x t : Value X} {room : Nat} {places : List Place} {seen : Seen}

/-- The names in a container are distinct: those of an object always are. -/
theorem Codable.names_nodup (hx : h.Codable x) {r : Ref} (hr : h.Reaches x r) :
    (h.view r).names.Nodup :=
  DistinctKeys.names_nodup hx.keys_nodup hr

/-- A codable graph is encoded as a tree that can be decoded. -/
theorem Entered.planted (hx : h.Codable x) (E : h.Entered k₀ [] [] room x places k₁ seen t) :
    h.Planted k₁ room places t where
  image p hp := E.seen_eq ▸ E.walk.images p hp
  source_inj := E.source_inj
  trail_inj := E.trail_inj
  target_inj p hp p' hp' := List.inj_on_of_nodup_map E.walk.targets_nodup hp hp'
  grown p hp := by
    rcases E.grown p hp with ⟨htrail, hv⟩ | hin
    · exact .inl ⟨htrail, E.target_eq hp htrail hv⟩
    · exact .inr hin
  shallow p hp := by
    have hlt := (E.below p hp).2
    simpa using hlt
  names p hp := hx.names_nodup (E.reaches p hp)
  plain p hp := hx.plain p.source (E.reaches p hp)
  free p hp fields text := hx.free p.source fields text (E.reaches p hp)

end Codable

/-! ## The renaming -/

/-- The new container of a container. -/
def relocate (places : List Place) (r : Ref) : Ref :=
  ((places.find? fun p => p.source == r).map Place.target).getD 0

section RoundTrip

variable {h k₁ k : Heap X} {x t : Value X} {room : Nat} {places : List Place} {seen : Seen}

theorem Planted.relocate_source (P : h.Planted k₁ room places t) {p : Place} (hp : p ∈ places) :
    relocate places p.source = p.target := by
  unfold relocate
  cases hfind : places.find? fun q => q.source == p.source with
  | none =>
    have hno := List.find?_eq_none.1 hfind p hp
    simp at hno
  | some q =>
    have hq := List.mem_of_find?_eq_some hfind
    have hsource : q.source = p.source := by simpa using List.find?_some hfind
    rw [P.source_inj q hq p hp hsource]
    rfl

/-- A settled value is the renamed one. -/
theorem Planted.settled_eq_rename (P : h.Planted k₁ room places t) {v u : Value X}
    (hplain : v.exempt? = none) (hu : Settled places v u) : u = v.rename (relocate places) := by
  cases hu with
  | leaf hv => cases v <;> simp_all [Value.rename, Value.isContainer, Value.exempt?]
  | place hp => rw [Value.rename, P.relocate_source hp]

/-- A container whose values are settled holds the renamed view. -/
theorem Planted.holds_of_done (P : h.Planted k₁ room places t) {p : Place} (hp : p ∈ places)
    (D : h.Done k places p) :
    ∃ c, k.cell? p.target = some c ∧ c.Holds ((h.view p.source).rename (relocate places)) := by
  obtain ⟨us, hcell, hlen, hall⟩ := D
  have hus : us = (h.view p.source).values.map (Value.rename (relocate places)) := by
    rw [← View.slots_snd, List.map_map]
    refine List.ext_getElem? fun i => ?_
    rw [List.getElem?_map]
    cases hslot : (h.view p.source).slots[i]? with
    | none =>
      rw [List.getElem?_eq_none_iff, ← hlen] at hslot
      rw [List.getElem?_eq_none_iff.2 hslot]
      rfl
    | some slot =>
      have hi : i < us.length := by
        rw [hlen]
        exact (List.getElem?_eq_some_iff.1 hslot).1
      have hu := List.getElem?_eq_getElem hi
      have hplain := P.plain p hp _ (View.mem_values_of_mem_slots (List.mem_of_getElem? hslot))
      rw [hu, Option.map_some, Function.comp_apply,
        ← P.settled_eq_rename hplain (hall i slot _ hslot hu)]
  refine ⟨_, hcell, ?_⟩
  have hnames := P.names p hp
  cases hview : h.view p.source with
  | list items =>
    rw [hview] at hus
    rw [hus]
    exact .array _
  | named fields =>
    rw [hview] at hus hlen hnames
    have hentries := View.entries_fill hnames hlen
    have hzip : (fields.map Prod.fst).zip us =
        fields.map fun field => (field.1, field.2.rename (relocate places)) := by
      rw [hus, View.values, List.map_map, List.zip_map']
      rfl
    rw [hzip] at hentries
    rw [View.fill, View.rename, ← hentries, hzip]
    exact .object _

/-- The containers of the places are all those that the root reaches. -/
theorem Planted.place_of_reaches (P : h.Planted k₁ room places t)
    (hdone : ∀ p ∈ places, h.Done k places p) {p₀ : Place} (hp₀ : p₀ ∈ places) {r : Ref}
    (hr : h.Reaches (.node p₀.source) r) : ∃ p ∈ places, p.source = r := by
  induction hr with
  | root heq => exact ⟨p₀, hp₀, Value.node.inj heq⟩
  | @step r s _ hmem ih =>
    obtain ⟨p, hp, rfl⟩ := ih
    rw [← View.slots_snd] at hmem
    obtain ⟨slot, hslot, hv⟩ := List.mem_map.1 hmem
    obtain ⟨i, hi⟩ := List.getElem?_of_mem hslot
    obtain ⟨u, _, hset⟩ := (hdone p hp).getElem? (P.names p hp) hi
    rw [hv] at hset
    generalize hw : Value.node s = w at hset
    cases hset with
    | leaf hleaf =>
      subst hw
      cases hleaf
    | place hq => exact ⟨_, hq, (Value.node.inj hw).symm⟩

/-- Where decoding has settled every slot, the new containers are the renamed
ones. -/
theorem Planted.isomorphism (P : h.Planted k₁ room places t)
    (hdone : ∀ p ∈ places, h.Done k places p) {p₀ : Place} (hp₀ : p₀ ∈ places)
    (ht : t = .node p₀.target) :
    h.Isomorphism (.node p₀.source) k t (relocate places) := by
  have hplace := fun r hr => P.place_of_reaches hdone hp₀ (r := r) hr
  have hholds := fun p hp => P.holds_of_done hp (hdone p hp)
  refine ⟨?_, ⟨?_, ?_, ?_⟩, ?_⟩
  · rw [ht, Value.rename, P.relocate_source hp₀]
  · intro r hr
    induction hr with
    | root heq =>
      cases heq
      exact .root (ht.trans (by rw [P.relocate_source hp₀]))
    | @step r s hr hmem ih =>
      obtain ⟨p, hp, rfl⟩ := hplace r hr
      obtain ⟨c, hcell, hc⟩ := hholds p hp
      rw [Set.mem_ofPred_eq, P.relocate_source hp] at ih
      refine Reaches.step ih ?_
      rw [view_of_holds hcell hc, View.values_rename]
      exact List.mem_map_of_mem (f := Value.rename (relocate places)) hmem
  · intro r hr s hs heq
    obtain ⟨p, hp, rfl⟩ := hplace r hr
    obtain ⟨q, hq, rfl⟩ := hplace s hs
    rw [P.relocate_source hp, P.relocate_source hq] at heq
    rw [P.target_inj p hp q hq heq]
  · intro q hq
    induction hq with
    | root heq =>
      refine ⟨p₀.source, .root rfl, ?_⟩
      rw [P.relocate_source hp₀]
      exact Value.node.inj (ht.symm.trans heq)
    | @step q q' _ hmem ih =>
      obtain ⟨r, hr, rfl⟩ := ih
      obtain ⟨p, hp, rfl⟩ := hplace r hr
      obtain ⟨c, hcell, hc⟩ := hholds p hp
      rw [P.relocate_source hp, view_of_holds hcell hc, View.values_rename] at hmem
      obtain ⟨v, hv, hrename⟩ := List.mem_map.1 hmem
      cases v <;> simp only [Value.rename, reduceCtorEq, Value.node.injEq] at hrename
      exact ⟨_, Reaches.step hr hv, hrename⟩
  · intro r hr
    obtain ⟨p, hp, rfl⟩ := hplace r hr
    rw [P.relocate_source hp]
    exact hholds p hp

end RoundTrip

/-! ## The round trip -/

/-- A value that is no container encodes as itself and decodes as itself. -/
theorem isomorphism_leaf {h k : Heap X} {x : Value X} (hleaf : x.isContainer = false)
    (hplain : x.exempt? = none) : h.Isomorphism x k x id := by
  have hnone : ∀ (k : Heap X) r, ¬ k.Reaches x r := by
    intro k r hr
    induction hr with
    | root heq =>
      subst heq
      cases hleaf
    | step _ _ ih => exact ih
  refine ⟨?_, ?_, fun r hr => absurd hr (hnone h r)⟩
  · cases x <;> simp_all [Value.rename, Value.exempt?]
  · have hempty : ∀ k : Heap X, {r | k.Reaches x r} = ∅ := fun k =>
      Set.eq_empty_of_forall_notMem fun r hr => hnone k r hr
    rw [hempty h, hempty k]
    exact Set.bijOn_empty id

/-- What a walk leaves for a codable graph is decoded to an isomorphic graph, or the walk
went too deep for that. -/
theorem Entered.decode_cases {h k₀ k : Heap X} {x t : Value X} {room : Nat} {places : List Place}
    {seen : Seen} (hx : h.Codable x) (E : h.Entered k₀ [] [] room x places k seen t)
    (limit : UInt32) :
    (∃ k' f, k.decode limit t = (.ok (), k') ∧ h.Isomorphism x k' t f ∧
      ∀ p ∈ places, p.trail.length < limit.toNat) ∨
    (∃ k', k.decode limit t = (.error (.depthExceeded limit), k') ∧
      ∃ p ∈ places, limit.toNat ≤ p.trail.length) := by
  cases hcont : x.isContainer with
  | true =>
    obtain ⟨p, hp, htrail, rfl⟩ := E.root_place hcont
    have P := E.planted hx
    rcases P.decode_cases limit hp htrail with ⟨k', hrun, hdone, hshallow⟩ | hdeep
    · exact .inl ⟨k', relocate places, hrun,
        P.isomorphism hdone hp (E.target_eq hp htrail rfl), hshallow⟩
    · exact .inr hdeep
  | false =>
    have hplain := hx.plain_root
    have hno : ∀ p ∈ places, False := E.grown.induct (motive := fun _ => False)
      (fun p _ hroot => by rw [hroot.2] at hcont; cases hcont) (fun _ _ _ _ _ hfalse => hfalse)
    obtain rfl : t = x := by
      have hst := E.stands
      cases hst with
      | leaf _ => exact Value.taken_eq hplain
      | first _ => cases hcont
      | again _ _ _ => cases hcont
    refine .inl ⟨k, id, ?_, isomorphism_leaf hcont hplain, fun p hp => absurd hp (hno p)⟩
    unfold decode
    rw [run_decodeAt_leaf hcont hplain]

/-- A codable graph that encodes within a limit decodes within it: the result is
isomorphic to the graph, and two walks from its root end at one container
exactly if they do in the graph. -/
theorem decode_encoded {h k : Heap X} {limit : UInt32} {x t : Value X} (hx : h.Codable x)
    (henc : h.encoded limit x = .ok (t, k)) :
    ∃ k' f, k.decode limit t = (.ok (), k') ∧ h.Isomorphism x k' t f ∧
      ∀ a b, k'.Meets t a b ↔ h.Meets x a b := by
  obtain ⟨places, seen, E⟩ := encoded_walk (fun r hr => hx.names_nodup hr) henc
  have hiso : ∃ k' f, k.decode limit t = (.ok (), k') ∧ h.Isomorphism x k' t f := by
    cases hcont : x.isContainer with
    | true =>
      obtain ⟨p, hp, htrail, rfl⟩ := E.root_place hcont
      have P := E.planted hx
      obtain ⟨k', hrun, hdone⟩ := P.decode_eq rfl hp htrail
      exact ⟨k', relocate places, hrun,
        P.isomorphism hdone hp (E.target_eq hp htrail rfl)⟩
    | false =>
      obtain rfl : t = x := by
        have hst := E.stands
        cases hst with
        | leaf _ =>
          have hplain := hx.plain_root
          cases x <;> simp_all [Value.taken, Value.exempt?]
        | first _ => cases hcont
        | again _ _ _ => cases hcont
      refine ⟨k, id, ?_, isomorphism_leaf hcont hx.plain_root⟩
      unfold decode
      rw [run_decodeAt_leaf hcont hx.plain_root]
  obtain ⟨k', f, hrun, iso⟩ := hiso
  exact ⟨k', f, hrun, iso, iso.meets_iff⟩

/-- An object that holds one map twice, which holds the object. -/
def ring : Heap Unit :=
  ⟨#[.object (Table.ofList [("a", .node 1), ("b", .node 1)]),
    .map [(.bool true, .node 0), (.string "$ref", .string "$[")]]⟩

theorem decode_encoded_ring :
    ring.Codable (.node 0) ∧
      ∃ t k, ring.encoded 2 (.node 0) = .ok (t, k) ∧
        ∃ k' f, k.decode 2 t = (.ok (), k') ∧ ring.Isomorphism (.node 0) k' t f ∧
          ∀ a b, k'.Meets t a b ↔ ring.Meets (.node 0) a b := by
  have hring : ring.Codable (.node 0) := by
    refine ⟨rfl, ?_, ?_, ?_⟩
    · intro r _
      rcases r with _ | _ | r
      · decide +kernel
      · decide +kernel
      · simp [view, ring, cell?, View.values]
    · intro r entries _ hcell
      rcases r with _ | _ | r
      · simp [ring, cell?] at hcell
      · simp [ring, cell?] at hcell
        subst hcell
        decide +kernel
      · simp [ring, cell?] at hcell
    · intro r fields text _ hview hmem
      rcases r with _ | _ | r
      · have hzero : ring.view 0 = .named [("a", .node 1), ("b", .node 1)] := rfl
        obtain rfl := View.named.inj (hzero.symm.trans hview)
        simp at hmem
      · have hone : ring.view 1 = .named [("true", .node 0), ("$ref", .string "$[")] := rfl
        obtain rfl := View.named.inj (hone.symm.trans hview)
        obtain rfl : text = "$[" := by simpa [refKey] using hmem
        decide +kernel
      · simp [view, ring, cell?] at hview
  have hok : (ring.encoded 2 (.node 0)).isOk = true := by decide +kernel
  cases henc : ring.encoded 2 (.node 0) with
  | error e => simp [henc, Except.isOk, Except.toBool] at hok
  | ok result => exact ⟨hring, result.1, result.2, rfl, decode_encoded hring henc⟩

end Heap

end TypeDescription
