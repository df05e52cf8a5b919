import TypeDescription.Proofs.Graph.Resolution

/-!
# Tokens that lead to tokens

Decoding follows the path of a token once and does not go on if it finds another token.  So a
chain of tokens is resolved in one pass only if the walk comes to its tokens from behind:
`Heap.LeadsBack` says that each token leads to positions without tokens, or to positions that the
walk came to before.  Then what decoding puts in the place of a token is `Cleared`, and by
induction along the walk it leaves no token at all (`decode_leadsBack`); it has nothing to do
when it is run again.

`decode_leaves_tokens` shows the ways in which a token is left otherwise.
-/

namespace TypeDescription

variable {X : Type}

namespace Heap

/-! ## Tokens that lead back -/

/-- Each token leads back: followed when the walk comes to it, its path comes to positions that
the walk came to before, or that hold no token.  The path to the root leads to no token, and no
token under `$ref` leads to the text of a path. -/
structure LeadsBack (h : Heap X) (root : Value X) (stops : List Address) : Prop where
  back : ∀ done p text path, done ++ [p] <+: stops → h.token? p = some (text, path) →
    ∀ q ∈ h.along (h.held root done) root path, q ∈ done ∨ h.token? q = none
  whole : ∀ p text, p ∈ stops → h.token? p = some (text, []) → h.tokenPath? root = none
  names : h.NamesNoPath root stops

/-- A value that is no token, and whose container is one that decoding enters. -/
structure Cleared (h : Heap X) (root v : Value X) : Prop where
  free : h.tokenPath? v = none
  enters : ∀ r, v.unwrap = .node r → h.Enters root r

section LeadsBack

variable {h k : Heap X} {limit : UInt32} {root v : Value X} {done stops : List Address}
  {q : Address}

theorem cleared_of_read? (hq : h.Enters root q.1) (htoken : h.token? q = none)
    (hv : h.read? q = some v) : h.Cleared root v where
  free := by simpa [token?, hv] using htoken
  enters r hr := .inside hq (entrance?_eq_some_iff.2 ⟨htoken, v, hv, hr⟩)

/-- At each position that the walk came to there is a value that it enters or that is a
scalar. -/
theorem LeadsBack.cleared_of_held (B : h.LeadsBack root stops) (hdone : done <+: stops)
    (hq : h.Enters root q.1) (hback : q ∈ done ∨ h.token? q = none)
    (hv : h.held root done q = some v) : h.Cleared root v := by
  induction done using List.reverseRecOn generalizing q v with
  | nil => exact cleared_of_read? hq (hback.resolve_left List.not_mem_nil) hv
  | append_singleton done p ih =>
    have hbefore : done <+: stops := (List.prefix_append done [p]).trans hdone
    by_cases hqp : q = p
    · subst hqp
      cases htoken : h.token? q with
      | none => exact cleared_of_read? hq htoken (held_of_none htoken ▸ hv)
      | some token =>
        obtain ⟨text, path⟩ := token
        rw [held_concat_self htoken] at hv
        have hstep : ∀ u step p w, u = root ∨ h.Cleared root u → h.address? u step = some p →
            p ∈ h.along (h.held root done) root path → h.held root done p = some w →
              h.Cleared root w := by
          intro u step p w hu hp hmem hw
          refine ih hbefore ?_ (B.back done q text path hdone htoken p hmem) hw
          obtain rfl := address?_eq_some hp
          rcases hu with rfl | hu
          · exact .root rfl
          · exact hu.enters _ rfl
        rcases resolveIn_induct hstep hv with ⟨rfl, rfl⟩ | hend
        · exact ⟨B.whole q text (hdone.subset (by simp)) htoken, fun r hr => .root hr⟩
        · exact hend
    · rw [held_concat_of_ne hqp] at hv
      refine ih hbefore hq (hback.imp_left fun hmem => ?_) hv
      exact (List.mem_append.1 hmem).resolve_right (by simpa using hqp)

/-- After decoding there is no token where it went, and the containers there are ones that it
entered. -/
theorem LeadsBack.cleared (B : h.LeadsBack root stops) (hstops : h.Itinerary root stops)
    (R : h.Replaced root stops k) (hq : h.Enters root q.1) (hv : k.read? q = some v) :
    h.Cleared root v := by
  have hmem : q ∈ k.addresses q.1 := read?_ne_none_iff.1 (by simp [hv])
  rw [R.retains.addresses_eq] at hmem
  exact B.cleared_of_held (List.prefix_refl stops) hq
    (.inl ((mem_itinerary_iff hstops).2 ⟨hq, hmem⟩)) (R.read ▸ hv)

/-- If each token leads back and decoding succeeds, then it leaves no token, and decoding again
changes nothing, whether it succeeds or not. -/
theorem decode_leadsBack (hmaps : h.Mapless root) (hstops : h.Itinerary root stops)
    (hback : h.LeadsBack root stops) (hok : h.decode limit root = (.ok (), k)) :
    (∀ r, k.Reaches root r → ∀ v ∈ k.slots r, k.tokenPath? v = none) ∧
      ∀ limit', (k.decode limit' root).2 = k := by
  have hdecode := decode_replaced hmaps hstops hback.names limit
  rw [hok] at hdecode
  obtain R : h.Replaced root stops k := by
    cases hdecode with
    | ok R => exact R
  have hcleared : ∀ p v, h.Enters root p.1 → k.read? p = some v → h.Cleared root v :=
    fun p v hp hv => hback.cleared hstops R hp hv
  constructor
  · have henters : ∀ r, k.Reaches root r → h.Enters root r := by
      intro r hr
      induction hr with
      | root hroot => exact .root (by rw [hroot]; rfl)
      | @step r s _ hs ih =>
        obtain ⟨i, hi⟩ := List.getElem?_of_mem (values_view k r ▸ hs)
        exact (hcleared (r, i) _ ih hi).enters s rfl
    intro r hr v hv
    obtain ⟨i, hi⟩ := List.getElem?_of_mem hv
    rw [R.token]
    exact (hcleared (r, i) v (henters r hr) hi).free
  · have henters : ∀ r, k.Enters root r → h.Enters root r := by
      intro r hr
      induction hr with
      | root hroot => exact .root hroot
      | inside _ hr ih =>
        obtain ⟨_, v, hv, hr⟩ := entrance?_eq_some_iff.1 hr
        exact (hcleared _ v ih hv).enters _ hr
    refine decode_of_tokenless fun p hp => ?_
    unfold token?
    cases hv : k.read? p with
    | none => rfl
    | some v => exact (R.token v).trans (hcleared p v (henters _ hp) hv).free

end LeadsBack

/-- Tokens for an array, for the position of the first token, for an element behind the second
one, and in an object before it for the last position. -/
def relays : Heap Unit :=
  ⟨#[.array [.node 1, .node 2, .node 3, .node 4, .node 5, .bool true], .array [.string "end"],
    signpost "$[0]", signpost "$[1]", signpost "$[2][0]",
    .object (Table.ofList [(refKey, .node 6)]), signpost "$[5]"]⟩

/-- The addresses that decoding them comes to. -/
def relayStops : List Address :=
  [(0, 0), (1, 0), (0, 1), (0, 2), (0, 3), (0, 4), (5, 0), (0, 5)]

theorem itinerary_relays : relays.Itinerary (.node 0) relayStops := by
  refine .enter (r := 1) (by decide +kernel) (by decide) (.pass (by decide +kernel) ?_)
  refine .pass (by decide +kernel) (.pass (by decide +kernel) (.pass (by decide +kernel) ?_))
  refine .enter (r := 5) (by decide +kernel) (by decide) (.pass (by decide +kernel) ?_)
  exact .pass (by decide +kernel) .done

theorem leadsBack_relays : relays.LeadsBack (.node 0) relayStops where
  back done p text path hp htoken := by
    have hback : ∀ before ∈ relayStops.inits, ∀ p ∈ before.getLast?, ∀ token ∈ relays.token? p,
        ∀ q ∈ relays.along (relays.held (.node 0) before.dropLast) (.node 0) token.2,
          q ∈ before.dropLast ∨ relays.token? q = none := by
      decide +kernel
    simpa using hback _ ((List.mem_inits _ _).2 hp) p (by simp) _ htoken
  whole _ _ _ _ := by decide +kernel
  names done p text path name hp htoken hslot hname := by
    have hnames : ∀ before ∈ relayStops.inits, ∀ p ∈ before.getLast?, ∀ token ∈ relays.token? p,
        relays.IsRefSlot p →
        ∀ v ∈ relays.resolveIn (relays.held (.node 0) before.dropLast) (.node 0) token.2,
          v.string? = none := by
      decide +kernel
    have hscalar := hnames _ ((List.mem_inits _ _).2 hp) p (by simp) _ htoken hslot
    rw [List.dropLast_concat] at hscalar
    cases hscalar _ hname

theorem decode_leadsBack_relays :
    relays.Mapless (.node 0) ∧ relays.Itinerary (.node 0) relayStops ∧
      relays.LeadsBack (.node 0) relayStops ∧
      ∃ k, relays.decode 1024 (.node 0) = (.ok (), k) ∧
        k.slots 0 = [.node 1, .node 1, .node 1, .string "end", .node 5, .bool true] ∧
        (∀ r, k.Reaches (.node 0) r → ∀ v ∈ k.slots r, k.tokenPath? v = none) ∧
        (k.decode 1024 (.node 0)).2 = k := by
  have hmaps : relays.Mapless (.node 0) := mapless_of_cells (by simp [relays, signpost])
  have hok : relays.decode 1024 (.node 0) = (.ok (), (relays.decode 1024 (.node 0)).2) :=
    Prod.ext (by decide +kernel) rfl
  have hdecode := decode_leadsBack hmaps itinerary_relays leadsBack_relays hok
  exact ⟨hmaps, itinerary_relays, leadsBack_relays, _, hok, by decide +kernel, hdecode.1,
    hdecode.2 1024⟩

/-- The value that a token leads to in at most so many hops, a token on the way leading on. -/
def chase (h : Heap X) (root : Value X) : Nat → Value X → Option (Value X)
  | 0, _ => none
  | hops + 1, v =>
    match h.tokenPath? v with
    | none => some v
    | some (_, path) => (h.resolve root path).bind (chase h root hops)

/-- All tokens lead to values that are no tokens in three hops at most, and yet decoding succeeds
and leaves a token at the end of a path, and changes the graph when it is run again. -/
def LeavesToken (h : Heap Unit) (path : Path) : Prop :=
  (∀ p ∈ h.positions, ∀ v ∈ h.read? p, h.chase (.node 0) 3 v ≠ none) ∧
    (h.decode 1024 (.node 0)).1 = .ok () ∧
    ((h.decode 1024 (.node 0)).2.resolve (.node 0) path).bind
      (h.decode 1024 (.node 0)).2.tokenPath? ≠ none ∧
    ((h.decode 1024 (.node 0)).2.decode 1024 (.node 0)).2 ≠ (h.decode 1024 (.node 0)).2

instance (h : Heap Unit) (path : Path) : Decidable (h.LeavesToken path) :=
  inferInstanceAs (Decidable (_ ∧ _ ∧ _ ∧ _))

/-- A token for the position of a token that comes later. -/
def relayRace : Heap Unit :=
  ⟨#[.array [.node 1, .node 2, .bool true], signpost "$[1]", signpost "$[2]"]⟩

/-- A token for what lies inside of a token that comes later. -/
def detour : Heap Unit :=
  ⟨#[.array [.node 1, .node 2, .null], signpost "$[1][0]",
    .object (Table.ofList [(refKey, .string "$[2]"), ("0", .node 3)]), .array [.node 4],
    signpost "$[2]"]⟩

/-- A token for the root, which is a token itself. -/
def homeward : Heap Unit :=
  ⟨#[.object (Table.ofList [(refKey, .string "$[0]"), ("0", .null), ("1", .node 1)]),
    signpost "$"]⟩

/-- Decoding leaves a token where one leads to one that comes later, to the inside of one that
comes later, to the root that is one, or from under `$ref` to the text of a path. -/
theorem decode_leaves_tokens :
    relayRace.LeavesToken [.index 0] ∧ detour.LeavesToken [.index 0, .index 0] ∧
      homeward.LeavesToken [.index 1] ∧ cocoon.LeavesToken [.index 1] := by
  decide +kernel

end Heap

end TypeDescription
