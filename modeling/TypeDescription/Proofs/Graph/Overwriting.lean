import TypeDescription.Proofs.Graph.Resolution
import TypeDescription.Proofs.Literal.Written

/-!
# What decoding overwrites

Decoding works in place, and what it has written stays when it fails.  Whether it succeeds or
not, what it leaves is the heap after some first addresses of its walk (`decode_eq_stage?`), and
`Heap.Turn` says what became of the value at each of these addresses: it stays, or at that moment
it is a token and gives way to what its path leads to.

* `decode_overwrites` puts this together with the point where decoding stops.
* `decode_keeps`: what is overwritten is an object with the text of a path under `$ref`,
  whatever else it has.  A literal is a token only with nothing else in it
  (`Writes.refPath?_eq_some_iff`), so decoding loses properties of objects that are no tokens as
  literals (`decode_labelled`).
* An object is overwritten as well if it became a token when its own `$ref` was overwritten
  (`decode_unsigned`).
-/

namespace TypeDescription

variable {X : Type}

namespace Heap

/-! ## The heap that decoding leaves -/

/-- What becomes of the value at an address: `k₀` is the heap when decoding comes to the address
after those `before`, and `k` the heap in the end. -/
inductive Turn (h : Heap X) (root : Value X) (before : List Address) (k₀ k : Heap X)
    (p : Address) : Prop
  | kept {v : Value X} : h.read? p = some v → k₀.tokenPath? v = none → k.read? p = some v →
      Turn h root before k₀ k p
  | overwritten {v target : Value X} {text : String} {path : Path} : h.read? p = some v →
      k₀.tokenPath? v = some (text, path) → k₀.resolve root path = some target →
      k.read? p = some target →
      -- a token of the beginning, or one since the path was written under its `$ref`
      (h.tokenPath? v = some (text, path) ∨ ∃ q ∈ before,
        h.address? v (.key refKey) = some q ∧ k₀.read? q = some (.string text) ∧
          h.read? q ≠ some (.string text)) →
      Turn h root before k₀ k p

section Leave

variable {h k k₀ k' : Heap X} {limit : UInt32} {root v : Value X}
  {before done stops : List Address} {p q : Address} {text : String} {path : Path}

/-- Decoding leaves the heap after some first addresses of its walk. -/
theorem decode_eq_stage? (h : Heap X) (limit : UInt32) (root : Value X)
    (hstops : h.Itinerary root stops) :
    ∃ done k, done <+: stops ∧ h.stage? root done = some k ∧
      (h.decode limit root = (.ok (), k) ∧ done = stops ∨
        ∃ e, h.decode limit root = (.error e, k) ∧ h.Halted limit root stops done e k) := by
  have hdecode := decode_stage h limit root hstops
  generalize h.decode limit root = outcome at hdecode
  cases hdecode with
  | ok hk => exact ⟨stops, _, List.prefix_refl stops, hk, .inl ⟨rfl, rfl⟩⟩
  | error hhalted =>
    obtain ⟨done, hhalted⟩ := hhalted
    refine ⟨done, _, ?_, ?_, .inr ⟨_, rfl, hhalted⟩⟩
    · cases hhalted with
      | deep hdone _ _ _ _ => exact hdone
      | unresolved hnext _ _ _ => exact (List.prefix_append done _).trans hnext
    · cases hhalted with
      | deep _ hk _ _ _ => exact hk
      | unresolved _ hk _ _ => exact hk

/-- A value that is a token in the middle of decoding was one at the beginning, with the same
path, or has got its path since. -/
theorem tokenPath?_of_stage? (hk : h.stage? root before = some k₀)
    (hv : k₀.tokenPath? v = some (text, path)) :
    h.tokenPath? v = some (text, path) ∨ ∃ q ∈ before, h.address? v (.key refKey) = some q ∧
      k₀.read? q = some (.string text) ∧ h.read? q ≠ some (.string text) := by
  by_cases hbefore : h.tokenPath? v = some (text, path)
  · exact .inl hbefore
  · obtain ⟨q, hq, haddress⟩ := mem_of_tokenPath?_stage? hk hv hbefore
    obtain ⟨q', haddress', htext⟩ := read?_of_tokenPath? hv
    rw [(retains_stage? hk).address?_eq, haddress, Option.some.injEq] at haddress'
    subst haddress'
    refine .inr ⟨q, hq, haddress, htext, fun hsame => hbefore ?_⟩
    -- with the same text under `$ref`, the value was the same token
    rw [tokenPath?_eq, (retains_stage? hk).address?_eq, haddress, Option.bind_some, htext] at hv
    rw [tokenPath?_eq, haddress, Option.bind_some, hsame, hv]

/-- Each address that decoding came to had its turn, and what was written then stays. -/
theorem turn_of_stage? (hnodup : done.Nodup) (hread : h.read? p ≠ none)
    (hk : h.stage? root done = some k) (hp : before ++ [p] <+: done) :
    ∃ k₀, h.stage? root before = some k₀ ∧ h.Turn root before k₀ k p := by
  obtain ⟨k₁, after, hk₁, rfl, hafter⟩ := exists_stage?_of_prefix hk hp
  rw [stage?_concat, Option.bind_eq_some_iff] at hk₁
  obtain ⟨k₀, hk₀, hadvance⟩ := hk₁
  refine ⟨k₀, hk₀, ?_⟩
  have hlater : p ∉ after := fun hmem =>
    List.disjoint_of_nodup_append hnodup (by simp) hmem
  have hend : k.read? p = k₁.read? p := read?_stage?_of_notMem hafter hlater
  have hstart : k₀.read? p = h.read? p := read?_stage?_next hnodup hk₀ hp
  obtain ⟨v, hv⟩ := Option.ne_none_iff_exists'.1 hread
  have htoken : k₀.token? p = k₀.tokenPath? v := by simp [token?, hstart, hv]
  rcases advance_eq_some_iff.1 hadvance with
    ⟨hnone, rfl⟩ | ⟨text, path, target, hsome, htarget, rfl⟩
  · exact .kept hv (htoken ▸ hnone) (by rw [hend, hstart, hv])
  · rw [htoken] at hsome
    refine .overwritten hv hsome htarget ?_ (tokenPath?_of_stage? hk₀ hsome)
    rw [hend, read?_setSlot (by rw [hstart]; exact hread), Function.update_self]

/-- What a decoding leaves, whether it succeeds or not: it comes to the addresses of its walk in
order, once each, and stops at the end of the walk, at a container that lies too deep, or at the
first token whose path leads nowhere.  All containers keep their kind, length and names.  Where it
did not come to, nothing is changed; where it came to, the value stays or, if it is a token at
that moment, is what the path leads to at that moment. -/
theorem decode_overwrites (h : Heap X) (limit : UInt32) (root : Value X) :
    ∃ stops done k, h.Itinerary root stops ∧ stops.Nodup ∧
      (∀ p, p ∈ stops ↔ h.Enters root p.1 ∧ p ∈ h.addresses p.1) ∧ done <+: stops ∧
      (h.decode limit root = (.ok (), k) ∧ done = stops ∨
        ∃ e, h.decode limit root = (.error e, k) ∧ h.Halted limit root stops done e k) ∧
      h.Retains k ∧ (∀ p ∉ done, k.read? p = h.read? p) ∧
      ∀ before p, before ++ [p] <+: done →
        ∃ k₀, h.stage? root before = some k₀ ∧ h.Turn root before k₀ k p := by
  obtain ⟨stops, hstops⟩ := exists_itinerary h root
  obtain ⟨done, k, hdone, hk, hend⟩ := decode_eq_stage? h limit root hstops
  have hnodup := nodup_of_itinerary hstops
  refine ⟨stops, done, k, hstops, hnodup, fun p => mem_itinerary_iff hstops, hdone, hend,
    retains_stage? hk, fun p hp => read?_stage?_of_notMem hk hp, fun before p hp => ?_⟩
  have hmem : p ∈ stops := hdone.subset (hp.subset (by simp))
  have hread := read?_ne_none_iff.2 ((mem_itinerary_iff hstops).1 hmem).2
  exact turn_of_stage? (hnodup.sublist hdone.sublist) hread hk hp

end Leave

/-- A token for the text of a path stands under the `$ref` of an object that comes twice, and
behind it is a token that leads nowhere. -/
def unsigned : Heap Unit :=
  ⟨#[.array [.string "$[0]", .node 1, .node 1, .node 3],
    .object (Table.ofList [(refKey, .node 2)]), signpost "$[0]", signpost "$[9]"]⟩

/-- A decoding that fails has overwritten a position that held no token at the beginning. -/
theorem decode_unsigned :
    (unsigned.decode 1024 (.node 0)).1 = .error (.unresolvedReference "$[9]") ∧
      unsigned.read? (0, 2) = some (.node 1) ∧ unsigned.token? (0, 2) = none ∧
      (unsigned.decode 1024 (.node 0)).2.read? (0, 2) = some (.string "$[0]") := by
  decide +kernel

/-! ## Tokens in graphs and in literals -/

/-- The literal of an object with a string under `$ref` is a token if and only if the object has
no other property that is defined. -/
theorem Writes.refPath?_eq_some_iff {g : Heap Expression} {limit : UInt32} {r : Ref} {L : Literal}
    {t : Table (Value Expression)} {text : String} (hL : g.Writes limit (.node r) L)
    (hcell : g.cell? r = some (.object t)) (htext : t.get? refKey = some (.string text)) :
    L.refPath? = some text ↔
      (t.entries.filter fun entry => entry.2.isDefined) = [(refKey, .string text)] := by
  obtain ⟨fields, rfl, hall⟩ := hL.object hcell
  have hmem : (refKey, .string text) ∈ t.entries.filter fun entry => entry.2.isDefined :=
    List.mem_filter.2 ⟨(t.get?_eq_some_iff).1 htext, rfl⟩
  generalize (t.entries.filter fun entry => entry.2.isDefined) = defined at hall hmem ⊢
  constructor
  · intro htoken
    cases hall with
    | nil => cases hmem
    | cons _ hrest =>
      cases hrest with
      | nil => rw [List.mem_singleton.1 hmem]
      | cons _ _ => cases htoken
  · rintro rfl
    obtain ⟨field, rest, hfield, hrest, rfl⟩ := List.forall₂_cons_left_iff.1 hall
    obtain rfl := List.forall₂_nil_left_iff.1 hrest
    obtain ⟨hkey, hvalue⟩ := hfield
    obtain ⟨name, M⟩ := field
    obtain rfl : name = refKey := hkey
    have hM := hvalue.scalar rfl g limit 0
    obtain rfl : .leaf (.string text) = M := Except.ok.inj hM
    simp [Literal.refPath?, Literal.string?]

/-- Decoding keeps each value that is no object with the text of a path under `$ref`; only what
is one, at the beginning or since its own `$ref` was overwritten, is overwritten.  Other
properties of the object are not asked for, but no literal that is written for it is a token if
another one of them is defined. -/
theorem decode_keeps (h : Heap X) (limit : UInt32) (root : Value X) :
    h.Retains (h.decode limit root).2 ∧
      (∀ p v, h.read? p = some v → (h.decode limit root).2.read? p ≠ some v →
        ∃ text path, (h.decode limit root).2.tokenPath? v = some (text, path) ∧
          (h.tokenPath? v = some (text, path) ∨ ∃ q, h.address? v (.key refKey) = some q ∧
            (h.decode limit root).2.read? q = some (.string text) ∧
            h.read? q ≠ some (.string text))) ∧
      ∀ (g : Heap Expression) limit' r t text L, g.cell? r = some (.object t) →
        t.get? refKey = some (.string text) → g.toLiteral limit' (.node r) = .ok L →
          (L.refPath? = some text ↔
            (t.entries.filter fun entry => entry.2.isDefined) = [(refKey, .string text)]) := by
  obtain ⟨stops, hstops⟩ := exists_itinerary h root
  obtain ⟨done, k, hdone, hk, hend⟩ := decode_eq_stage? h limit root hstops
  have hleft : (h.decode limit root).2 = k := by
    rcases hend with ⟨hok, _⟩ | ⟨_, herror, _⟩ <;> simp [*]
  rw [hleft]
  refine ⟨retains_stage? hk, fun p v hv hchanged => ?_, ?_⟩
  · have hp : p ∈ done := by
      by_contra hp
      exact hchanged (by rw [read?_stage?_of_notMem hk hp, hv])
    obtain ⟨before, after, rfl⟩ := List.append_of_mem hp
    have hnext : before ++ [p] <+: before ++ p :: after := ⟨after, by simp⟩
    have hnodup := (nodup_of_itinerary hstops).sublist hdone.sublist
    obtain ⟨k₀, hk₀, hturn⟩ := turn_of_stage? hnodup (by simp [hv]) hk hnext
    cases hturn with
    | kept hv' _ hkept =>
      obtain rfl := Option.some.inj (hv.symm.trans hv')
      exact absurd hkept hchanged
    | @overwritten v' _ text path hv' htoken _ _ _ =>
      obtain rfl := Option.some.inj (hv.symm.trans hv')
      obtain ⟨k', after', hk', heq, hafter⟩ :=
        exists_stage?_of_prefix hk (List.prefix_append before (p :: after))
      obtain rfl := Option.some.inj (hk₀.symm.trans hk')
      have htoken' := tokenPath?_stage? hafter htoken
      refine ⟨text, path, htoken', ?_⟩
      rcases tokenPath?_of_stage? hk htoken' with hbefore | ⟨q, _, hq⟩
      · exact .inl hbefore
      · exact .inr ⟨q, hq⟩
  · intro g limit' r t text L hcell htext hL
    exact Writes.refPath?_eq_some_iff ⟨_, hL⟩ hcell htext

/-- An object with the text of a path under `$ref` and another property. -/
def labelled : Heap Expression :=
  ⟨#[.array [.node 1, .bool true],
    .object (Table.ofList [(refKey, .string "$[1]"), ("x", .null)])]⟩

/-- Decoding overwrites an object that has a further property and whose literal is no token. -/
theorem decode_labelled :
    (labelled.decode 1024 (.node 0)).1 = .ok () ∧ labelled.read? (0, 0) = some (.node 1) ∧
      labelled.get? (.node 1) "x" = some .null ∧
      (labelled.toLiteral 1024 (.node 1)).toOption.bind Literal.refPath? = none ∧
      (labelled.toLiteral 1024 (.node 1)).isOk = true ∧
      (labelled.decode 1024 (.node 0)).2.read? (0, 0) = some (.bool true) := by
  refine ⟨?_, ?_, ?_, ?_, ?_, ?_⟩ <;> decide +kernel

end Heap

end TypeDescription
