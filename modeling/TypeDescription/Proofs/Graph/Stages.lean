import TypeDescription.Proofs.Graph.Rounds

/-!
# Heaps in the middle of decoding

Decoding comes to the addresses of its walk one after the other.  At each of them it looks
whether there is a token in the heap as it has become, and if so it writes what the path of the
token leads to in this heap.  `Heap.advance` is one such step, and `Heap.stage?` the heap after
some addresses.

The walk itself is that of the heap at the beginning (`Heap.Itinerary`), whatever is written: a
token stays a token (`tokenPath?_stage?`), and a value can become one only if the walk has been
in its container, under `$ref` (`mem_of_tokenPath?_stage?`), and would not go in again.

* `decode_stage`: decoding leaves the heap after all addresses of its walk, or it is `Halted`, by a
  container too deep or by a token that leads nowhere, and leaves the heap after the addresses
  before.
* `Carries` collects what is to be shown of these heaps if values are to be taken for tokens as
  they were at the beginning; then decoding is `Interrupted` at a token of the beginning.
-/

namespace TypeDescription

variable {X : Type}

namespace Heap

/-! ## One step -/

/-- The heap after decoding came to one more address. -/
def advance (root : Value X) (k : Heap X) (p : Address) : Option (Heap X) :=
  match k.token? p with
  | none => some k
  | some (_, path) => (k.resolve root path).map (k.setSlot p.1 p.2)

/-- A token is an object with the text of a path at the address of its `$ref`. -/
theorem tokenPath?_eq (h : Heap X) (v : Value X) :
    h.tokenPath? v =
      (((h.address? v (.key refKey)).bind h.read?).bind Value.string?).bind fun text =>
        (Path.parse? text).map fun path => (text, path) := by
  rw [← get?_refKey_eq_read?]
  show ((h.get? v refKey).bind Value.string?).bind _ = _
  congr 1
  funext text
  cases Path.parse? text <;> rfl

/-- The text of a path is no token. -/
theorem tokenPath?_string (h : Heap X) (name : String) : h.tokenPath? (.string name) = none :=
  rfl

/-- The text of a token is the string under its `$ref`. -/
theorem read?_of_tokenPath? {h : Heap X} {v : Value X} {text : String} {path : Path}
    (hv : h.tokenPath? v = some (text, path)) :
    ∃ q, h.address? v (.key refKey) = some q ∧ h.read? q = some (.string text) := by
  rw [tokenPath?_eq] at hv
  obtain ⟨name, hname, hparse⟩ := Option.bind_eq_some_iff.1 hv
  obtain ⟨_, _, heq⟩ := Option.map_eq_some_iff.1 hparse
  obtain rfl := (Prod.mk.inj heq).1
  obtain ⟨w, hw, hstring⟩ := Option.bind_eq_some_iff.1 hname
  obtain ⟨q, hq, hw⟩ := Option.bind_eq_some_iff.1 hw
  refine ⟨q, hq, hw.trans ?_⟩
  cases w <;> simp_all [Value.string?]

section Advance

variable {k k' : Heap X} {root v : Value X} {p q : Address} {token : String × Path}

theorem advance_eq_some_iff :
    advance root k p = some k' ↔ (k.token? p = none ∧ k' = k) ∨
      ∃ text path target, k.token? p = some (text, path) ∧ k.resolve root path = some target ∧
        k' = k.setSlot p.1 p.2 target := by
  unfold advance
  cases k.token? p with
  | none => simp [eq_comm]
  | some token =>
    obtain ⟨text, path⟩ := token
    simp [eq_comm]

theorem advance_of_none (hp : k.token? p = none) : advance root k p = some k :=
  advance_eq_some_iff.2 (.inl ⟨hp, rfl⟩)

theorem retains_advance (hk : advance root k p = some k') : k.Retains k' := by
  rcases advance_eq_some_iff.1 hk with ⟨_, rfl⟩ | ⟨_, _, target, _, _, rfl⟩
  · exact .refl _
  · exact retains_setSlot k p.1 p.2 target

theorem read?_ne_none_of_token (hp : k.token? p = some token) : k.read? p ≠ none := by
  obtain ⟨item, hitem, _⟩ := Option.bind_eq_some_iff.1 hp
  simp [hitem]

theorem read?_advance_of_ne (hk : advance root k p = some k') (hq : q ≠ p) :
    k'.read? q = k.read? q := by
  rcases advance_eq_some_iff.1 hk with ⟨_, rfl⟩ | ⟨_, _, _, htoken, _, rfl⟩
  · rfl
  · rw [read?_setSlot (read?_ne_none_of_token htoken), Function.update_of_ne hq]

/-- Tokens stay tokens: what stands under their `$ref` is a string, and no string is replaced. -/
theorem tokenPath?_advance (hk : advance root k p = some k') (hv : k.tokenPath? v = some token) :
    k'.tokenPath? v = some token := by
  obtain ⟨q, hq, htext⟩ := read?_of_tokenPath? hv
  have hread : k'.read? q = k.read? q := by
    by_cases hqp : q = p
    · subst hqp
      have hnone : k.token? q = none := by simp [token?, htext, tokenPath?_string]
      rw [advance_of_none hnone, Option.some.injEq] at hk
      rw [hk]
    · exact read?_advance_of_ne hk hqp
  rw [tokenPath?_eq, (retains_advance hk).address?_eq, hq, Option.bind_some, hread]
  rwa [tokenPath?_eq, hq, Option.bind_some] at hv

/-- A value becomes a token only where its `$ref` is written. -/
theorem address?_of_tokenPath?_advance (hk : advance root k p = some k')
    (hv : k'.tokenPath? v = some token) (hnew : k.tokenPath? v ≠ some token) :
    k.address? v (.key refKey) = some p := by
  obtain ⟨q, hq, _⟩ := read?_of_tokenPath? hv
  rw [(retains_advance hk).address?_eq] at hq
  by_cases hqp : q = p
  · rw [hq, hqp]
  · refine absurd ?_ hnew
    rw [tokenPath?_eq, (retains_advance hk).address?_eq, hq, Option.bind_some,
      read?_advance_of_ne hk hqp] at hv
    rw [tokenPath?_eq, hq, Option.bind_some, hv]

end Advance

/-! ## All steps -/

/-- The heap after decoding came to some addresses in order; there is none if a token at one of
them leads nowhere. -/
def stage? (h : Heap X) (root : Value X) (done : List Address) : Option (Heap X) :=
  done.foldlM (advance root) h

section Stage

variable {h k k' : Heap X} {root v : Value X} {before done : List Address} {p q : Address}
  {token : String × Path}

theorem stage?_append (h : Heap X) (root : Value X) (before after : List Address) :
    h.stage? root (before ++ after) = (h.stage? root before).bind fun k => k.stage? root after :=
  List.foldlM_append

theorem stage?_concat (h : Heap X) (root : Value X) (done : List Address) (p : Address) :
    h.stage? root (done ++ [p]) = (h.stage? root done).bind fun k => advance root k p := by
  rw [stage?_append]
  congr 1
  funext k
  exact Option.bind_fun_some _

/-- What holds at the beginning and is kept by each step holds after all steps. -/
theorem stage?_induct {motive : List Address → Heap X → Prop} (start : motive [] h)
    (step : ∀ done p k k', h.stage? root done = some k → motive done k →
      advance root k p = some k' → motive (done ++ [p]) k')
    (hk : h.stage? root done = some k) : motive done k := by
  induction done using List.reverseRecOn generalizing k with
  | nil =>
    obtain rfl := Option.some.inj hk
    exact start
  | append_singleton done p ih =>
    rw [stage?_concat, Option.bind_eq_some_iff] at hk
    obtain ⟨k₀, hk₀, hk⟩ := hk
    exact step done p k₀ k hk₀ (ih hk₀) hk

/-- Before the heap after some addresses there are those after the first of them. -/
theorem exists_stage?_of_prefix (hk : h.stage? root done = some k) (hbefore : before <+: done) :
    ∃ k' after, h.stage? root before = some k' ∧ done = before ++ after ∧
      k'.stage? root after = some k := by
  obtain ⟨after, rfl⟩ := hbefore
  rw [stage?_append, Option.bind_eq_some_iff] at hk
  obtain ⟨k', hk', hk⟩ := hk
  exact ⟨k', after, hk', rfl, hk⟩

theorem retains_stage? (hk : h.stage? root done = some k) : h.Retains k :=
  stage?_induct (motive := fun _ k => h.Retains k) (.refl h)
    (fun _ _ _ _ _ ih hadvance => ih.trans (retains_advance hadvance)) hk

/-- Decoding writes only where it comes to. -/
theorem read?_stage?_of_notMem (hk : h.stage? root done = some k) (hq : q ∉ done) :
    k.read? q = h.read? q := by
  refine stage?_induct (motive := fun done k => q ∉ done → k.read? q = h.read? q) (fun _ => rfl)
    (fun done p k k' _ ih hadvance hq => ?_) hk hq
  rw [List.mem_append, not_or, List.mem_singleton] at hq
  rw [read?_advance_of_ne hadvance hq.2, ih hq.1]

theorem tokenPath?_stage? (hk : h.stage? root done = some k) (hv : h.tokenPath? v = some token) :
    k.tokenPath? v = some token :=
  stage?_induct (motive := fun _ k => k.tokenPath? v = some token) hv
    (fun _ _ _ _ _ ih hadvance => tokenPath?_advance hadvance ih) hk

/-- Decoding came to the `$ref` of a value that has become a token. -/
theorem mem_of_tokenPath?_stage? (hk : h.stage? root done = some k)
    (hv : k.tokenPath? v = some token) (hnew : h.tokenPath? v ≠ some token) :
    ∃ q ∈ done, h.address? v (.key refKey) = some q := by
  refine stage?_induct (motive := fun done k => k.tokenPath? v = some token →
    ∃ q ∈ done, h.address? v (.key refKey) = some q) (fun hv => absurd hv hnew)
    (fun done p k k' hk ih hadvance hv => ?_) hk hv
  by_cases hbefore : k.tokenPath? v = some token
  · obtain ⟨q, hq, haddress⟩ := ih hbefore
    exact ⟨q, List.mem_append_left _ hq, haddress⟩
  · have haddress := address?_of_tokenPath?_advance hadvance hv hbefore
    rw [(retains_stage? hk).address?_eq] at haddress
    exact ⟨p, by simp, haddress⟩

/-- When decoding comes to an address, it finds there what was there at the beginning. -/
theorem read?_stage?_next {stops : List Address} (hnodup : stops.Nodup)
    (hk : h.stage? root done = some k) (hp : done ++ [p] <+: stops) : k.read? p = h.read? p := by
  have hnew := List.disjoint_of_nodup_append (hnodup.sublist hp.sublist)
  exact read?_stage?_of_notMem hk fun hmem => hnew hmem List.mem_cons_self

end Stage

/-! ## Decoding takes these steps -/

/-- The container lies so many containers below the root, on a way that decoding can go. -/
inductive Lies (h : Heap X) (root : Value X) : Nat → Ref → Prop
  | root {r : Ref} : root.unwrap = .node r → Lies h root 0 r
  | inside {n : Nat} {p : Address} {r : Ref} : Lies h root n p.1 → h.entrance? p = some r →
      Lies h root (n + 1) r

/-- Decoding stopped after some addresses of its walk: where it comes to a container that it was
not in and that lies too deep, or at the first token that leads nowhere in the heap there is. -/
inductive Halted (h : Heap X) (limit : UInt32) (root : Value X) (stops done : List Address) :
    CodecError → Heap X → Prop
  | deep {r : Ref} {k : Heap X} : done <+: stops → h.stage? root done = some k →
      h.Lies root limit.toNat r → (∀ q ∈ done, q.1 ≠ r) →
      (root.unwrap = .node r ∨ ∃ p, done ++ [p] <+: stops ∧ h.entrance? p = some r) →
        Halted h limit root stops done (.depthExceeded limit) k
  | unresolved {p : Address} {text : String} {path : Path} {k : Heap X} :
      done ++ [p] <+: stops → h.stage? root done = some k → k.token? p = some (text, path) →
        k.resolve root path = none → Halted h limit root stops done (.unresolvedReference text) k

/-- A state of the decoder with the addresses of an agenda ahead of it. -/
def Along (h : Heap X) (root : Value X) (stops agenda : List Address) (s : Decoding X) : Prop :=
  ∃ done later, stops = done ++ later ∧ h.stage? root done = some s.heap ∧
    h.Rounds s.visited agenda later ∧ ∀ q ∈ done ++ agenda, q.1 ∈ s.visited

section Along

variable {h k : Heap X} {limit : UInt32} {root : Value X} {stops agenda rest : List Address}
  {s : Decoding X} {p : Address} {r : Ref} {level n : Nat}

theorem Along.cons_inv (A : h.Along root stops (p :: rest) s) :
    ∃ done later, stops = done ++ [p] ++ later ∧ done ++ [p] <+: stops ∧
      h.stage? root done = some s.heap ∧ h.Rounds s.visited (p :: rest) (p :: later) ∧
      ∀ q ∈ done ++ p :: rest, q.1 ∈ s.visited := by
  obtain ⟨done, later, hstops, hk, R, hvisited⟩ := A
  obtain ⟨later, rfl⟩ := R.head
  have hsplit : stops = done ++ [p] ++ later := by simp [hstops]
  exact ⟨done, later, hsplit, ⟨later, hsplit.symm⟩, hk, R, hvisited⟩

theorem Along.read? (A : h.Along root stops (p :: rest) s) (hnodup : stops.Nodup) :
    s.heap.read? p = h.read? p := by
  obtain ⟨_, _, _, hnext, hk, _, _⟩ := A.cons_inv
  exact read?_stage?_next hnodup hk hnext

/-- What is no token when decoding comes to it was none at the beginning. -/
theorem Along.token?_eq_none (A : h.Along root stops (p :: rest) s) (hnodup : stops.Nodup)
    (htoken : s.heap.token? p = none) : h.token? p = none := by
  obtain ⟨_, _, _, hk, _, _⟩ := id A
  unfold token? at htoken ⊢
  rw [A.read? hnodup, Option.bind_eq_none_iff] at htoken
  rw [Option.bind_eq_none_iff]
  intro v hv
  by_contra hsome
  obtain ⟨token, htext⟩ := Option.ne_none_iff_exists'.1 hsome
  have hnone := htoken v hv
  rw [tokenPath?_stage? hk htext] at hnone
  cases hnone

/-- The container of a value that has become a token was entered before. -/
theorem Along.mem_visited_of_token (A : h.Along root stops (p :: rest) s) (hnodup : stops.Nodup)
    {token : String × Path} (htoken : s.heap.token? p = some token)
    (hr : h.entrance? p = some r) : r ∈ s.visited := by
  obtain ⟨hfree, v, hv, hunwrap⟩ := entrance?_eq_some_iff.1 hr
  obtain ⟨done, later, _, hk, _, hvisited⟩ := id A
  simp only [token?, A.read? hnodup, hv, Option.bind_some] at htoken
  simp only [token?, hv, Option.bind_some] at hfree
  obtain ⟨q, hq, haddress⟩ := mem_of_tokenPath?_stage? hk htoken (by simp [hfree])
  obtain rfl := address?_eq_some haddress
  obtain rfl := Value.node.inj hunwrap
  exact hvisited q (List.mem_append_left _ hq)

/-- A walk that does not go in at an address goes on behind it. -/
theorem Along.advance (A : h.Along root stops (p :: rest) s)
    (hmet : ∀ r, h.entrance? p = some r → r ∈ s.visited)
    (hk : Heap.advance root s.heap p = some k) : h.Along root stops rest { s with heap := k } := by
  obtain ⟨done, later, hsplit, hnext, hstage, R, hvisited⟩ := A.cons_inv
  obtain ⟨_, heq, R⟩ := R.pass_inv hmet
  obtain rfl := (List.cons.inj heq).2
  refine ⟨done ++ [p], later, hsplit, ?_, R, by simpa using hvisited⟩
  rw [stage?_concat, hstage, Option.bind_some, hk]

/-- A walk that enters a container has the positions of the container ahead of it. -/
theorem Along.enter (A : h.Along root stops (p :: rest) s) (htoken : s.heap.token? p = none)
    (hr : h.entrance? p = some r) (hnew : r ∉ s.visited) :
    h.Along root stops (h.addresses r ++ rest) { s with visited := r :: s.visited } := by
  obtain ⟨done, later, hsplit, hnext, hstage, R, hvisited⟩ := A.cons_inv
  obtain ⟨_, heq, R⟩ := R.enter_inv hr hnew
  obtain rfl := (List.cons.inj heq).2
  refine ⟨done ++ [p], later, hsplit, ?_, R, ?_⟩
  · rw [stage?_concat, hstage, Option.bind_some, advance_of_none htoken]
  · intro q hq
    simp only [List.append_assoc, List.singleton_append, List.mem_append,
      List.mem_cons] at hq hvisited
    rcases hq with hq | hq | hq | hq
    · exact List.mem_cons_of_mem _ (hvisited q (.inl hq))
    · exact List.mem_cons_of_mem _ (hvisited q (.inr (.inl hq)))
    · exact (mem_addresses.1 hq).1 ▸ List.mem_cons_self
    · exact List.mem_cons_of_mem _ (hvisited q (.inr (.inr hq)))

/-- The walk of a container that is entered. -/
theorem leaves_decodeAt_enter (hslot : ∀ p rest s, p.1 = r → h.Along root stops (p :: rest) s →
      Leaves (h.Along root stops rest) (fun e s => ∃ done, h.Halted limit root stops done e s.heap)
        ((decodeSlot (decodeAt limit root level) root p.1 p.2).run.run s))
    (hlength : (s.heap.slots r).length = (h.slots r).length)
    (A : h.Along root stops (h.addresses r ++ rest) { s with visited := r :: s.visited })
    (hnew : r ∉ s.visited) :
    Leaves (h.Along root stops rest) (fun e s => ∃ done, h.Halted limit root stops done e s.heap)
      ((decodeAt limit root (level + 1) (.node r)).run.run s) := by
  rw [run_decodeAt_first hnew, hlength]
  exact leaves_forM (P := fun l s => h.Along root stops (l.map (r, ·) ++ rest) s)
    (fun i l s A => hslot (r, i) _ s rfl A) A

/-- Only a container that is not met before makes the decoder go on. -/
private theorem leaves_decodeSlot_of_enter (hnodup : stops.Nodup)
    (A : h.Along root stops (p :: rest) s)
    (henter : ∀ r, s.heap.token? p = none → h.entrance? p = some r → r ∉ s.visited →
      Leaves (h.Along root stops rest)
        (fun e s => ∃ done, h.Halted limit root stops done e s.heap)
        ((decodeAt limit root level (.node r)).run.run s)) :
    Leaves (h.Along root stops rest) (fun e s => ∃ done, h.Halted limit root stops done e s.heap)
      ((decodeSlot (decodeAt limit root level) root p.1 p.2).run.run s) := by
  cases hitem : s.heap.read? p with
  | none =>
    have hnone : s.heap.token? p = none := by simp [token?, hitem]
    rw [run_decodeSlot_none hitem]
    refine .ok (A.advance (fun r hr => ?_) (advance_of_none hnone))
    obtain ⟨_, v, hv, _⟩ := entrance?_eq_some_iff.1 hr
    rw [← A.read? hnodup, hitem] at hv
    cases hv
  | some item =>
    cases hpath : s.heap.tokenPath? item with
    | some token =>
      obtain ⟨text, path⟩ := token
      have htoken : s.heap.token? p = some (text, path) := by simp [token?, hitem, hpath]
      cases htarget : s.heap.resolve root path with
      | none =>
        rw [run_decodeSlot_unresolved hitem hpath htarget]
        obtain ⟨done, _, _, hnext, hk, _, _⟩ := A.cons_inv
        exact .error ⟨done, .unresolved hnext hk htoken htarget⟩
      | some target =>
        rw [run_decodeSlot_token hitem hpath htarget]
        exact .ok (A.advance (fun r hr => A.mem_visited_of_token hnodup htoken hr)
          (advance_eq_some_iff.2 (.inr ⟨text, path, target, htoken, htarget, rfl⟩)))
    | none =>
      have htoken : s.heap.token? p = none := by simp [token?, hitem, hpath]
      have hentrance : h.entrance? p = item.unwrap.ref? := by
        simp [entrance?, A.token?_eq_none hnodup htoken, ← A.read? hnodup, hitem]
      rw [run_decodeSlot_walk hitem hpath, decodeAt_unwrap]
      cases hr : item.unwrap.ref? with
      | none =>
        rw [run_decodeAt_leaf (Value.isContainer_of_ref?_eq_none hr) item.exempt?_unwrap]
        exact .ok (A.advance (fun r hr' => by simp [hentrance, hr] at hr') (advance_of_none htoken))
      | some r =>
        rw [Value.ref?_eq_some_iff.1 hr]
        by_cases hmet : r ∈ s.visited
        · rw [run_decodeAt_again hmet]
          refine .ok (A.advance (fun r' hr' => ?_) (advance_of_none htoken))
          obtain rfl := Option.some.inj (hr'.symm.trans (hentrance.trans hr))
          exact hmet
        · exact henter r htoken (hentrance.trans hr) hmet

/-- Decoding at an address does what the walk does there. -/
theorem leaves_decodeSlot (hnodup : stops.Nodup) (limit : UInt32) (level n : Nat) (p : Address)
    (rest : List Address) (s : Decoding X) (hp : h.Lies root n p.1)
    (hlevel : n + 1 + level = limit.toNat) (A : h.Along root stops (p :: rest) s) :
    Leaves (h.Along root stops rest) (fun e s => ∃ done, h.Halted limit root stops done e s.heap)
      ((decodeSlot (decodeAt limit root level) root p.1 p.2).run.run s) := by
  induction level generalizing n p rest s with
  | zero =>
    refine leaves_decodeSlot_of_enter hnodup A fun r _ hr hnew => ?_
    obtain ⟨done, later, hsplit, hnext, hk, _, hvisited⟩ := A.cons_inv
    rw [run_decodeAt_deep hnew]
    refine .error ⟨done, .deep ((List.prefix_append done [p]).trans hnext) hk ?_ ?_
      (.inr ⟨p, hnext, hr⟩)⟩
    · exact hlevel ▸ .inside hp hr
    · exact fun q hq heq => hnew (heq ▸ hvisited q (List.mem_append_left _ hq))
  | succ level ih =>
    refine leaves_decodeSlot_of_enter hnodup A fun r htoken hr hnew => ?_
    obtain ⟨_, _, _, hk, _, _⟩ := id A
    refine leaves_decodeAt_enter (fun q rest s hq A => ?_) ((retains_stage? hk).length_slots r)
      (A.enter htoken hr hnew) hnew
    exact ih (n + 1) q rest s (hq ▸ .inside hp hr) (by omega) A

/-- Decoding leaves the heap after all addresses of its walk, or stops before. -/
theorem decode_stage (h : Heap X) (limit : UInt32) (root : Value X)
    (hstops : h.Itinerary root stops) :
    Leaves (fun k => h.stage? root stops = some k)
      (fun e k => ∃ done, h.Halted limit root stops done e k) (h.decode limit root) := by
  have hnodup := nodup_of_itinerary hstops
  suffices hrun : Leaves (h.Along root stops [])
      (fun e s => ∃ done, h.Halted limit root stops done e s.heap)
      ((decodeAt limit root limit.toNat root).run.run ⟨h, []⟩) by
    unfold Heap.decode
    generalize (decodeAt limit root limit.toNat root).run.run ⟨h, []⟩ = outcome at hrun
    cases hrun with
    | error hhalted => exact .error hhalted
    | ok A =>
      obtain ⟨done, later, rfl, hk, R, _⟩ := A
      cases R
      exact .ok (by simpa using hk)
  rw [decodeAt_unwrap]
  unfold Itinerary at hstops
  cases hr : root.unwrap.ref? with
  | none =>
    rw [run_decodeAt_leaf (Value.isContainer_of_ref?_eq_none hr) root.exempt?_unwrap]
    simp only [hr, Option.toList_none, List.flatMap_nil] at hstops
    exact .ok ⟨[], stops, rfl, rfl, hstops, by simp⟩
  | some r =>
    have hroot := Value.ref?_eq_some_iff.1 hr
    rw [hroot]
    simp only [hr, Option.toList_some, List.flatMap_singleton] at hstops
    cases hlimit : limit.toNat with
    | zero =>
      rw [run_decodeAt_deep List.not_mem_nil]
      exact .error ⟨[], .deep List.nil_prefix rfl (hlimit ▸ .root hroot) (by simp) (.inl hroot)⟩
    | succ level =>
      refine leaves_decodeAt_enter (fun q rest s hq A => ?_) rfl ?_ List.not_mem_nil
      · exact leaves_decodeSlot hnodup limit level 0 q rest s (hq ▸ .root hroot) (by omega) A
      · refine ⟨[], stops, rfl, rfl, by rwa [List.append_nil], fun q hq => ?_⟩
        exact List.mem_singleton.2 (mem_addresses.1 (by simpa using hq)).1

end Along

/-! ## Steps that keep which values are tokens -/

/-- What is to be shown of the heaps in the middle of a walk, `K done` being those after the
addresses `done`: the value at the next address is taken for a token as it was at the beginning,
and what decoding does to it leads on. -/
structure Carries (h : Heap X) (root : Value X) (stops : List Address)
    (K : List Address → Heap X → Prop) : Prop where
  start : K [] h
  token : ∀ done p k, done ++ [p] <+: stops → K done k → k.token? p = h.token? p
  pass : ∀ done p k, done ++ [p] <+: stops → K done k → h.token? p = none → K (done ++ [p]) k
  replace : ∀ done p k text path target, done ++ [p] <+: stops → K done k →
    h.token? p = some (text, path) → k.resolve root path = some target →
      K (done ++ [p]) (k.setSlot p.1 p.2 target)

/-- Decoding came to an end before the end of its walk: at a container too deep, or at a token
that leads nowhere in the heap there is. -/
inductive Interrupted (h : Heap X) (limit : UInt32) (root : Value X) (stops : List Address)
    (K : List Address → Heap X → Prop) : CodecError → Heap X → Prop
  | deep {done : List Address} {k : Heap X} : done <+: stops → K done k →
      Interrupted h limit root stops K (.depthExceeded limit) k
  | unresolved {done : List Address} {p : Address} {text : String} {path : Path} {k : Heap X} :
      done ++ [p] <+: stops → K done k → h.token? p = some (text, path) →
        k.resolve root path = none →
          Interrupted h limit root stops K (.unresolvedReference text) k

section Carries

variable {h k : Heap X} {limit : UInt32} {root : Value X} {stops done : List Address}
  {K : List Address → Heap X → Prop}

theorem Carries.stage? (C : h.Carries root stops K) (hdone : done <+: stops)
    (hk : h.stage? root done = some k) : K done k := by
  refine stage?_induct (motive := fun done k => done <+: stops → K done k) (fun _ => C.start)
    (fun done p k k' _ ih hadvance hnext => ?_) hk hdone
  have hK := ih ((List.prefix_append done [p]).trans hnext)
  have htoken := C.token done p k hnext hK
  rcases advance_eq_some_iff.1 hadvance with ⟨hnone, rfl⟩ | ⟨_, _, _, hsome, htarget, rfl⟩
  · exact C.pass _ _ _ hnext hK (htoken ▸ hnone)
  · exact C.replace _ _ _ _ _ _ hnext hK (htoken ▸ hsome) htarget

/-- Decoding comes to the end of its walk, or is interrupted. -/
theorem Carries.decode (C : h.Carries root stops K) (limit : UInt32)
    (hstops : h.Itinerary root stops) :
    Leaves (K stops) (h.Interrupted limit root stops K) (h.decode limit root) := by
  have hdecode := decode_stage h limit root hstops
  generalize h.decode limit root = outcome at hdecode
  cases hdecode with
  | ok hk => exact .ok (C.stage? (List.prefix_refl stops) hk)
  | error hhalted =>
    obtain ⟨done, hhalted⟩ := hhalted
    cases hhalted with
    | deep hdone hk _ _ _ => exact .error (.deep hdone (C.stage? hdone hk))
    | @unresolved p _ _ _ hnext hk htoken hnone =>
      have hK := C.stage? ((List.prefix_append done [p]).trans hnext) hk
      exact .error (.unresolved hnext hK (C.token _ _ _ hnext hK ▸ htoken) hnone)

/-- Decoding changes nothing where it comes to no token. -/
theorem decode_of_tokenless (hfree : ∀ p, h.Enters root p.1 → h.token? p = none)
    (limit : UInt32) : (h.decode limit root).2 = h := by
  obtain ⟨stops, hstops⟩ := exists_itinerary h root
  have hnext : ∀ done p, done ++ [p] <+: stops → h.token? p = none := fun done p hp =>
    hfree p ((mem_itinerary_iff hstops).1 (hp.subset (by simp))).1
  have C : h.Carries root stops fun _ k => k = h :=
    { start := rfl
      token := fun _ _ _ _ hk => hk ▸ rfl
      pass := fun _ _ _ _ hk _ => hk
      replace := fun done p _ text path _ hp _ htoken _ => by
        rw [hnext done p hp] at htoken
        cases htoken }
  have hdecode := C.decode limit hstops
  generalize h.decode limit root = outcome at hdecode
  cases hdecode with
  | ok hk => exact hk
  | error hinterrupted =>
    cases hinterrupted with
    | deep _ hk => exact hk
    | unresolved _ hk _ _ => exact hk

end Carries

end Heap

end TypeDescription
