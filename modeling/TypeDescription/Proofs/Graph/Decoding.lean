import TypeDescription.Graph.Decode
import TypeDescription.Proofs.Graph.Encoding

/-!
# Decoding an encoded graph

Decoding walks the tree of an encoded graph and changes it in place.  `Planted`
collects what the walk relies on.  In the middle of the walk every slot is
`Settled`, so it holds the new container of its place, or still `Stands` as
encoding left it; `Partway` says so of the whole tree, and that is enough for
every path in a token to lead to the right container (`Planted.resolve_trail`).

The walk takes the places below one place after the other.  `Awaits` is the
state before, `Passed` the state after, `Progress` the state between two slots
of one container; `Planted.decodes` puts them together, and
`Planted.decode_cases` says that the whole walk settles every slot or fails
because a place is too deep.
-/

namespace TypeDescription

variable {X : Type}

namespace Heap

/-! ## The tree -/

/-- A tree of places as encoding leaves it.  No source, trail or target comes
twice, every place is fewer than `room` steps below the root, and no value in a
place is exempt or would pass for a token. -/
structure Planted (h k₁ : Heap X) (room : Nat) (places : List Place) (t : Value X) : Prop where
  image : ∀ p ∈ places, h.Image k₁ places (places.map Place.visit) p
  source_inj : ∀ p ∈ places, ∀ p' ∈ places, p.source = p'.source → p = p'
  trail_inj : ∀ p ∈ places, ∀ p' ∈ places, p.trail = p'.trail → p = p'
  target_inj : ∀ p ∈ places, ∀ p' ∈ places, p.target = p'.target → p = p'
  grown : h.Grown places fun p => p.trail = [] ∧ t = .node p.target
  shallow : ∀ p ∈ places, p.trail.length < room
  names : ∀ p ∈ places, (h.view p.source).names.Nodup
  plain : ∀ p ∈ places, ∀ v ∈ (h.view p.source).values, v.exempt? = none
  free : ∀ p ∈ places, ∀ fields text, h.view p.source = .named fields →
    (refKey, .string text) ∈ fields → Path.parse? text = none

/-- The value that decoding puts in the place of another: the same, or the new
container of the same place. -/
inductive Settled (places : List Place) : Value X → Value X → Prop
  | leaf {v : Value X} : v.isContainer = false → Settled places v v
  | place {p : Place} : p ∈ places → Settled places (.node p.source) (.node p.target)

/-- All values in a place are settled. -/
def Done (h k : Heap X) (places : List Place) (p : Place) : Prop :=
  k.Fills p.target (h.view p.source) fun _ slot u => Settled places slot.2 u

/-- A heap in the middle of decoding: only the containers of places have
changed, and their values are settled or as they were. -/
structure Partway (h k₁ k : Heap X) (places : List Place) : Prop where
  kept : ∀ q, (∀ p ∈ places, p.target ≠ q) → k.cell? q = k₁.cell? q
  mixed : ∀ p ∈ places, k.Fills p.target (h.view p.source) fun _ slot u =>
    Settled places slot.2 u ∨
      k₁.Stands places (places.map Place.visit) (slot.1 :: p.trail) slot.2 u

section Planted

variable {h k₁ k : Heap X} {room : Nat} {places : List Place} {t : Value X}

theorem Planted.partway (P : h.Planted k₁ room places t) : h.Partway k₁ k₁ places where
  kept _ _ := rfl
  mixed p hp := Fills.mono (P.image p hp) (fun _ hc => hc) fun _ _ _ _ hst => .inr hst

/-! ## Tokens and their paths -/

/-- A token is recognized by its path. -/
theorem tokenPath?_tokenCell {q : Ref} {first : Trail}
    (hcell : k.cell? q = some (tokenCell first)) :
    k.tokenPath? (.node q) = some (Path.text first.reverse, first.reverse) := by
  have hget : (Table.ofList [(refKey, Value.string (X := X) (Path.text first.reverse))]).get?
      refKey = some (.string (Path.text first.reverse)) :=
    Table.get?_insert_self _ _ _
  simp [tokenPath?, refPath?, get?, content?, hcell, tokenCell, hget, Value.string?,
    Path.parse?_text]

/-- A scalar is no token. -/
theorem tokenPath?_leaf {v : Value X} (hv : v.isContainer = false) : k.tokenPath? v = none := by
  cases v <;> first | rfl | simp [Value.isContainer] at hv

/-- The container of a place is not taken for a token. -/
theorem Planted.tokenPath?_target (P : h.Planted k₁ room places t) (K : h.Partway k₁ k places)
    {p : Place} (hp : p ∈ places) : k.tokenPath? (.node p.target) = none := by
  cases hget : k.get? (.node p.target) refKey with
  | none => simp [tokenPath?, refPath?, hget]
  | some u =>
    obtain ⟨fields, i, v, hview, hmem, hrel⟩ := (K.mixed p hp).get? (P.names p hp) hget
    have hplain : v.exempt? = none := by
      apply P.plain p hp
      rw [hview]
      exact List.mem_map_of_mem (f := Prod.snd) hmem
    cases hu : u.string? with
    | none => simp [tokenPath?, refPath?, hget, hu]
    | some text =>
      obtain rfl : u = .string text := by cases u <;> simp_all [Value.string?]
      have hv : v = .string text := by
        rcases hrel with hset | hst
        · cases hset
          rfl
        · generalize hw : Value.string text = w at hst
          cases hst with
          | leaf _ => cases v <;> simp_all [Value.taken, Value.exempt?]
          | first _ => cases hw
          | again _ _ _ => cases hw
      subst hv
      simp [tokenPath?, refPath?, hget, Value.string?, P.free p hp fields text hview hmem]

/-- Tokens are not changed. -/
theorem Planted.cell?_token (P : h.Planted k₁ room places t) (K : h.Partway k₁ k places)
    {q : Ref} {first : Trail} (hcell : k₁.cell? q = some (tokenCell first)) :
    k.cell? q = some (tokenCell first) := by
  rw [K.kept q ?_, hcell]
  rintro p hp rfl
  have hnone := P.tokenPath?_target P.partway hp
  rw [tokenPath?_tokenCell hcell] at hnone
  cases hnone

/-- The trail of a place leads to its container, all through the walk. -/
theorem Planted.resolve_trail (P : h.Planted k₁ room places t) (K : h.Partway k₁ k places) :
    ∀ p ∈ places, k.resolve t p.trail.reverse = some (.node p.target) := by
  refine P.grown.resolve_trail fun p hp p' hp' step htrail hslot => ?_
  obtain ⟨i, u, hstep, hrel⟩ := (K.mixed p hp).step? (P.names p hp) hslot
  rw [hstep]
  rcases hrel with hset | hst
  · generalize hv : Value.node p'.source = v at hset
    cases hset with
    | leaf hv' =>
      subst hv
      cases hv'
    | place hq => rw [P.source_inj p' hp' _ hq (Value.node.inj hv)]
  · have hu : u = .node p'.target := Stands.eq_target P.source_inj hp' (htrail ▸ hst)
    rw [hu]

/-! ## The places below a place -/

/-- A place below another is that place or lies below one of its slots. -/
theorem Planted.below_cases (P : h.Planted k₁ room places t) {p : Place} (hp : p ∈ places) :
    ∀ p' ∈ places, p.trail <:+ p'.trail →
      p' = p ∨ ∃ slot ∈ (h.view p.source).slots, slot.1 :: p.trail <:+ p'.trail := by
  refine P.grown.induct (motive := fun p' => p.trail <:+ p'.trail →
    p' = p ∨ ∃ slot ∈ (h.view p.source).slots, slot.1 :: p.trail <:+ p'.trail) ?_ ?_
  · intro p' hp' hin hsuf
    obtain ⟨htrail, _⟩ := hin
    rw [htrail, List.suffix_nil] at hsuf
    exact .inl (P.trail_inj p' hp' p hp (htrail.trans hsuf.symm))
  · intro p₀ hp₀ p' hp' hin ih hsuf
    obtain ⟨step, htrail, hslot⟩ := hin
    rw [htrail, List.suffix_cons_iff] at hsuf
    rcases hsuf with heq | hsuf
    · exact .inl (P.trail_inj p' hp' p hp (htrail.trans heq.symm))
    · rcases ih hsuf with rfl | ⟨slot, hmem, hbelow⟩
      · exact .inr ⟨_, hslot, htrail ▸ List.suffix_refl _⟩
      · exact .inr ⟨slot, hmem, htrail ▸ hbelow.trans (List.suffix_cons _ _)⟩

/-- A slot with a place below it holds the container of a place. -/
theorem Planted.place_of_below (P : h.Planted k₁ room places t) {p : Place} (hp : p ∈ places)
    {slot : Step × Value X} (hslot : slot ∈ (h.view p.source).slots) :
    ∀ p' ∈ places, slot.1 :: p.trail <:+ p'.trail →
      ∃ q ∈ places, q.trail = slot.1 :: p.trail ∧ slot.2 = .node q.source := by
  refine P.grown.induct (motive := fun p' => slot.1 :: p.trail <:+ p'.trail →
    ∃ q ∈ places, q.trail = slot.1 :: p.trail ∧ slot.2 = .node q.source) ?_ ?_
  · intro p' hp' hin hsuf
    obtain ⟨htrail, _⟩ := hin
    rw [htrail, List.suffix_nil] at hsuf
    cases hsuf
  · intro p₀ hp₀ p' hp' hin ih hsuf
    obtain ⟨step, htrail, hmem⟩ := hin
    rw [htrail, List.suffix_cons_iff] at hsuf
    rcases hsuf with heq | hsuf
    · obtain ⟨hstep, htr⟩ := List.cons.inj heq
      obtain rfl := P.trail_inj p hp p₀ hp₀ htr
      refine ⟨p', hp', by rw [htrail, hstep], ?_⟩
      have heq := List.inj_on_of_nodup_map (View.nodup_steps (P.names p hp)) hslot hmem hstep
      rw [heq]
    · exact ih hsuf

end Planted

/-! ## The state of the walk -/

/-- The places at the end of a trail and below it are still to be walked. -/
structure Awaits (k₁ : Heap X) (places : List Place) (s : Decoding X) (trail : Trail) :
    Prop where
  fresh : ∀ p ∈ places, trail <:+ p.trail → s.heap.cell? p.target = k₁.cell? p.target
  unvisited : ∀ p ∈ places, trail <:+ p.trail → p.target ∉ s.visited

/-- A walk has settled the places at the end of a trail and below it, and left
all others alone. -/
structure Passed (h k₁ : Heap X) (places : List Place) (trail : Trail) (s s' : Decoding X) :
    Prop where
  partway : h.Partway k₁ s'.heap places
  done : ∀ p ∈ places, trail <:+ p.trail → h.Done s'.heap places p
  frame : ∀ p ∈ places, ¬ trail <:+ p.trail → s'.heap.cell? p.target = s.heap.cell? p.target
  visited : ∀ q ∈ s'.visited, q ∈ s.visited ∨ ∃ p ∈ places, trail <:+ p.trail ∧ p.target = q

/-- The walk of a place that began in one state has settled its first `j` slots
and the places below them. -/
structure Progress (h k₁ : Heap X) (places : List Place) (p : Place) (s : Decoding X) (j : Nat)
    (s' : Decoding X) : Prop where
  partway : h.Partway k₁ s'.heap places
  part : s'.heap.Fills p.target (h.view p.source) fun i slot u =>
    (i < j → Settled places slot.2 u) ∧
      (j ≤ i → k₁.Stands places (places.map Place.visit) (slot.1 :: p.trail) slot.2 u)
  done : ∀ i slot, (h.view p.source).slots[i]? = some slot → i < j →
    ∀ p' ∈ places, slot.1 :: p.trail <:+ p'.trail → h.Done s'.heap places p'
  ahead : ∀ i slot, (h.view p.source).slots[i]? = some slot → j ≤ i →
    Awaits k₁ places s' (slot.1 :: p.trail)
  frame : ∀ p' ∈ places, ¬ p.trail <:+ p'.trail →
    s'.heap.cell? p'.target = s.heap.cell? p'.target
  visited : ∀ q ∈ s'.visited, q ∈ s.visited ∨ ∃ p' ∈ places, p.trail <:+ p'.trail ∧ p'.target = q

section Walk

variable {h k₁ : Heap X} {room : Nat} {places : List Place} {t : Value X} {p : Place}
  {s s₁ s₂ : Decoding X} {j : Nat} {slot : Step × Value X}

/-- Two slots of one place lead to different parts of the tree. -/
theorem Planted.not_below_both (P : h.Planted k₁ room places t) (hp : p ∈ places)
    {i : Nat} {slot' : Step × Value X} (hslot : (h.view p.source).slots[i]? = some slot)
    (hslot' : (h.view p.source).slots[j]? = some slot') (hne : i ≠ j) {trail : Trail}
    (hbelow : slot.1 :: p.trail <:+ trail) : ¬ slot'.1 :: p.trail <:+ trail := by
  refine not_suffix_of_ne (fun heq => hne ?_) hbelow
  have hi : ((h.view p.source).slots.map Prod.fst)[i]? = some slot.1 := by simp [hslot]
  have hj : ((h.view p.source).slots.map Prod.fst)[j]? = some slot.1 := by simp [hslot', heq]
  have hlt := (List.getElem?_eq_some_iff.1 hi).1
  exact (List.getElem?_inj hlt (View.nodup_steps (P.names p hp))).1 (hi.trans hj.symm)

/-- A place is not below its own slots. -/
theorem not_below_slot (step : Step) : ¬ step :: p.trail <:+ p.trail := by
  intro hsuf
  have hlen := hsuf.length_le
  rw [List.length_cons] at hlen
  omega

/-- A changed slot that is settled, with the places below it, is progress. -/
theorem Progress.advance (P : h.Planted k₁ room places t) (hp : p ∈ places)
    (G : h.Progress k₁ places p s j s₁) (hslot : (h.view p.source).slots[j]? = some slot)
    (hpartway : h.Partway k₁ s₂.heap places)
    (hpart : s₂.heap.Fills p.target (h.view p.source) fun i slot u =>
      (i < j + 1 → Settled places slot.2 u) ∧
        (j + 1 ≤ i → k₁.Stands places (places.map Place.visit) (slot.1 :: p.trail) slot.2 u))
    (hdone : ∀ p' ∈ places, slot.1 :: p.trail <:+ p'.trail → h.Done s₂.heap places p')
    (hframe : ∀ p' ∈ places, p' ≠ p → ¬ slot.1 :: p.trail <:+ p'.trail →
      s₂.heap.cell? p'.target = s₁.heap.cell? p'.target)
    (hvisited : ∀ q ∈ s₂.visited,
      q ∈ s₁.visited ∨ ∃ p' ∈ places, slot.1 :: p.trail <:+ p'.trail ∧ p'.target = q) :
    h.Progress k₁ places p s (j + 1) s₂ where
  partway := hpartway
  part := hpart
  done i slot' hslot' hi p' hp' hbelow := by
    by_cases hij : i = j
    · subst hij
      obtain rfl := Option.some.inj (hslot.symm.trans hslot')
      exact hdone p' hp' hbelow
    · have hne : p' ≠ p := by
        intro heq
        subst heq
        exact not_below_slot slot'.1 hbelow
      have hcell := hframe p' hp' hne (P.not_below_both hp hslot' hslot hij hbelow)
      exact (G.done i slot' hslot' (by omega) p' hp' hbelow).mono
        (fun c hc => hcell.trans hc) fun _ _ _ _ hset => hset
  ahead i slot' hslot' hi := by
    have hij : i ≠ j := by omega
    have A := G.ahead i slot' hslot' (by omega)
    refine ⟨fun p' hp' hbelow => ?_, fun p' hp' hbelow hmem => ?_⟩
    · have hne : p' ≠ p := by
        intro heq
        subst heq
        exact not_below_slot slot'.1 hbelow
      rw [hframe p' hp' hne (P.not_below_both hp hslot' hslot hij hbelow)]
      exact A.fresh p' hp' hbelow
    · rcases hvisited _ hmem with hmem | ⟨p₂, hp₂, hbelow₂, heq⟩
      · exact A.unvisited p' hp' hbelow hmem
      · obtain rfl := P.target_inj p₂ hp₂ p' hp' heq
        exact P.not_below_both hp hslot' hslot hij hbelow hbelow₂
  frame p' hp' hbelow := by
    have hne : p' ≠ p := by
      intro heq
      subst heq
      exact hbelow (List.suffix_refl _)
    rw [hframe p' hp' hne fun hs => hbelow ((List.suffix_cons _ _).trans hs)]
    exact G.frame p' hp' hbelow
  visited q hq := by
    rcases hvisited q hq with hq | ⟨p', hp', hbelow, heq⟩
    · exact G.visited q hq
    · exact .inr ⟨p', hp', (List.suffix_cons _ _).trans hbelow, heq⟩

/-- With all its slots settled, a place is passed. -/
theorem Progress.passed (P : h.Planted k₁ room places t) (hp : p ∈ places)
    (G : h.Progress k₁ places p s (h.view p.source).slots.length s₁) :
    h.Passed k₁ places p.trail s s₁ where
  partway := G.partway
  done p' hp' hbelow := by
    rcases P.below_cases hp p' hp' hbelow with rfl | ⟨slot, hslot, hbelow⟩
    · refine G.part.mono (fun _ hc => hc) fun i slot u hi hrel => hrel.1 ?_
      exact (List.getElem?_eq_some_iff.1 hi).1
    · obtain ⟨i, hi⟩ := List.getElem?_of_mem hslot
      exact G.done i slot hi (List.getElem?_eq_some_iff.1 hi).1 p' hp' hbelow
  frame := G.frame
  visited := G.visited

/-- A place marked as visited, with all its slots ahead. -/
theorem Progress.start (P : h.Planted k₁ room places t) (hp : p ∈ places)
    (hpartway : h.Partway k₁ s.heap places) (A : Awaits k₁ places s p.trail) :
    h.Progress k₁ places p s 0 { s with visited := p.target :: s.visited } where
  partway := hpartway
  part := by
    refine Fills.mono (P.image p hp) (fun c hc => ?_) fun i slot u _ hst => ⟨by omega, fun _ => hst⟩
    exact (A.fresh p hp (List.suffix_refl _)).trans hc
  done _ _ _ hi := by omega
  ahead i slot _ _ := by
    refine ⟨fun p' hp' hbelow => ?_, fun p' hp' hbelow hmem => ?_⟩
    · exact A.fresh p' hp' ((List.suffix_cons _ _).trans hbelow)
    · rcases List.mem_cons.1 hmem with heq | hmem
      · obtain rfl := P.target_inj p' hp' p hp heq
        exact not_below_slot slot.1 hbelow
      · exact A.unvisited p' hp' ((List.suffix_cons _ _).trans hbelow) hmem
  frame _ _ _ := rfl
  visited q hq := by
    rcases List.mem_cons.1 hq with rfl | hq
    · exact .inr ⟨p, hp, List.suffix_refl _, rfl⟩
    · exact .inl hq

/-! ## One slot -/

/-- There is nothing at a position that a container does not have. -/
theorem run_decodeSlot_none {child : Value X → Decoder X Unit} {root : Value X} {r : Ref} {i : Nat}
    (hitem : (s.heap.slots r)[i]? = none) :
    (decodeSlot child root r i).run.run s = (.ok (), s) := by
  unfold decodeSlot
  rw [run_bind_of_ok (run_get s)]
  simp only [hitem]
  rfl

/-- A value that is no token is walked. -/
theorem run_decodeSlot_walk {child : Value X → Decoder X Unit} {root item : Value X} {r : Ref}
    {i : Nat} (hitem : (s.heap.slots r)[i]? = some item) (htoken : s.heap.tokenPath? item = none) :
    (decodeSlot child root r i).run.run s = (child item).run.run s := by
  unfold decodeSlot
  rw [run_bind_of_ok (run_get s)]
  simp only [hitem, htoken]

/-- A token is replaced by what its path leads to. -/
theorem run_decodeSlot_token {child : Value X → Decoder X Unit} {root item target : Value X}
    {r : Ref} {i : Nat} {text : String} {path : Path} (hitem : (s.heap.slots r)[i]? = some item)
    (htoken : s.heap.tokenPath? item = some (text, path))
    (htarget : s.heap.resolve root path = some target) :
    (decodeSlot child root r i).run.run s =
      (.ok (), { s with heap := s.heap.setSlot r i target }) := by
  unfold decodeSlot
  rw [run_bind_of_ok (run_get s)]
  simp only [hitem, htoken, htarget]
  rfl

/-- A token that leads nowhere is an error. -/
theorem run_decodeSlot_unresolved {child : Value X → Decoder X Unit} {root item : Value X}
    {r : Ref} {i : Nat} {text : String} {path : Path} (hitem : (s.heap.slots r)[i]? = some item)
    (htoken : s.heap.tokenPath? item = some (text, path))
    (htarget : s.heap.resolve root path = none) :
    (decodeSlot child root r i).run.run s = (.error (.unresolvedReference text), s) := by
  unfold decodeSlot
  rw [run_bind_of_ok (run_get s)]
  simp only [hitem, htoken, htarget]
  rfl

/-- Exempt markers are looked through. -/
theorem decodeAt_unwrap (limit : UInt32) (root : Value X) (level : Nat) (v : Value X) :
    decodeAt limit root level v = decodeAt limit root level v.unwrap := by
  cases level <;> simp only [decodeAt, Value.unwrap_unwrap]

/-- A scalar is left as it is. -/
theorem run_decodeAt_leaf {limit : UInt32} {root v : Value X} {level : Nat}
    (hv : v.isContainer = false) (hplain : v.exempt? = none) :
    (decodeAt limit root level v).run.run s = (.ok (), s) := by
  cases v <;> first | (cases level <;> rfl) | simp_all [Value.isContainer, Value.exempt?]

/-- A container that was met before is left as it is. -/
theorem run_decodeAt_again {limit : UInt32} {root : Value X} {level : Nat} {r : Ref}
    (hmet : r ∈ s.visited) :
    (decodeAt limit root level (.node r)).run.run s = (.ok (), s) := by
  have hc : s.visited.contains r = true := by simpa using hmet
  cases level <;>
  · simp only [decodeAt, Value.unwrap]
    rw [run_bind_of_ok (run_get s)]
    simp only [hc]
    rfl

/-- A container met first is recorded, and then its slots are decoded in
order. -/
theorem run_decodeAt_first {limit : UInt32} {root : Value X} {level : Nat} {r : Ref}
    (hfirst : r ∉ s.visited) :
    (decodeAt limit root (level + 1) (.node r)).run.run s =
      ((List.range (s.heap.slots r).length).forM
        (decodeSlot (decodeAt limit root level) root r)).run.run
          { s with visited := r :: s.visited } := by
  have hc : s.visited.contains r = false := by simpa using hfirst
  simp only [decodeAt, Value.unwrap]
  rw [run_bind_of_ok (run_get s)]
  simp only [hc]
  rfl

/-- No levels are left for a container met first. -/
theorem run_decodeAt_deep {limit : UInt32} {root : Value X} {r : Ref} (hfirst : r ∉ s.visited) :
    (decodeAt limit root 0 (.node r)).run.run s =
      (.error (.depthExceeded limit), { s with visited := r :: s.visited }) := by
  have hc : s.visited.contains r = false := by simpa using hfirst
  simp only [decodeAt, Value.unwrap]
  rw [run_bind_of_ok (run_get s)]
  simp only [hc]
  rfl

/-! ## One place -/

/-- The places at the end of a trail and below it are fewer than `bound` steps below
the root. -/
def Shallow (places : List Place) (trail : Trail) (bound : Nat) : Prop :=
  ∀ p ∈ places, trail <:+ p.trail → p.trail.length < bound

/-- What the walk of a value does that may go fewer than `bound` steps below the root,
from a place whose trail has a certain length: it settles the places there, or fails
because one of them is too deep. -/
structure Decodes (h k₁ : Heap X) (places : List Place) (limit : UInt32) (bound length : Nat)
    (child : Value X → Decoder X Unit) : Prop where
  leaf : ∀ v s, v.isContainer = false → v.exempt? = none → (child v).run.run s = (.ok (), s)
  place : ∀ p ∈ places, p.trail.length = length → ∀ s, h.Partway k₁ s.heap places →
    Awaits k₁ places s p.trail →
      Ends (fun s' => h.Passed k₁ places p.trail s s' ∧ Shallow places p.trail bound)
        (fun e => e = .depthExceeded limit ∧ ¬ Shallow places p.trail bound)
        ((child (.node p.target)).run.run s)

/-- What stands for a scalar, or for the container of a place at that place, is
settled. -/
theorem Planted.settled_of_stands (P : h.Planted k₁ room places t) {trail : Trail}
    {v u : Value X} (hst : k₁.Stands places (places.map Place.visit) trail v u)
    (hv : v.isContainer = false ∧ v.exempt? = none ∨
      ∃ q ∈ places, q.trail = trail ∧ v = .node q.source) : Settled places v u := by
  rcases hv with ⟨hleaf, hplain⟩ | ⟨q, hq, htrail, rfl⟩
  · cases hst with
    | leaf _ =>
      have htaken : v.taken = v := by cases v <;> simp_all [Value.taken, Value.exempt?]
      rw [htaken]
      exact .leaf hleaf
    | first _ => simp [Value.isContainer] at hleaf
    | again _ _ _ => simp [Value.isContainer] at hleaf
  · generalize hr : q.source = r at hst
    generalize hv : Value.node r = v at hst
    cases hst with
    | leaf hleaf =>
      subst hv
      simp [Value.isContainer] at hleaf
    | first hmem =>
      cases hv
      exact .place hmem
    | again hseen hne _ =>
      cases hv
      obtain ⟨p', hp', hvisit⟩ := List.mem_map.1 hseen
      simp only [Place.visit, Prod.mk.injEq] at hvisit
      obtain rfl := P.source_inj p' hp' q hq (hvisit.1.trans hr.symm)
      exact absurd (hvisit.2.symm.trans htrail) hne

/-- A slot that stands for its value only in a settled way counts as settled. -/
theorem Progress.part_succ (G : h.Progress k₁ places p s j s₁)
    (hslot : (h.view p.source).slots[j]? = some slot)
    (hsettled : ∀ u, k₁.Stands places (places.map Place.visit) (slot.1 :: p.trail) slot.2 u →
      Settled places slot.2 u) :
    s₁.heap.Fills p.target (h.view p.source) fun i slot u =>
      (i < j + 1 → Settled places slot.2 u) ∧
        (j + 1 ≤ i → k₁.Stands places (places.map Place.visit) (slot.1 :: p.trail) slot.2 u) := by
  refine G.part.mono (fun _ hc => hc) fun i slot' u hslot' hrel => ⟨fun hi => ?_, fun hi => ?_⟩
  · by_cases hij : i = j
    · subst hij
      obtain rfl := Option.some.inj (hslot.symm.trans hslot')
      exact hsettled u (hrel.2 (Nat.le_refl _))
    · exact hrel.1 (by omega)
  · exact hrel.2 (by omega)

/-- A slot with a scalar is passed over. -/
theorem Progress.step_leaf (P : h.Planted k₁ room places t) (hp : p ∈ places)
    (G : h.Progress k₁ places p s j s₁) (hslot : (h.view p.source).slots[j]? = some slot)
    (hleaf : slot.2.isContainer = false) (hplain : slot.2.exempt? = none) :
    h.Progress k₁ places p s (j + 1) s₁ := by
  have hpart := G.part_succ hslot fun u hst => P.settled_of_stands hst (.inl ⟨hleaf, hplain⟩)
  refine G.advance P hp hslot G.partway hpart ?_ (fun _ _ _ _ => rfl) fun q hq => .inl hq
  intro p' hp' hbelow
  obtain ⟨q, _, _, hv⟩ := P.place_of_below hp (List.mem_of_getElem? hslot) p' hp' hbelow
  rw [hv] at hleaf
  cases hleaf

/-- A slot with the container of a place is walked. -/
theorem Progress.step_first (P : h.Planted k₁ room places t) (hp : p ∈ places)
    (G : h.Progress k₁ places p s j s₁) (hslot : (h.view p.source).slots[j]? = some slot)
    {q : Place} (hq : q ∈ places) (htrail : q.trail = slot.1 :: p.trail)
    (hv : slot.2 = .node q.source) (hpassed : h.Passed k₁ places q.trail s₁ s₂) :
    h.Progress k₁ places p s (j + 1) s₂ := by
  rw [htrail] at hpassed
  have hpart := G.part_succ hslot fun u hst => P.settled_of_stands hst (.inr ⟨q, hq, htrail, hv⟩)
  have hcell := hpassed.frame p hp (not_below_slot slot.1)
  exact G.advance P hp hslot hpassed.partway
    (hpart.mono (fun c hc => hcell.trans hc) fun _ _ _ _ hrel => hrel) hpassed.done
    (fun p' hp' _ hbelow => hpassed.frame p' hp' hbelow) hpassed.visited

/-- A slot with a token gets the container of the place that the token names. -/
theorem Progress.step_again (P : h.Planted k₁ room places t) (hp : p ∈ places)
    (G : h.Progress k₁ places p s j s₁) (hslot : (h.view p.source).slots[j]? = some slot)
    {q : Place} (hq : q ∈ places) (htrail : q.trail ≠ slot.1 :: p.trail)
    (hv : slot.2 = .node q.source) :
    h.Progress k₁ places p s (j + 1)
      { s₁ with heap := s₁.heap.setSlot p.target j (.node q.target) } := by
  have hother : ∀ q', q' ≠ p.target →
      (s₁.heap.setSlot p.target j (.node q.target)).cell? q' = s₁.heap.cell? q' :=
    fun q' hne => cell?_setSlot_of_ne j _ hne
  have hpart : (s₁.heap.setSlot p.target j (.node q.target)).Fills p.target (h.view p.source)
      fun i slot u => (i < j + 1 → Settled places slot.2 u) ∧
        (j + 1 ≤ i →
          k₁.Stands places (places.map Place.visit) (slot.1 :: p.trail) slot.2 u) := by
    refine G.part.setSlot (P.names p hp) hslot ⟨fun _ => hv ▸ .place hq, by omega⟩ ?_
    intro i slot' u hne _ hrel
    exact ⟨fun hi => hrel.1 (by omega), fun hi => hrel.2 (by omega)⟩
  refine G.advance P hp hslot ⟨?_, ?_⟩ hpart ?_ ?_ fun q hq => .inl hq
  · intro q' hq'
    rw [hother q' (hq' p hp).symm]
    exact G.partway.kept q' hq'
  · intro p' hp'
    by_cases heq : p' = p
    · subst heq
      refine hpart.mono (fun _ hc => hc) fun i slot u _ hrel => ?_
      rcases Nat.lt_or_ge i (j + 1) with hi | hi
      · exact .inl (hrel.1 hi)
      · exact .inr (hrel.2 hi)
    · have hne : p'.target ≠ p.target := fun h => heq (P.target_inj p' hp' p hp h)
      exact (G.partway.mixed p' hp').mono (fun c hc => (hother _ hne).trans hc)
        fun _ _ _ _ hrel => hrel
  · intro p' hp' hbelow
    obtain ⟨q', hq', htrail', hv'⟩ :=
      P.place_of_below hp (List.mem_of_getElem? hslot) p' hp' hbelow
    have hsource := Value.node.inj (hv.symm.trans hv')
    obtain rfl := P.source_inj q hq q' hq' hsource
    exact absurd htrail' htrail
  · intro p' hp' hne _
    exact hother _ fun h => hne (P.target_inj p' hp' p hp h)

/-- No place lies below a slot that holds no place. -/
theorem Planted.shallow_slot (P : h.Planted k₁ room places t) (hp : p ∈ places)
    (hslot : slot ∈ (h.view p.source).slots) {bound : Nat}
    (hno : ∀ q ∈ places, q.trail = slot.1 :: p.trail → slot.2 ≠ .node q.source) :
    Shallow places (slot.1 :: p.trail) bound := by
  intro p' hp' hbelow
  obtain ⟨q, hq, htrail, hv⟩ := P.place_of_below hp hslot p' hp' hbelow
  exact absurd hv (hno q hq htrail)

/-- The walk of a slot is progress, or fails because a place below it is too deep. -/
theorem Progress.run_decodeSlot (P : h.Planted k₁ room places t) (hp : p ∈ places)
    {limit : UInt32} {bound : Nat} {child : Value X → Decoder X Unit}
    (hchild : h.Decodes k₁ places limit bound (p.trail.length + 1) child)
    (G : h.Progress k₁ places p s j s₁) (hslot : (h.view p.source).slots[j]? = some slot) :
    Ends (fun s₂ => h.Progress k₁ places p s (j + 1) s₂ ∧
        Shallow places (slot.1 :: p.trail) bound)
      (fun e => e = .depthExceeded limit ∧ ¬ Shallow places (slot.1 :: p.trail) bound)
      ((decodeSlot child t p.target j).run.run s₁) := by
  obtain ⟨u, hitem, hrel⟩ := G.part.getElem? (P.names p hp) hslot
  have hst := hrel.2 (Nat.le_refl _)
  have hmem := List.mem_of_getElem? hslot
  have hplain : slot.2.exempt? = none := P.plain p hp _ (View.mem_values_of_mem_slots hmem)
  obtain ⟨step, v⟩ := slot
  cases hv : v.isContainer with
  | false =>
    have hset := P.settled_of_stands hst (.inl ⟨hv, hplain⟩)
    obtain rfl : u = v := by
      cases hset with
      | leaf _ => rfl
      | place _ => simp [Value.isContainer] at hv
    rw [run_decodeSlot_walk hitem (tokenPath?_leaf hv), hchild.leaf u s₁ hv hplain]
    refine .ok ⟨G.step_leaf P hp hslot hv hplain, P.shallow_slot hp hmem ?_⟩
    rintro q _ _ rfl
    cases hv
  | true =>
    cases hst with
    | leaf hleaf => simp [hv] at hleaf
    | @first r q hplace =>
      have A := G.ahead j _ hslot (Nat.le_refl _)
      have hends := hchild.place _ hplace (by simp) s₁ G.partway A
      rw [run_decodeSlot_walk hitem (P.tokenPath?_target G.partway hplace)]
      generalize (child (.node q)).run.run s₁ = outcome at hends
      cases hends with
      | ok hpassed => exact .ok ⟨G.step_first P hp hslot hplace rfl rfl hpassed.1, hpassed.2⟩
      | error hdeep => exact .error hdeep
    | again hseen hne hcell =>
      obtain ⟨q, hq, hvisit⟩ := List.mem_map.1 hseen
      simp only [Place.visit, Prod.mk.injEq] at hvisit
      obtain ⟨rfl, rfl⟩ := hvisit
      have htoken := tokenPath?_tokenCell (P.cell?_token G.partway hcell)
      have htarget := P.resolve_trail G.partway q hq
      rw [run_decodeSlot_token hitem htoken htarget]
      refine .ok ⟨G.step_again P hp hslot hq hne rfl, P.shallow_slot hp hmem ?_⟩
      rintro q' hq' htrail hsource
      obtain rfl := P.source_inj q hq q' hq' (Value.node.inj hsource)
      exact hne htrail

/-! ## The whole walk -/

/-- The walk does what it should with any number of levels. -/
theorem Planted.decodes (P : h.Planted k₁ room places t) (limit : UInt32) (level length bound : Nat)
    (hbound : length + level = bound) :
    h.Decodes k₁ places limit bound length (decodeAt limit t level) := by
  induction level generalizing length with
  | zero =>
    refine ⟨fun v s hv hplain => run_decodeAt_leaf hv hplain, fun p hp hlen s _ A => ?_⟩
    rw [run_decodeAt_deep (A.unvisited p hp (List.suffix_refl _))]
    refine .error ⟨rfl, fun hshallow => ?_⟩
    have hlt := hshallow p hp (List.suffix_refl _)
    omega
  | succ level ih =>
    refine ⟨fun v s hv hplain => run_decodeAt_leaf hv hplain, fun p hp hlen s hpartway A => ?_⟩
    have hchild := ih (p.trail.length + 1) (by omega)
    have hslots : (s.heap.slots p.target).length = (h.view p.source).slots.length :=
      (hpartway.mixed p hp).length_slots (P.names p hp)
    rw [run_decodeAt_first (A.unvisited p hp (List.suffix_refl _)), hslots]
    -- the loop also keeps that the slots behind it have no deep places below
    have hends := ends_forM_range
      (P := fun j s₁ => h.Progress k₁ places p s j s₁ ∧
        ∀ i slot, (h.view p.source).slots[i]? = some slot → i < j →
          Shallow places (slot.1 :: p.trail) bound)
      (Q := fun e => e = .depthExceeded limit ∧ ¬ Shallow places p.trail bound)
      (f := decodeSlot (decodeAt limit t level) t p.target)
      (n := (h.view p.source).slots.length)
      (s := { s with visited := p.target :: s.visited }) ?_
      ⟨Progress.start P hp hpartway A, fun i slot _ hi => absurd hi (Nat.not_lt_zero i)⟩
    · generalize ((List.range (h.view p.source).slots.length).forM
        (decodeSlot (decodeAt limit t level) t p.target)).run.run
          { s with visited := p.target :: s.visited } = outcome at hends ⊢
      cases hends with
      | error hdeep => exact .error hdeep
      | ok hdone =>
        refine .ok ⟨hdone.1.passed P hp, fun p' hp' hbelow => ?_⟩
        rcases P.below_cases hp p' hp' hbelow with rfl | ⟨slot, hslot, hbelow⟩
        · omega
        · obtain ⟨i, hi⟩ := List.getElem?_of_mem hslot
          exact hdone.2 i slot hi (List.getElem?_eq_some_iff.1 hi).1 p' hp' hbelow
    · intro j s₁ hj G
      have hslot := List.getElem?_eq_getElem hj
      have hstep := G.1.run_decodeSlot P hp hchild hslot
      generalize (decodeSlot (decodeAt limit t level) t p.target j).run.run s₁ = outcome at hstep ⊢
      cases hstep with
      | error hdeep =>
        exact .error ⟨hdeep.1, fun hshallow => hdeep.2 fun p' hp' hbelow =>
          hshallow p' hp' ((List.suffix_cons _ _).trans hbelow)⟩
      | ok hstep =>
        refine .ok ⟨hstep.1, fun i slot hi hlt => ?_⟩
        by_cases hij : i = j
        · subst hij
          obtain rfl := Option.some.inj (hslot.symm.trans hi)
          exact hstep.2
        · exact G.2 i slot hi (by omega)

/-- Decoding succeeds and settles every slot of every place, or fails because a place
is too deep. -/
theorem Planted.decode_cases (P : h.Planted k₁ room places t) (limit : UInt32) (hp : p ∈ places)
    (htrail : p.trail = []) :
    (∃ k, k₁.decode limit t = (.ok (), k) ∧ (∀ p' ∈ places, h.Done k places p') ∧
      ∀ p' ∈ places, p'.trail.length < limit.toNat) ∨
    (∃ k, k₁.decode limit t = (.error (.depthExceeded limit), k) ∧
      ∃ p' ∈ places, limit.toNat ≤ p'.trail.length) := by
  have hroot : t = .node p.target := by
    rcases P.grown p hp with ⟨_, ht⟩ | ⟨_, _, _, heq, _⟩
    · exact ht
    · rw [htrail] at heq
      cases heq
  have hall : ∀ p' : Place, p.trail <:+ p'.trail := fun p' => htrail ▸ List.nil_suffix
  have A : Awaits k₁ places ⟨k₁, []⟩ p.trail := ⟨fun _ _ _ => rfl, fun _ _ _ => by simp⟩
  have hends := (P.decodes limit limit.toNat 0 limit.toNat (Nat.zero_add _)).place p hp
    (by simp [htrail]) ⟨k₁, []⟩ P.partway A
  unfold decode
  rw [← hroot] at hends
  generalize (decodeAt limit t limit.toNat t).run.run ⟨k₁, []⟩ = outcome at hends ⊢
  cases hends with
  | ok hdone =>
    exact .inl ⟨_, rfl, fun p' hp' => hdone.1.done p' hp' (hall p'),
      fun p' hp' => hdone.2 p' hp' (hall p')⟩
  | error hdeep =>
    obtain ⟨rfl, hdeep⟩ := hdeep
    refine .inr ⟨_, rfl, ?_⟩
    by_contra hno
    exact hdeep fun p' hp' _ => Nat.lt_of_not_le fun hle => hno ⟨p', hp', hle⟩

/-- Decoding succeeds if no place is too deep. -/
theorem Planted.decode_eq (P : h.Planted k₁ room places t) {limit : UInt32}
    (hroom : limit.toNat = room) (hp : p ∈ places) (htrail : p.trail = []) :
    ∃ k, k₁.decode limit t = (.ok (), k) ∧ ∀ p' ∈ places, h.Done k places p' := by
  rcases P.decode_cases limit hp htrail with ⟨k, hrun, hdone, _⟩ | ⟨_, _, p', hp', hdeep⟩
  · exact ⟨k, hrun, hdone⟩
  · exact absurd (P.shallow p' hp') (by omega)

end Walk

end Heap

end TypeDescription
