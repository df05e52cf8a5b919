import TypeDescription.Proofs.Graph.Stages

/-!
# Where decoded tokens lead

Decoding follows the path of a token in the graph as it has become, not as it was.
`Heap.held` says which value each position has after a walk came to some addresses: in the
place of a token it is what the path led to among the values that the positions had then.
`Replaced` ties a heap in the middle of decoding to it, and `decode_replaced` says that a graph
without maps is decoded to exactly these values, as long as no token under `$ref` is replaced
by the text of a path (`NamesNoPath`), which would make a token of the object that it is in.

`decode_direct`: where all paths come to positions without tokens only, each token is replaced by
what its path leads to in the graph at the beginning, in whatever order.
-/

namespace TypeDescription

variable {X : Type}

namespace Heap

/-! ## The values at positions -/

/-- The values at positions after a walk came to one more address. -/
def settle (h : Heap X) (root : Value X) (held : Address → Option (Value X)) (p : Address) :
    Address → Option (Value X) :=
  match h.token? p with
  | none => held
  | some (_, path) => Function.update held p (h.resolveIn held root path)

/-- The values at positions after a walk came to some addresses in order. -/
def held (h : Heap X) (root : Value X) (done : List Address) : Address → Option (Value X) :=
  done.foldl (h.settle root) h.read?

/-- No token under `$ref` leads to the text of a path. -/
def NamesNoPath (h : Heap X) (root : Value X) (stops : List Address) : Prop :=
  ∀ done p text path name, done ++ [p] <+: stops → h.token? p = some (text, path) →
    h.IsRefSlot p → h.resolveIn (h.held root done) root path = some (.string name) →
      Path.parse? name = none

/-- No value that a walk from the root meets is a map. -/
def Mapless (h : Heap X) (root : Value X) : Prop :=
  ∀ r entries, h.Reaches root r → h.cell? r ≠ some (.map entries)

theorem mapless_of_cells {h : Heap X} {root : Value X}
    (hcells : ∀ c ∈ h.cells.toList, ∀ entries, c ≠ .map entries) : h.Mapless root := by
  intro r entries _ hcell
  unfold cell? at hcell
  exact hcells _ (Array.mem_toList_iff.2 (Array.mem_of_getElem? hcell)) entries rfl

section Held

variable {h k : Heap X} {root v : Value X} {done stops : List Address} {p q : Address}
  {text : String} {path : Path}

theorem held_concat (h : Heap X) (root : Value X) (done : List Address) (p : Address) :
    h.held root (done ++ [p]) = h.settle root (h.held root done) p := by
  simp [held]

theorem held_concat_of_none (hp : h.token? p = none) :
    h.held root (done ++ [p]) = h.held root done := by
  simp [held_concat, settle, hp]

theorem held_concat_of_token (hp : h.token? p = some (text, path)) :
    h.held root (done ++ [p]) =
      Function.update (h.held root done) p (h.resolveIn (h.held root done) root path) := by
  simp [held_concat, settle, hp]

/-- To come to an address changes the value there at most. -/
theorem held_concat_of_ne (hq : q ≠ p) : h.held root (done ++ [p]) q = h.held root done q := by
  cases hp : h.token? p with
  | none => rw [held_concat_of_none hp]
  | some token => rw [held_concat_of_token hp, Function.update_of_ne hq]

theorem held_concat_self (hp : h.token? p = some (text, path)) :
    h.held root (done ++ [p]) p = h.resolveIn (h.held root done) root path := by
  rw [held_concat_of_token hp, Function.update_self]

/-- A walk leaves alone what it does not come to. -/
theorem held_of_notMem (hq : q ∉ stops) : h.held root stops q = h.read? q := by
  induction stops using List.reverseRecOn with
  | nil => rfl
  | append_singleton done p ih =>
    rw [List.mem_append, not_or, List.mem_singleton] at hq
    rw [held_concat_of_ne hq.2, ih hq.1]

/-- A walk leaves alone what is no token. -/
theorem held_of_none (hq : h.token? q = none) : h.held root stops q = h.read? q := by
  induction stops using List.reverseRecOn with
  | nil => rfl
  | append_singleton done p ih =>
    by_cases hqp : q = p
    · rw [← hqp, held_concat_of_none hq, ih]
    · rw [held_concat_of_ne hqp, ih]

/-- What a walk puts in the place of a token stays there. -/
theorem held_of_token (hnodup : stops.Nodup) (hp : done ++ [p] <+: stops)
    (htoken : h.token? p = some (text, path)) :
    h.held root stops p = h.resolveIn (h.held root done) root path := by
  induction stops using List.reverseRecOn with
  | nil => simp at hp
  | append_singleton before q ih =>
    rcases List.prefix_concat_iff.1 hp with heq | hp
    · obtain ⟨rfl, hpq⟩ := List.append_inj' heq rfl
      obtain rfl := List.singleton_injective hpq
      exact held_concat_self htoken
    · have hmem : p ∈ before := hp.subset (by simp)
      have hne : p ≠ q := by
        rintro rfl
        exact List.disjoint_of_nodup_append hnodup hmem List.mem_cons_self
      rw [held_concat_of_ne hne, ih (List.Nodup.of_append_left hnodup) hp]

/-- What is put in the place of a token, the root reaches. -/
theorem reaches_of_held (hq : h.Reaches root q.1) {s : Ref}
    (hs : h.held root done q = some (.node s)) : h.Reaches root s := by
  induction done using List.reverseRecOn generalizing q s with
  | nil => exact .step hq (values_view h q.1 ▸ List.mem_of_getElem? hs)
  | append_singleton done p ih =>
    by_cases hqp : q = p
    · subst hqp
      cases htoken : h.token? q with
      | none => exact ih hq (held_concat_of_none htoken ▸ hs)
      | some token =>
        rw [held_concat_self htoken] at hs
        have hstep : ∀ u step p w, u = root ∨ (∀ s, u = .node s → h.Reaches root s) →
            h.address? u step = some p → p ∈ h.along (h.held root done) root token.2 →
              h.held root done p = some w → ∀ s, w = .node s → h.Reaches root s := by
          rintro u step p w hu hp _ hw s rfl
          refine ih ?_ hw
          rcases hu with rfl | hu
          · exact .root (address?_eq_some hp)
          · exact hu _ (address?_eq_some hp)
        rcases resolveIn_induct hstep hs with ⟨_, hroot⟩ | hend
        · exact .root hroot.symm
        · exact hend s rfl
    · exact ih hq (held_concat_of_ne hqp ▸ hs)

end Held

/-! ## Decoding puts them there -/

/-- A heap in the middle of decoding: the positions hold the values that they should, and the
same values as at the beginning are taken for tokens. -/
structure Replaced (h : Heap X) (root : Value X) (done : List Address) (k : Heap X) : Prop where
  retains : h.Retains k
  read : k.read? = h.held root done
  token : ∀ v, k.tokenPath? v = h.tokenPath? v

section Replaced

variable {h k : Heap X} {limit : UInt32} {root v : Value X} {done stops : List Address}
  {p : Address} {text : String} {path : Path}

theorem Replaced.resolve_eq (R : h.Replaced root done k) (hmaps : h.Mapless root) :
    k.resolve root path = h.resolveIn (h.held root done) root path := by
  have hmaps' : ∀ r entries, h.Reaches root r → k.cell? r ≠ some (.map entries) := by
    intro r entries hr hcell
    have houtline := R.retains r
    rw [hcell, Option.map_some, eq_comm, Option.map_eq_some_iff] at houtline
    obtain ⟨c, hc, houtline⟩ := houtline
    cases c with
    | map entries => exact hmaps r entries hr hc
    | _ => cases houtline
  have hread : ∀ p s, h.Reaches root p.1 → k.read? p = some (.node s) → h.Reaches root s :=
    fun p s hp hs => reaches_of_held hp (R.read ▸ hs)
  rw [resolve_eq_resolveIn hmaps' hread fun r hr => .root hr, R.read, R.retains.resolveIn_eq]

theorem Replaced.read_next (R : h.Replaced root done k) (hnodup : stops.Nodup)
    (hp : done ++ [p] <+: stops) : k.read? p = h.read? p := by
  have hnew := List.disjoint_of_nodup_append (hnodup.sublist hp.sublist)
  rw [R.read, held_of_notMem fun hmem => hnew hmem List.mem_cons_self]

theorem Replaced.token_next (R : h.Replaced root done k) (hnodup : stops.Nodup)
    (hp : done ++ [p] <+: stops) : k.token? p = h.token? p := by
  unfold token?
  rw [R.read_next hnodup hp, funext R.token]

/-- To replace a token makes a token of no value. -/
theorem Replaced.tokenPath?_setSlot (R : h.Replaced root done k) (hread : k.read? p = h.read? p)
    (htoken : h.token? p = some (text, path)) {target : Value X}
    (hname : h.IsRefSlot p → ∀ name, target = .string name → Path.parse? name = none)
    (v : Value X) : (k.setSlot p.1 p.2 target).tokenPath? v = h.tokenPath? v := by
  obtain ⟨item, hitem, hpath⟩ := Option.bind_eq_some_iff.1 htoken
  have hsome : k.read? p ≠ none := by simp [hread, hitem]
  have hkeep := (R.retains.trans (retains_setSlot k p.1 p.2 target)).address?_eq v (.key refKey)
  have hv := R.token v
  rw [tokenPath?_eq, tokenPath?_eq, R.retains.address?_eq] at hv
  rw [tokenPath?_eq, tokenPath?_eq, hkeep, read?_setSlot hsome]
  cases hq : h.address? v (.key refKey) with
  | none => rfl
  | some q =>
    by_cases hqp : q = p
    · subst hqp
      have hslot : h.IsRefSlot q := by
        rwa [IsRefSlot, ← address?_eq_some hq]
      -- neither the token before nor what is there now is the text of a path
      have hbefore : item.string? = none := by
        cases item with
        | string name => simp [tokenPath?_string] at hpath
        | _ => rfl
      have hafter : target.string?.bind (fun name => (Path.parse? name).map (name, ·)) = none := by
        cases htarget : target with
        | string name => simp [Value.string?, hname hslot name htarget]
        | _ => rfl
      simpa [hitem, hbefore] using hafter
    · simpa only [hq, Option.bind_some, Function.update_of_ne hqp] using hv

/-- Decoding replaces tokens by what their paths lead to, and keeps which values are tokens. -/
theorem carries_replaced (hmaps : h.Mapless root) (hnodup : stops.Nodup)
    (hnames : h.NamesNoPath root stops) : h.Carries root stops (h.Replaced root) where
  start := ⟨.refl h, rfl, fun _ => rfl⟩
  token _ _ _ hp R := R.token_next hnodup hp
  pass _ _ _ _ R hp := ⟨R.retains, R.read.trans (held_concat_of_none hp).symm, R.token⟩
  replace done p k text path target hp R htoken htarget := by
    have hread := R.read_next hnodup hp
    have hsome : k.read? p ≠ none := by
      obtain ⟨item, hitem, _⟩ := Option.bind_eq_some_iff.1 htoken
      simp [hread, hitem]
    rw [R.resolve_eq hmaps] at htarget
    refine ⟨R.retains.trans (retains_setSlot k p.1 p.2 target), ?_, ?_⟩
    · rw [read?_setSlot hsome, R.read, held_concat_of_token htoken, htarget]
    · exact R.tokenPath?_setSlot hread htoken fun hslot name htext =>
        hnames done p text path name hp htoken hslot (htext ▸ htarget)

/-- Decoding a graph without maps replaces the tokens that it comes to, up to its end or to where
it is interrupted. -/
theorem decode_replaced (hmaps : h.Mapless root) (hstops : h.Itinerary root stops)
    (hnames : h.NamesNoPath root stops) (limit : UInt32) :
    Leaves (h.Replaced root stops) (h.Interrupted limit root stops (h.Replaced root))
      (h.decode limit root) :=
  (carries_replaced hmaps (nodup_of_itinerary hstops) hnames).decode limit hstops

end Replaced

/-! ## Direct tokens -/

/-- A path leads to a value, and from the root it comes to positions without a token only. -/
structure Direct (h : Heap X) (root : Value X) (path : Path) : Prop where
  leads : h.resolve root path ≠ none
  direct : ∀ q ∈ h.along h.read? root path, h.token? q = none

section Direct

variable {h k : Heap X} {root : Value X} {done stops : List Address} {path : Path}

theorem resolve_eq_resolveIn_read? (hmaps : h.Mapless root) :
    h.resolve root path = h.resolveIn h.read? root path :=
  resolve_eq_resolveIn hmaps
    (fun p _ hp hs => .step hp (values_view h p.1 ▸ List.mem_of_getElem? hs)) fun _ hr => .root hr

/-- What is replaced does not lie on the way of a direct path. -/
theorem Direct.resolveIn_held (D : h.Direct root path) (hmaps : h.Mapless root) :
    h.resolveIn (h.held root done) root path = h.resolve root path := by
  rw [resolve_eq_resolveIn_read? hmaps]
  exact (resolveIn_congr fun q hq => (held_of_none (D.direct q hq)).symm).symm

/-- If the tokens that decoding comes to have direct paths, and none under `$ref` leads to the
text of a path, then decoding fails at most because the graph nests too deep; else each of these
tokens is replaced by the value that its path led to at the beginning, and nothing else is
changed. -/
theorem decode_direct (limit : UInt32) (hmaps : h.Mapless root)
    (hdirect : ∀ p text path, h.Enters root p.1 → h.token? p = some (text, path) →
      h.Direct root path)
    (hnames : ∀ p text path name, h.Enters root p.1 → h.token? p = some (text, path) →
      h.IsRefSlot p → h.resolve root path = some (.string name) → Path.parse? name = none) :
    (h.decode limit root).1 = .error (.depthExceeded limit) ∨
      ∃ k, h.decode limit root = (.ok (), k) ∧ h.Retains k ∧
        (∀ p text path, h.Enters root p.1 → h.token? p = some (text, path) →
          k.read? p = h.resolve root path) ∧
        ∀ p, (h.Enters root p.1 → h.token? p = none) → k.read? p = h.read? p := by
  obtain ⟨stops, hstops⟩ := exists_itinerary h root
  have hnodup := nodup_of_itinerary hstops
  have henters : ∀ done p, done ++ [p] <+: stops → h.Enters root p.1 := fun done p hp =>
    ((mem_itinerary_iff hstops).1 (hp.subset (by simp))).1
  have hnames' : h.NamesNoPath root stops := by
    intro done p text path name hp htoken hslot htext
    have hp := henters done p hp
    rw [(hdirect p text path hp htoken).resolveIn_held hmaps] at htext
    exact hnames p text path name hp htoken hslot htext
  have hdecode := decode_replaced hmaps hstops hnames' limit
  generalize h.decode limit root = outcome at hdecode
  cases hdecode with
  | error hinterrupted =>
    cases hinterrupted with
    | deep _ _ => exact .inl rfl
    | unresolved hp R htoken hnone =>
      have D := hdirect _ _ _ (henters _ _ hp) htoken
      rw [R.resolve_eq hmaps, D.resolveIn_held hmaps] at hnone
      exact absurd hnone D.leads
  | @ok _ k R =>
    refine .inr ⟨k, rfl, R.retains, fun p text path hp htoken => ?_, fun p hp => ?_⟩
    · have hmem : p ∈ stops := by
        obtain ⟨item, hitem, _⟩ := Option.bind_eq_some_iff.1 htoken
        exact (mem_itinerary_iff hstops).2 ⟨hp, read?_ne_none_iff.1 (by simp [hitem])⟩
      obtain ⟨done, later, rfl⟩ := List.append_of_mem hmem
      have hnext : done ++ [p] <+: done ++ p :: later := ⟨later, by simp⟩
      rw [R.read, held_of_token hnodup hnext htoken,
        (hdirect p text path hp htoken).resolveIn_held hmaps]
    · rw [R.read]
      by_cases hmem : p ∈ stops
      · exact held_of_none (hp ((mem_itinerary_iff hstops).1 hmem).1)
      · exact held_of_notMem hmem

end Direct

/-- An object with the text of a path under `$ref`. -/
def signpost (text : String) : Cell Unit :=
  .object (Table.ofList [(refKey, .string text)])

/-- An array with an object, a set that shares it, and a token for the object; in the object are
a token for the array and one for an element of the set. -/
def signposts : Heap Unit :=
  ⟨#[.array [.node 1, .node 2, .node 5],
    .object (Table.ofList [("up", .node 3), (refKey, .node 4)]),
    .set [.node 1, .string "end"], signpost "$", signpost "$[1][1]", signpost "$[0]"]⟩

theorem decode_direct_signposts :
    signposts.Mapless (.node 0) ∧
      (∀ p text path, signposts.Enters (.node 0) p.1 → signposts.token? p = some (text, path) →
        signposts.Direct (.node 0) path) ∧
      (∀ p text path name, signposts.Enters (.node 0) p.1 →
        signposts.token? p = some (text, path) → signposts.IsRefSlot p →
          signposts.resolve (.node 0) path = some (.string name) → Path.parse? name = none) ∧
      ∃ k, signposts.decode 1024 (.node 0) = (.ok (), k) ∧ k.read? (0, 2) = some (.node 1) ∧
        k.read? (1, 0) = some (.node 0) ∧ k.read? (1, 1) = some (.string "end") ∧
        k.read? (2, 0) = some (.node 1) := by
  have hmaps : signposts.Mapless (.node 0) := mapless_of_cells (by simp [signposts, signpost])
  have hall : ∀ p ∈ signposts.positions, ∀ token ∈ signposts.token? p,
      (signposts.resolve (.node 0) token.2 ≠ none ∧
        ∀ q ∈ signposts.along signposts.read? (.node 0) token.2, signposts.token? q = none) ∧
      ∀ v ∈ signposts.resolve (.node 0) token.2, ∀ name ∈ v.string?, Path.parse? name = none := by
    decide +kernel
  have hdirect : ∀ p text path, signposts.Enters (.node 0) p.1 →
      signposts.token? p = some (text, path) → signposts.Direct (.node 0) path :=
    fun p text path _ htoken =>
      have hp := (hall p (mem_positions htoken) _ htoken).1
      ⟨hp.1, hp.2⟩
  have hnames : ∀ p text path name, signposts.Enters (.node 0) p.1 →
      signposts.token? p = some (text, path) → signposts.IsRefSlot p →
        signposts.resolve (.node 0) path = some (.string name) → Path.parse? name = none :=
    fun p text path name _ htoken _ hname =>
      (hall p (mem_positions htoken) _ htoken).2 _ hname name rfl
  have hroot : signposts.Enters (.node 0) 0 := .root rfl
  have hobject : signposts.Enters (.node 0) 1 :=
    .inside hroot (show signposts.entrance? (0, 0) = some 1 by decide +kernel)
  refine ⟨hmaps, hdirect, hnames, ?_⟩
  rcases decode_direct 1024 hmaps hdirect hnames with hdeep | ⟨k, hok, _, htokens, hothers⟩
  · exact absurd hdeep (by decide +kernel)
  · refine ⟨k, hok, ?_, ?_, ?_, ?_⟩
    · exact htokens (0, 2) "$[0]" [.index 0] hroot (by decide +kernel)
    · exact htokens (1, 0) "$" [] hobject (by decide +kernel)
    · have hover : signposts.token? (1, 1) = some ("$[1][1]", [.index 1, .index 1]) := by
        decide +kernel
      rw [htokens (1, 1) _ _ hobject hover]
      decide +kernel
    · rw [hothers (2, 0) fun _ => by decide +kernel]
      decide +kernel

/-- An array with the text of its own first position, and twice an object that has a token for
this position under `$ref`. -/
def cocoon : Heap Unit :=
  ⟨#[.array [.string "$[0]", .node 1, .node 1], .object (Table.ofList [(refKey, .node 2)]),
    signpost "$[0]"]⟩

/-- A token for a scalar, with another property that has such a token. -/
def parcel : Heap Unit :=
  ⟨#[.array [.null, .node 1],
    .object (Table.ofList [(refKey, .string "$[0]"), ("inner", .node 2)]), signpost "$[0]"]⟩

/-- All tokens have direct paths, and yet decoding replaces an object that was no token before
its own `$ref` was replaced, and does not come to a token that is inside of a token. -/
theorem decode_direct_cocoon_parcel :
    ((∀ p ∈ cocoon.positions, ∀ token ∈ cocoon.token? p,
        cocoon.resolve (.node 0) token.2 ≠ none ∧
          ∀ q ∈ cocoon.along cocoon.read? (.node 0) token.2, cocoon.token? q = none) ∧
      (cocoon.decode 1024 (.node 0)).1 = .ok () ∧ cocoon.token? (0, 2) = none ∧
      cocoon.read? (0, 2) = some (.node 1) ∧
      (cocoon.decode 1024 (.node 0)).2.read? (0, 2) = some (.string "$[0]")) ∧
    (∀ p ∈ parcel.positions, ∀ token ∈ parcel.token? p,
        parcel.resolve (.node 0) token.2 ≠ none ∧
          ∀ q ∈ parcel.along parcel.read? (.node 0) token.2, parcel.token? q = none) ∧
      (parcel.decode 1024 (.node 0)).1 = .ok () ∧ parcel.Reaches (.node 0) 1 ∧
      parcel.token? (1, 1) = some ("$[0]", [.index 0]) ∧
      parcel.resolve (.node 0) [.index 0] = some .null ∧
      (parcel.decode 1024 (.node 0)).2.read? (1, 1) = some (.node 2) := by
  have hcocoon : ∀ p ∈ cocoon.positions, ∀ token ∈ cocoon.token? p,
      cocoon.resolve (.node 0) token.2 ≠ none ∧
        ∀ q ∈ cocoon.along cocoon.read? (.node 0) token.2, cocoon.token? q = none := by
    decide +kernel
  have hparcel : ∀ p ∈ parcel.positions, ∀ token ∈ parcel.token? p,
      parcel.resolve (.node 0) token.2 ≠ none ∧
        ∀ q ∈ parcel.along parcel.read? (.node 0) token.2, parcel.token? q = none := by
    decide +kernel
  have hreaches : parcel.Reaches (.node 0) 1 :=
    .step (.root rfl) (by simp [parcel, view, cell?, viewCell, View.values])
  refine ⟨⟨hcocoon, ?_, ?_, ?_, ?_⟩, hparcel, ?_, hreaches, ?_, ?_, ?_⟩ <;> decide +kernel

end Heap

end TypeDescription
