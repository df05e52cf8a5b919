import TypeDescription.Proofs.Graph.NormalizedJson
import TypeDescription.Proofs.Graph.Tour

/-!
# The normal form of a graph

Normalizing leaves the graph as it is and makes a new container for each container that the walk
meets.  `Heap.Normalized` says what stands in the new ones: arrays for arrays and sets, objects for
objects and maps, with the new containers in the places of the old ones (`Heap.normalForm`).

Two entries of a map may have one name.  Both are copied then, but only the last one stands in
the object, so not every new container is below the new root.  Where there are no maps this cannot
happen: a graph that is normalized again is the same up to the names of the containers
(`Heap.Relocation`).
-/

namespace TypeDescription

variable {X : Type}

/-- A container with the containers in it renamed; exempt values and map keys are left alone. -/
def Cell.relabel (f : Ref → Ref) : Cell X → Cell X
  | .array items => .array (items.map (Value.relabel f))
  | .set items => .set (items.map (Value.relabel f))
  | .object properties => .object (properties.map (Value.relabel f))
  | .map entries => .map (entries.map fun entry => (entry.1, entry.2.relabel f))

theorem Cell.slots_relabel (f : Ref → Ref) (c : Cell X) :
    (c.relabel f).slots = c.slots.map (Value.relabel f) := by
  cases c <;> simp [relabel, slots, Table.values, Table.map, Function.comp_def]

/-- Only containers are renamed to containers. -/
theorem Value.relabel_eq_node {f : Ref → Ref} {v : Value X} {q : Ref}
    (hv : v.relabel f = .node q) : ∃ r, v = .node r ∧ f r = q := by
  cases v <;> cases hv
  exact ⟨_, rfl, rfl⟩

namespace Heap

/-- The array or object that stands for a container, with the containers in it renamed.  The
entries of a map are inserted one by one under the names of their keys. -/
def normalForm (h : Heap X) (f : Ref → Ref) : Cell X → Cell X
  | .array items => .array (items.map (Value.relabel f))
  | .set items => .array (items.map (Value.relabel f))
  | .object properties => .object (properties.map (Value.relabel f))
  | .map entries =>
      .object (Table.ofList (entries.map fun entry => (h.propertyKey entry.1, entry.2.relabel f)))

/-- A container is an array or an object. -/
def IsPlain (h : Heap X) (r : Ref) : Prop :=
  (∃ items, h.cell? r = some (.array items)) ∨ ∃ t, h.cell? r = some (.object t)

/-- The graph at a root has its normal form at another one, in containers that the first heap does
not have.  No container of the first heap has changed. -/
structure Normalized (h : Heap X) (x : Value X) (k : Heap X) (y : Value X) (f : Ref → Ref) :
    Prop where
  within : h.Within k
  root : y = x.relabel f
  fresh : ∀ r, h.Reaches x r → h.size ≤ f r ∧ f r < k.size
  injOn : Set.InjOn f {r | h.Reaches x r}
  content : ∀ r c, h.Reaches x r → h.cell? r = some c → k.cell? (f r) = some (h.normalForm f c)
  surjOn : Set.SurjOn f {r | h.Reaches x r} {q | k.Reaches y q}
  plain : ∀ q, k.Reaches y q → k.IsPlain q

/-- The graphs at two roots are one graph, up to the names of the containers. -/
structure Relocation (h : Heap X) (x : Value X) (k : Heap X) (y : Value X) (f : Ref → Ref) :
    Prop where
  root : y = x.relabel f
  bijOn : Set.BijOn f {r | h.Reaches x r} {q | k.Reaches y q}
  content : ∀ r c, h.Reaches x r → h.cell? r = some c → k.cell? (f r) = some (c.relabel f)

/-! ## Copies are normal forms -/

section Normalized

variable {h k : Heap X} {x y : Value X} {added : List (Ref × Ref)} {s : Copying X} {f : Ref → Ref}

theorem cell_mapValues_viewCell (h : Heap X) (f : Ref → Ref) (c : Cell X) :
    ((h.viewCell c).mapValues (.relabel f)).cell = h.normalForm f c := by
  cases c with
  | array items => rfl
  | set items => rfl
  | object properties =>
    rw [viewCell, View.mapValues, View.cell_named, Table.ofList_map,
      Table.eq_of_entries (Table.entries_ofList properties.keys_nodup)]
    rfl
  | map entries =>
    rw [viewCell, View.mapValues, View.cell_named, List.map_map]
    rfl

/-- What is below the root of the copies is a copy of what is below the root. -/
theorem Copied.exists_of_reaches (c : h.Copied ⟨h, []⟩ added s)
    (hnodup : (s.done.map Prod.fst).Nodup) (hy : Copies s.done x y) {q : Ref}
    (hq : s.heap.Reaches y q) : ∃ r, h.Reaches x r ∧ copyOf s r = q := by
  induction hq with
  | root heq =>
    rw [Copied.copies_eq hnodup hy] at heq
    obtain ⟨r, rfl, hr⟩ := Value.relabel_eq_node heq
    exact ⟨r, .root rfl, hr⟩
  | step _ hmem ih =>
    obtain ⟨r, hr, rfl⟩ := ih
    rw [c.view_copyOf hnodup hy hr, View.values_mapValues, List.mem_map] at hmem
    obtain ⟨u, hu, heq⟩ := hmem
    obtain ⟨t, rfl, ht⟩ := Value.relabel_eq_node heq
    exact ⟨t, .step hr (View.values_latest_subset _ hu), ht⟩

theorem Copied.normalized (c : h.Copied ⟨h, []⟩ added s) (hnodup : (s.done.map Prod.fst).Nodup)
    (hy : Copies s.done x y) : h.Normalized x s.heap y (copyOf s) where
  within := c.within
  root := Copied.copies_eq hnodup hy
  fresh r hr := by
    have hdone : s.done = added := by rw [c.done_eq, List.append_nil]
    obtain ⟨q, hq⟩ := c.mem_done hy hr
    rw [copyOf, lookup_of_mem hnodup (hdone.symm ▸ hq), Option.getD_some]
    exact c.span _ hq
  injOn := c.copyOf_injective.injOn
  content r cell hr hcell := by
    have hview : h.view r = h.viewCell cell := by rw [view, hcell]
    rw [c.cell?_copyOf hnodup hy hr, hview, cell_mapValues_viewCell]
  surjOn _ hq := c.exists_of_reaches hnodup hy hq
  plain q hq := by
    obtain ⟨r, hr, rfl⟩ := c.exists_of_reaches hnodup hy hq
    unfold IsPlain
    rw [c.cell?_copyOf hnodup hy hr]
    cases h.view r with
    | list items => exact .inl ⟨_, rfl⟩
    | named fields => exact .inr ⟨_, rfl⟩

/-- Arrays and objects are their own normal form, up to the names of the containers. -/
theorem Normalized.relocation (n : h.Normalized x k y f)
    (hplain : ∀ r, h.Reaches x r → h.IsPlain r) : h.Relocation x k y f := by
  have hcontent : ∀ r c, h.Reaches x r → h.cell? r = some c →
      k.cell? (f r) = some (c.relabel f) := by
    intro r c hr hcell
    rw [n.content r c hr hcell]
    rcases hplain r hr with ⟨items, harray⟩ | ⟨t, hobject⟩
    · obtain rfl := Option.some.inj (hcell.symm.trans harray)
      rfl
    · obtain rfl := Option.some.inj (hcell.symm.trans hobject)
      rfl
  refine ⟨n.root, ⟨fun r hr => ?_, n.injOn, n.surjOn⟩, hcontent⟩
  induction hr with
  | root heq => exact Reaches.root (by rw [n.root, heq, Value.relabel])
  | @step r t hr hmem ih =>
    refine Reaches.step ih ?_
    rw [values_view, slots] at hmem ⊢
    cases hcell : h.cell? r with
    | none => simp [hcell] at hmem
    | some c =>
      rw [hcell] at hmem
      rw [hcontent r c hr hcell, Option.map_some, Option.getD_some, Cell.slots_relabel]
      exact List.mem_map_of_mem hmem

/-- A graph is copied, or nests too deep. -/
theorem normalize_cases (h : Heap X) (x : Value X) :
    h.normalize x = .error (.depthExceeded DepthProfile.codec.limit) ∨
      ∃ y k, h.normalize x = .ok (y, k) := by
  obtain ⟨tour, T⟩ := exists_tours h [] [([], x)]
  simp only [normalize]
  generalize DepthProfile.codec.limit = limit
  have halong := copyAt_alongside h limit limit.toNat [] x [] ⟨h, []⟩ rfl
  rcases run_encodeAt_root limit T with ⟨_, e, seen, hrun, _⟩ | ⟨_, hrun⟩
  · rw [hrun] at halong
    generalize (h.copyAt limit limit.toNat x).run ⟨h, []⟩ = copying at halong ⊢
    cases halong
    exact .inr ⟨_, _, rfl⟩
  · rw [hrun] at halong
    generalize (h.copyAt limit limit.toNat x).run ⟨h, []⟩ = copying at halong ⊢
    cases halong
    exact .inl rfl

theorem normalized_of_normalize (hok : h.normalize x = .ok (y, k)) : ∃ f, h.Normalized x k y f := by
  obtain ⟨s, added, rfl, c, hnodup, hy⟩ := copied_of_normalize hok
  exact ⟨copyOf s, c.normalized hnodup hy⟩

/-- Every graph is normalized, or nests too deep.  If it is normalized, what comes out is its normal
form, and to normalize that again gives, if anything, the same graph in other containers. -/
theorem normalize_preserves (h : Heap X) (x : Value X) :
    h.normalize x = .error (.depthExceeded DepthProfile.codec.limit) ∨
      ∃ y k f, h.normalize x = .ok (y, k) ∧ h.Normalized x k y f ∧
        ∀ z k', k.normalize y = .ok (z, k') → ∃ g, k.Relocation y k' z g := by
  rcases h.normalize_cases x with herror | ⟨y, k, hok⟩
  · exact .inl herror
  · obtain ⟨f, n⟩ := normalized_of_normalize hok
    refine .inr ⟨y, k, f, hok, n, fun z k' hagain => ?_⟩
    obtain ⟨g, n'⟩ := normalized_of_normalize hagain
    exact ⟨g, n'.relocation n.plain⟩

/-- A map with two entries of one name, which leads back to itself through a set, an object and an
array that holds itself. -/
def carousel : Heap Unit :=
  ⟨#[.map [(.number (Double.ofInt 1), .node 1), (.string "1", .node 2), (.null, .exempt (.node 0))],
    .set [.node 0], .object (Table.ofList [("again", .node 0), ("row", .node 3)]),
    .array [.node 3, .node 2]]⟩

theorem normalize_preserves_carousel :
    ∃ y k f z k' g, carousel.normalize (.node 0) = .ok (y, k) ∧
      carousel.Normalized (.node 0) k y f ∧ k.normalize y = .ok (z, k') ∧
      k.Relocation y k' z g := by
  have htwice : (carousel.normalize (.node 0) >>= fun n => n.2.normalize n.1).isOk = true := by
    decide +kernel
  obtain ⟨⟨z, k'⟩, htwice⟩ := exists_of_isOk htwice
  obtain ⟨⟨y₀, k₀⟩, hfirst, hsecond⟩ := bind_eq_ok.1 htwice
  rcases normalize_preserves carousel (.node 0) with herror | ⟨y, k, f, hok, n, hagain⟩
  · rw [hfirst] at herror
    cases herror
  · obtain ⟨rfl, rfl⟩ := Prod.mk.inj (Except.ok.inj (hfirst.symm.trans hok))
    obtain ⟨g, hg⟩ := hagain z k' hsecond
    exact ⟨y₀, k₀, f, z, k', g, hok, n, hsecond, hg⟩

end Normalized

end Heap

end TypeDescription
