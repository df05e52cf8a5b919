import TypeDescription.Proofs.Depth
import TypeDescription.Proofs.Run
import TypeDescription.Reflected.Reflect

/-!
# The state of a walk

What single steps do to the store, the cache and the depth counter.  A look-up
after `Cache.put` finds the new node, and `Cache.undo` of what was noted gives
the cache from before, entry for entry.  `Reflection.shelled` is the state in
which a type one level down is described; the lemmas `run_nested_full`,
`run_nested_ok` and `run_nested_error` say all that `Reflection.nested` can do, and
`described_of_run_nested` says what has happened when it succeeds.  A class is walked
in the same way unless its node is cached (`Reflector.reflectClass_of_cached`,
`Reflector.reflectClass_of_not_cached`).
-/

namespace TypeDescription

/-! ## Stores -/

namespace Store

variable {s : Store} {r : NodeRef} {node : TypeNode}

theorem size_add (s : Store) (node : TypeNode) : (s.add node).2.size = s.size + 1 := by
  simp [add, size]

/-- An added node makes another store. -/
theorem add_ne (s : Store) (node : TypeNode) : (s.add node).2 ≠ s := by
  intro heq
  have hsize := congrArg size heq
  rw [size_add] at hsize
  omega

theorem node?_add_self (s : Store) (node : TypeNode) :
    (s.add node).2.node? s.size = some node := by
  simp [add, node?, size]

theorem node?_add_of_lt (node : TypeNode) (h : r < s.size) :
    (s.add node).2.node? r = s.node? r := by
  simp only [add, node?, size] at h ⊢
  rw [Array.getElem?_push_lt h, Array.getElem?_eq_getElem h]

theorem lt_size_of_node? (h : s.node? r = some node) : r < s.size := by
  simp only [node?] at h
  exact (Array.getElem?_eq_some_iff.1 h).1

theorem node?_add (h : s.node? r = some node) (other : TypeNode) :
    (s.add other).2.node? r = some node := by
  rw [node?_add_of_lt other (lt_size_of_node? h), h]

theorem content?_add {content : TypeContent} (h : s.content? r = some content) (other : TypeNode) :
    (s.add other).2.content? r = some content := by
  unfold content? at h ⊢
  obtain ⟨node, hnode, h⟩ := Option.bind_eq_some_iff.1 h
  rw [node?_add hnode]
  exact h

theorem size_fill (s : Store) (r : NodeRef) (content : TypeContent) :
    (s.fill r content).size = s.size := by
  unfold fill
  split
  · simp [size]
  · rfl

theorem node?_fill_self {id : TypeId} (h : s.node? r = some ⟨id, none⟩) (content : TypeContent) :
    (s.fill r content).node? r = some ⟨id, some content⟩ := by
  have hlt := lt_size_of_node? h
  simp only [size] at hlt
  unfold fill
  rw [h]
  simp [node?, hlt]

theorem node?_fill_of_ne {r' : NodeRef} (content : TypeContent) (h : r' ≠ r) :
    (s.fill r content).node? r' = s.node? r' := by
  unfold fill
  split
  · simp [node?, h.symm]
  · rfl

theorem content?_fill_of_ne {r' : NodeRef} (content : TypeContent) (h : r' ≠ r) :
    (s.fill r content).content? r' = s.content? r' := by
  unfold content?
  rw [node?_fill_of_ne content h]

/-- A store is its size and its nodes. -/
theorem ext {s s' : Store} (hsize : s'.size = s.size)
    (hnode : ∀ r, r < s.size → s'.node? r = s.node? r) : s' = s := by
  obtain ⟨nodes⟩ := s
  obtain ⟨nodes'⟩ := s'
  simp only [size, node?] at hsize hnode
  congr 1
  refine Array.ext hsize fun i hi hi' => ?_
  have heq := hnode i hi'
  rw [Array.getElem?_eq_getElem hi, Array.getElem?_eq_getElem hi'] at heq
  exact Option.some.inj heq

/-- To drop the nodes added to a store is to go back to it. -/
theorem truncate_eq {s s' : Store} (hsize : s.size ≤ s'.size)
    (hnode : ∀ r, r < s.size → s'.node? r = s.node? r) : s'.truncate s.size = s := by
  refine ext ?_ fun r hr => ?_
  · simp only [truncate, size] at hsize ⊢
    simp [hsize]
  · rw [← hnode r hr]
    simp only [truncate, node?, size] at hr ⊢
    simp only [size] at hsize
    have hlt : r < min s.nodes.size s'.nodes.size - 0 := by omega
    rw [Array.take_eq_extract, Array.getElem?_extract, if_pos hlt, Nat.zero_add]

/-- Joining the members of a union adds at most a `boolean`. -/
theorem normalizeUnion_cases (s : Store) (members : List NodeRef) :
    (∃ joined, s.normalizeUnion members = (joined, s) ∧ ∀ r ∈ joined, r ∈ members) ∨
      ∃ joined,
        s.normalizeUnion members = (joined, (s.add ⟨.synthetic, some .boolean⟩).2) ∧
          ∀ r ∈ joined, r ∈ members ∨ r = s.size := by
  unfold normalizeUnion
  dsimp only
  split
  · split
    · next boolean hfind =>
      refine .inl ⟨_, rfl, fun r hr => ?_⟩
      rcases List.mem_append.1 hr with hr | hr
      · exact (List.mem_filter.1 hr).1
      · obtain rfl := List.mem_singleton.1 hr
        exact (List.mem_filter.1 (List.mem_of_find?_eq_some hfind)).1
    · refine .inr ⟨_, rfl, fun r hr => ?_⟩
      rcases List.mem_append.1 hr with hr | hr
      · exact .inl (List.mem_filter.1 hr).1
      · exact .inr (List.mem_singleton.1 hr)
  · refine .inl ⟨_, rfl, fun r hr => ?_⟩
    rcases List.mem_append.1 hr with hr | hr
    · exact (List.mem_filter.1 hr).1
    · exact (List.mem_filter.1 hr).1

end Store

/-! ## Caches -/

namespace Cache

variable {cache : Cache} {id other : TypeId} {node : NodeRef}

theorem lookup_put_self (cache : Cache) (id : TypeId) (node : NodeRef) :
    (cache.put id node).lookup id = some node := by
  induction cache with
  | nil => simp [put]
  | cons entry rest ih =>
    obtain ⟨key, value⟩ := entry
    unfold put
    split
    · simp
    · next hne =>
      have hbeq : (id == key) = false := by simpa using fun h => hne h.symm
      rw [List.lookup_cons, hbeq]
      exact ih

theorem lookup_put_of_ne (node : NodeRef) (hne : other ≠ id) :
    (cache.put id node).lookup other = cache.lookup other := by
  induction cache with
  | nil =>
    have hbeq : (other == id) = false := by simpa using hne
    simp [put, List.lookup_cons, hbeq]
  | cons entry rest ih =>
    obtain ⟨key, value⟩ := entry
    unfold put
    split
    · next heq =>
      simp only at heq
      have hbeq : (other == id) = false := by simpa using hne
      rw [List.lookup_cons, List.lookup_cons, heq, hbeq]
    · rw [List.lookup_cons, List.lookup_cons, ih]

/-- A type that is not cached is cached at the end. -/
private theorem put_of_lookup_none (node : NodeRef) (h : cache.lookup id = none) :
    cache.put id node = cache ++ [(id, node)] := by
  induction cache with
  | nil => rfl
  | cons entry rest ih =>
    obtain ⟨key, value⟩ := entry
    rw [List.lookup_cons] at h
    split at h
    · cases h
    · next hbeq =>
      have hne : key ≠ id := by
        intro heq
        subst heq
        simp at hbeq
      unfold put
      rw [if_neg hne, ih h, List.cons_append]

private theorem put_put {previous : NodeRef} (h : cache.lookup id = some previous) :
    (cache.put id node).put id previous = cache := by
  induction cache with
  | nil => cases h
  | cons entry rest ih =>
    obtain ⟨key, value⟩ := entry
    rw [List.lookup_cons] at h
    split at h
    · next hbeq =>
      obtain rfl : id = key := by simpa using hbeq
      obtain rfl := Option.some.inj h
      rw [put, if_pos rfl, put, if_pos rfl]
    · next hbeq =>
      have hne : ¬ key = id := by
        intro heq
        subst heq
        simp at hbeq
      rw [put, if_neg hne, put, if_neg hne, ih h]

/-- What was noted of a registration is enough to take it back. -/
theorem undo_put (cache : Cache) (id : TypeId) (node : NodeRef) :
    (cache.put id node).undo (id, cache.lookup id) = cache := by
  cases h : cache.lookup id with
  | some previous => exact put_put h
  | none =>
    rw [put_of_lookup_none node h]
    have hkeep : ∀ entry ∈ cache, (entry.1 != id) = true := by
      intro entry hentry
      have hother := List.lookup_eq_none_iff.1 h entry hentry
      rw [bne_iff_ne]
      intro heq
      subst heq
      simp at hother
    simp [undo, remove, List.filter_append, List.filter_eq_self.2 hkeep]

end Cache

/-- The types that are cached. -/
def Reflector.Met (r : Reflector) (met : List TypeId) : Prop :=
  ∀ id, id ∈ met ↔ ∃ n, r.cache.lookup id = some n

/-! ## Going one level down -/

namespace Reflection

variable {σ : Type}

/-- The state of a call one level down, with the shell of a type cached. -/
def shelled (id : TypeId) (s : Reflecting σ) : Reflecting σ :=
  { s with reflector := {
      store := (s.reflector.store.add ⟨id, none⟩).2
      cache := s.reflector.cache.put id s.reflector.store.size
      journal := (id, s.reflector.cache.lookup id) :: s.reflector.journal
      depth := s.reflector.depth.enter.2 } }

/-- The state of a call that leaves a level. -/
def left (s : Reflecting σ) : Reflecting σ :=
  { s with reflector := { s.reflector with depth := s.reflector.depth.leave } }

/-- The state of a call that leaves a level and fills the shell of a type. -/
def filled (shell : NodeRef) (content : TypeContent) (s : Reflecting σ) : Reflecting σ :=
  { s with reflector := { s.reflector with
      store := s.reflector.store.fill shell content
      depth := s.reflector.depth.leave } }

variable {s s' : Reflecting σ} {id : TypeId} {describe : Reflection σ TypeContent}

/-- The type of a shell is cached besides the others. -/
theorem met_shelled {met : List TypeId} (M : s.reflector.Met met) :
    (shelled id s).reflector.Met (id :: met) := by
  intro other
  show other ∈ id :: met ↔
    ∃ n, (s.reflector.cache.put id s.reflector.store.size).lookup other = some n
  by_cases heq : other = id
  · subst heq
    simp [Cache.lookup_put_self]
  · rw [Cache.lookup_put_of_ne _ heq, ← M, List.mem_cons, or_iff_right heq]

private theorem run_enter (s : Reflecting σ) :
    (enter : Reflection σ Unit).run.run s =
      (if s.reflector.depth.depth < s.reflector.depth.limit then .ok ()
        else .error (.depthExceeded s.reflector.depth.limit),
        { s with reflector := { s.reflector with depth := s.reflector.depth.enter.2 } }) := by
  unfold enter
  rw [run_bind_of_ok (run_get s)]
  by_cases h : s.reflector.depth.depth < s.reflector.depth.limit
  · rw [if_pos h, DepthCounter.enter_of_lt h]
    rfl
  · rw [if_neg h, DepthCounter.enter_of_not_lt h]
    rfl

theorem run_addNode (node : TypeNode) (s : Reflecting σ) :
    (addNode node).run.run s =
      (.ok s.reflector.store.size, { s with reflector := { s.reflector with
        store := (s.reflector.store.add node).2 } }) :=
  rfl

private theorem run_register (id : TypeId) (node : NodeRef) (s : Reflecting σ) :
    (register id node).run.run s =
      (.ok (), { s with reflector := { s.reflector with
        cache := s.reflector.cache.put id node
        journal := (id, s.reflector.cache.lookup id) :: s.reflector.journal } }) :=
  rfl

/-- At the limit nothing is entered. -/
theorem run_nested_full (h : ¬ s.reflector.depth.depth < s.reflector.depth.limit) :
    (nested id describe).run.run s =
      (.error (.depthExceeded s.reflector.depth.limit),
        { s with reflector := { s.reflector with depth := s.reflector.depth.enter.2 } }) := by
  unfold nested
  refine run_bind_of_error ?_
  rw [run_enter, if_neg h]

/-- A type that is described within the limit fills its shell. -/
theorem run_nested_ok {content : TypeContent}
    (h : s.reflector.depth.depth < s.reflector.depth.limit)
    (hrun : describe.run.run (shelled id s) = (.ok content, s')) :
    (nested id describe).run.run s =
      (.ok s.reflector.store.size, filled s.reflector.store.size content s') := by
  unfold nested
  have hentered := run_enter s
  rw [if_pos h] at hentered
  rw [run_bind_of_ok hentered]
  rw [run_bind_of_ok (run_addNode _ _), run_bind_of_ok (run_register _ _ _)]
  exact (run_bind_of_ok (run_mk_ok hrun)).trans rfl

/-- A type that cannot be described leaves its level. -/
theorem run_nested_error {error : ReflectError}
    (h : s.reflector.depth.depth < s.reflector.depth.limit)
    (hrun : describe.run.run (shelled id s) = (.error error, s')) :
    (nested id describe).run.run s = (.error error, left s') := by
  unfold nested
  have hentered := run_enter s
  rw [if_pos h] at hentered
  rw [run_bind_of_ok hentered]
  rw [run_bind_of_ok (run_addNode _ _), run_bind_of_ok (run_register _ _ _)]
  exact (run_bind_of_ok (run_mk_ok hrun)).trans rfl

/-- A type that was made one level down was described within the limit. -/
theorem described_of_run_nested {n : NodeRef}
    (hrun : (nested id describe).run.run s = (.ok n, s')) :
    s.reflector.depth.depth < s.reflector.depth.limit ∧
      ∃ content t, describe.run.run (shelled id s) = (.ok content, t) ∧
        n = s.reflector.store.size ∧ s' = filled s.reflector.store.size content t := by
  by_cases hlt : s.reflector.depth.depth < s.reflector.depth.limit
  · rcases hinner : describe.run.run (shelled id s) with ⟨outcome, t⟩
    cases outcome with
    | error e =>
      rw [run_nested_error hlt hinner] at hrun
      cases hrun
    | ok content =>
      rw [run_nested_ok hlt hinner] at hrun
      cases hrun
      exact ⟨hlt, content, t, rfl, rfl, rfl⟩
  · rw [run_nested_full hlt] at hrun
    cases hrun

end Reflection

/-! ## Classes -/

namespace Reflector

section Classes

variable {τ σ : Type} {r : Reflector} {host : TypeHost τ σ} {request : Request} {type : τ}

/-- A class whose node is cached is not walked. -/
theorem reflectClass_of_cached {n : NodeRef} (h : r.cachedClass? (host.typeId type) = some n) :
    r.reflectClass host request type = ⟨.ok n, .empty, r⟩ := by
  unfold reflectClass
  dsimp only
  rw [h]

/-- Any other class is described one level down. -/
theorem reflectClass_of_not_cached (h : r.cachedClass? (host.typeId type) = none) :
    r.reflectClass host request type =
      r.run (Reflection.nested (host.typeId type) (Reflection.classContent host
        (Reflection.reflect host request (r.room - 1)) type (host.typeId type))) := by
  unfold reflectClass
  dsimp only
  rw [h]

end Classes

end Reflector

end TypeDescription
