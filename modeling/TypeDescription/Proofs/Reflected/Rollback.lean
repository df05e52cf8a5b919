import TypeDescription.Fixture.Query
import TypeDescription.Proofs.Reflected.Calls
import TypeDescription.Proofs.Reflected.State
import TypeDescription.Proofs.Reflected.Steps

/-!
# Failed calls

`Reflector.Balanced` relates the reflector before a walk to the one after it:
the level is the same, the nodes from before are the same, and what the walk
added to the journal takes the cache back.  Every walk is balanced, whether it
succeeds or fails, so a failed call can be taken back entry by entry.

What is left of it is the flag of the depth counter, which nobody reads:
`Reflector.Alike` ignores it, and alike reflectors answer all calls alike.
`failed_call_leaves_no_trace` is the main result.
-/

namespace TypeDescription

variable {τ σ : Type}

/-! ## Balanced walks -/

namespace Reflector

/-- The second reflector may come out of a walk that began with the first. -/
structure Balanced (r r' : Reflector) : Prop where
  depth_eq : r'.depth.depth = r.depth.depth
  limit_eq : r'.depth.limit = r.depth.limit
  size_le : r.store.size ≤ r'.store.size
  node?_eq : ∀ i, i < r.store.size → r'.store.node? i = r.store.node? i
  journal : ∃ entries, r'.journal = entries ++ r.journal ∧
    entries.foldl Cache.undo r'.cache = r.cache

theorem Balanced.refl (r : Reflector) : r.Balanced r where
  depth_eq := rfl
  limit_eq := rfl
  size_le := Nat.le_refl _
  node?_eq _ _ := rfl
  journal := ⟨[], rfl, rfl⟩

theorem Balanced.trans {r r' r'' : Reflector} (h : r.Balanced r') (h' : r'.Balanced r'') :
    r.Balanced r'' where
  depth_eq := h'.depth_eq.trans h.depth_eq
  limit_eq := h'.limit_eq.trans h.limit_eq
  size_le := Nat.le_trans h.size_le h'.size_le
  node?_eq i hi := by
    rw [h'.node?_eq i (Nat.lt_of_lt_of_le hi h.size_le), h.node?_eq i hi]
  journal := by
    obtain ⟨entries, hjournal, hundo⟩ := h.journal
    obtain ⟨entries', hjournal', hundo'⟩ := h'.journal
    refine ⟨entries' ++ entries, ?_, ?_⟩
    · rw [hjournal', hjournal, List.append_assoc]
    · rw [List.foldl_append, hundo', hundo]

/-- A walk leaves as many levels as it found. -/
theorem Balanced.room_eq {r r' : Reflector} (h : r.Balanced r') : r'.room = r.room := by
  unfold room
  rw [h.depth_eq, h.limit_eq]

/-- An added node changes nothing else. -/
theorem balanced_add (r : Reflector) (node : TypeNode) :
    r.Balanced { r with store := (r.store.add node).2 } where
  depth_eq := rfl
  limit_eq := rfl
  size_le := by
    show r.store.size ≤ (r.store.add node).2.size
    rw [Store.size_add]
    omega
  node?_eq _ hi := Store.node?_add_of_lt node hi
  journal := ⟨[], rfl, rfl⟩

end Reflector

namespace Reflection

/-- A step that leaves the reflector balanced, however it ends. -/
def KeepsBalance {α : Type} (step : Reflection σ α) : Prop :=
  ∀ s : Reflecting σ, s.reflector.Balanced (step.run.run s).2.reflector

theorem KeepsBalance.bind {α β : Type} {step : Reflection σ α} {next : α → Reflection σ β}
    (hstep : KeepsBalance step) (hnext : ∀ a, KeepsBalance (next a)) :
    KeepsBalance (step >>= next) := by
  intro s
  have hs := hstep s
  rcases hrun : step.run.run s with ⟨outcome, s'⟩
  rw [hrun] at hs
  cases outcome with
  | ok a =>
    rw [run_bind_of_ok hrun]
    exact hs.trans (hnext a s')
  | error e =>
    rw [run_bind_of_error hrun]
    exact hs

theorem keepsBalance_normalizeMembers (members : List NodeRef) :
    KeepsBalance (normalizeMembers members : Reflection σ (List NodeRef)) := by
  intro s
  show s.reflector.Balanced
    { s.reflector with store := (s.reflector.store.normalizeUnion members).2 }
  rcases s.reflector.store.normalizeUnion_cases members with ⟨_, heq, _⟩ | ⟨_, heq, _⟩
  · rw [heq]
    exact .refl _
  · rw [heq]
    exact s.reflector.balanced_add _

theorem composes_keepsBalance :
    Composes fun _ (step _ : Reflection σ _) => KeepsBalance step where
  pure _ s := .refl s.reflector
  bind hstep hnext := hstep.bind hnext
  throw _ s := .refl s.reflector
  note _ s := .refl s.reflector
  cached? _ s := .refl s.reflector
  addNode id content s := s.reflector.balanced_add ⟨id, some content⟩
  normalizeMembers := keepsBalance_normalizeMembers

/-- What was balanced one level down is balanced after leaving the level: the
shell is a new node, and the journal knows what it displaced. -/
private theorem balanced_of_shelled {id : TypeId} {s : Reflecting σ} {r : Reflector}
    (hlt : s.reflector.depth.depth < s.reflector.depth.limit)
    (h : (shelled id s).reflector.Balanced r) :
    s.reflector.Balanced { r with depth := r.depth.leave } where
  depth_eq :=
    (DepthCounter.leave_congr h.depth_eq).trans (congrArg _ (DepthCounter.leave_enter hlt))
  limit_eq := by
    have henter : s.reflector.depth.enter.2.limit = s.reflector.depth.limit := by
      rw [DepthCounter.enter_of_lt hlt]
    exact (DepthCounter.limit_leave _).trans (h.limit_eq.trans henter)
  size_le := by
    have hsize := h.size_le
    simp only [shelled, Store.size_add] at hsize
    exact Nat.le_of_succ_le hsize
  node?_eq i hi := by
    have hi' : i < (shelled id s).reflector.store.size := by
      simp only [shelled, Store.size_add]
      exact Nat.lt_succ_of_lt hi
    exact (h.node?_eq i hi').trans (Store.node?_add_of_lt _ hi)
  journal := by
    obtain ⟨entries, hjournal, hundo⟩ := h.journal
    refine ⟨entries ++ [(id, s.reflector.cache.lookup id)], ?_, ?_⟩
    · rw [List.append_assoc]
      exact hjournal
    · rw [List.foldl_append]
      show Cache.undo (entries.foldl Cache.undo r.cache) (id, s.reflector.cache.lookup id) = _
      rw [hundo]
      exact Cache.undo_put _ _ _

theorem keepsBalance_nested (id : TypeId) {describe : Reflection σ TypeContent}
    (hdescribe : KeepsBalance describe) : KeepsBalance (nested id describe) := by
  intro s
  by_cases hlt : s.reflector.depth.depth < s.reflector.depth.limit
  · have hs := hdescribe (shelled id s)
    rcases hrun : describe.run.run (shelled id s) with ⟨outcome, s'⟩
    rw [hrun] at hs
    have hleft := balanced_of_shelled hlt hs
    cases outcome with
    | error e =>
      rw [run_nested_error hlt hrun]
      exact hleft
    | ok content =>
      rw [run_nested_ok hlt hrun]
      -- the shell that is filled was not there before
      refine ⟨hleft.depth_eq, hleft.limit_eq, ?_, fun i hi => ?_, hleft.journal⟩
      · simp only [filled, Store.size_fill]
        exact hleft.size_le
      · have hne : i ≠ s.reflector.store.size := Nat.ne_of_lt hi
        exact (Store.node?_fill_of_ne content hne).trans (hleft.node?_eq i hi)
  · rw [run_nested_full hlt]
    refine ⟨?_, ?_, Nat.le_refl _, fun _ _ => rfl, ⟨[], rfl, rfl⟩⟩
    · rw [DepthCounter.enter_of_not_lt hlt]
    · rw [DepthCounter.enter_of_not_lt hlt]

theorem keepsBalance_reflect (host : TypeHost τ σ) (request : Request) (room : Nat) (type : τ) :
    KeepsBalance (reflect host request room type) :=
  composes_keepsBalance.reflect (fun id _ h => keepsBalance_nested id h) host request room type

theorem keepsBalance_class (host : TypeHost τ σ) (request : Request) (room : Nat) (type : τ)
    (id : TypeId) :
    KeepsBalance (nested id (classContent host (reflect host request room) type id)) :=
  composes_keepsBalance.nested_class (fun id _ h => keepsBalance_nested id h) host request room
    type id

/-! ## Levels to spare -/

/-- Two steps that do the same where at most so many levels are left. -/
def AgreeWithin (room : Nat) {α : Type} (step step' : Reflection σ α) : Prop :=
  KeepsBalance step ∧ ∀ s : Reflecting σ, s.reflector.room ≤ room →
    step'.run.run s = step.run.run s

theorem composes_agreeWithin (room : Nat) :
    Composes fun _ (step step' : Reflection σ _) => AgreeWithin room step step' where
  pure a := ⟨composes_keepsBalance.pure a, fun _ _ => rfl⟩
  bind {α β step step' next next'} hstep hnext := by
    refine ⟨hstep.1.bind fun a => (hnext a).1, fun s hs => ?_⟩
    have hbalanced := hstep.1 s
    have heq := hstep.2 s hs
    rcases hrun : step.run.run s with ⟨outcome, s'⟩
    rw [hrun] at hbalanced heq
    cases outcome with
    | ok a =>
      rw [run_bind_of_ok hrun, run_bind_of_ok heq]
      refine (hnext a).2 s' ?_
      rw [hbalanced.room_eq]
      exact hs
    | error e => rw [run_bind_of_error hrun, run_bind_of_error heq]
  throw e := ⟨composes_keepsBalance.throw e, fun _ _ => rfl⟩
  note f := ⟨composes_keepsBalance.note f, fun _ _ => rfl⟩
  cached? id := ⟨composes_keepsBalance.cached? id, fun _ _ => rfl⟩
  addNode id content := ⟨composes_keepsBalance.addNode id content, fun _ _ => rfl⟩
  normalizeMembers members := ⟨keepsBalance_normalizeMembers members, fun _ _ => rfl⟩

/-- One level down one level less is left. -/
private theorem room_shelled (id : TypeId) {s : Reflecting σ}
    (hlt : s.reflector.depth.depth < s.reflector.depth.limit) :
    (shelled id s).reflector.room + 1 = s.reflector.room := by
  have hnat := UInt32.lt_iff_toNat_lt.1 hlt
  have hmax := s.reflector.depth.limit.toNat_lt
  have hdepth : (s.reflector.depth.depth + 1).toNat = s.reflector.depth.depth.toNat + 1 := by
    rw [UInt32.toNat_add]
    show (s.reflector.depth.depth.toNat + 1) % 2 ^ 32 = _
    omega
  simp only [Reflector.room, shelled, DepthCounter.enter_of_lt hlt, hdepth]
  omega

theorem agreeWithin_nested {room : Nat} (id : TypeId)
    {describe describe' : Reflection σ TypeContent} (h : AgreeWithin room describe describe') :
    AgreeWithin (room + 1) (nested id describe) (nested id describe') := by
  refine ⟨keepsBalance_nested id h.1, fun s hs => ?_⟩
  by_cases hlt : s.reflector.depth.depth < s.reflector.depth.limit
  · have hroom := room_shelled id hlt
    have heq := h.2 (shelled id s) (by omega)
    rcases hrun : describe.run.run (shelled id s) with ⟨outcome, s'⟩
    rw [hrun] at heq
    cases outcome with
    | ok content => rw [run_nested_ok hlt hrun, run_nested_ok hlt heq]
    | error e => rw [run_nested_error hlt hrun, run_nested_error hlt heq]
  · rw [run_nested_full hlt, run_nested_full hlt]

/-- Where no level is left, descriptions are not looked at. -/
theorem agreeWithin_zero (id : TypeId) {describe describe' : Reflection σ TypeContent}
    (h : KeepsBalance describe) : AgreeWithin 0 (nested id describe) (nested id describe') := by
  refine ⟨keepsBalance_nested id h, fun s hs => ?_⟩
  have hfull : ¬ s.reflector.depth.depth < s.reflector.depth.limit := by
    intro hlt
    have hroom := room_shelled id hlt
    omega
  rw [run_nested_full hfull, run_nested_full hfull]

/-- Levels beyond those that the depth counter allows change nothing. -/
theorem agreeWithin_reflect (host : TypeHost τ σ) (request : Request) (room : Nat) :
    ∀ more type, AgreeWithin room (reflect host request room type)
      (reflect host request (room + more) type) := by
  induction room with
  | zero =>
    intro more type
    rw [Nat.zero_add]
    cases more with
    | zero =>
      exact (composes_agreeWithin 0).typeNode host request type
        (agreeWithin_zero _ (composes_keepsBalance.throw _))
    | succ more =>
      exact (composes_agreeWithin 0).typeNode host request type
        (agreeWithin_zero _ (composes_keepsBalance.throw _))
  | succ room ih =>
    intro more type
    rw [Nat.add_right_comm]
    exact (composes_agreeWithin (room + 1)).typeNode host request type
      (agreeWithin_nested _
        ((composes_agreeWithin room).content host request (ih more) type _ _))

/-- A walk of a type never uses up its levels: it is the same with more. -/
theorem run_reflect_of_room_le (host : TypeHost τ σ) (request : Request) (type : τ) {room : Nat}
    {s : Reflecting σ} (hroom : s.reflector.room ≤ room) :
    (reflect host request room type).run.run s =
      (reflect host request s.reflector.room type).run.run s := by
  have hmore := (agreeWithin_reflect host request s.reflector.room
    (room - s.reflector.room) type).2 s (Nat.le_refl _)
  rwa [Nat.add_sub_cancel' hroom] at hmore

end Reflection

/-! ## Alike reflectors -/

namespace Reflector

/-- Two reflectors that differ at most in whether their depth counters have ever
been exceeded. -/
structure Alike (r r' : Reflector) : Prop where
  store_eq : r'.store = r.store
  cache_eq : r'.cache = r.cache
  journal_eq : r'.journal = r.journal
  depth_eq : r'.depth.depth = r.depth.depth
  limit_eq : r'.depth.limit = r.depth.limit

theorem Alike.refl (r : Reflector) : r.Alike r :=
  ⟨rfl, rfl, rfl, rfl, rfl⟩

end Reflector

namespace Reflection

/-- The states of two calls that differ at most in that flag. -/
structure AlikeStates (s s' : Reflecting σ) : Prop where
  reflector : s.reflector.Alike s'.reflector
  report_eq : s'.report = s.report

/-- Two steps that do the same in alike states. -/
def DoAlike {α : Type} (step step' : Reflection σ α) : Prop :=
  ∀ s s' : Reflecting σ, AlikeStates s s' →
    (step'.run.run s').1 = (step.run.run s).1 ∧
      AlikeStates (step.run.run s).2 (step'.run.run s').2

theorem DoAlike.bind {α β : Type} {step step' : Reflection σ α} {next next' : α → Reflection σ β}
    (hstep : DoAlike step step') (hnext : ∀ a, DoAlike (next a) (next' a)) :
    DoAlike (step >>= next) (step' >>= next') := by
  intro s s' hs
  obtain ⟨houtcome, hstates⟩ := hstep s s' hs
  rcases hrun : step.run.run s with ⟨outcome, t⟩
  rcases hrun' : step'.run.run s' with ⟨outcome', t'⟩
  rw [hrun, hrun'] at houtcome hstates
  obtain rfl : outcome' = outcome := houtcome
  cases outcome' with
  | ok a =>
    rw [run_bind_of_ok hrun, run_bind_of_ok hrun']
    exact hnext a t t' hstates
  | error e =>
    rw [run_bind_of_error hrun, run_bind_of_error hrun']
    exact ⟨rfl, hstates⟩

/-- A step that changes the store only, as the store says. -/
private theorem doAlike_store {α : Type} {step : Reflection σ α} (f : Store → α × Store)
    (hstep : ∀ s : Reflecting σ, step.run.run s = (.ok (f s.reflector.store).1,
      { s with reflector := { s.reflector with store := (f s.reflector.store).2 } })) :
    DoAlike step step := by
  intro s s' hs
  have hstore := hs.reflector.store_eq
  rw [hstep, hstep, hstore]
  refine ⟨rfl, ⟨?_, hs.report_eq⟩⟩
  exact ⟨rfl, hs.reflector.cache_eq, hs.reflector.journal_eq, hs.reflector.depth_eq,
    hs.reflector.limit_eq⟩

theorem composes_doAlike :
    Composes fun _ (step step' : Reflection σ _) => DoAlike step step' where
  pure _ _ _ hs := ⟨rfl, hs⟩
  bind hstep hnext := hstep.bind hnext
  throw _ _ _ hs := ⟨rfl, hs⟩
  note f _ _ hs := ⟨rfl, hs.reflector, congrArg f hs.report_eq⟩
  cached? id _ _ hs :=
    ⟨congrArg (fun cache : Cache => Except.ok (cache.lookup id)) hs.reflector.cache_eq, hs⟩
  addNode id content := doAlike_store (fun store => store.add ⟨id, some content⟩) fun _ => rfl
  normalizeMembers members := doAlike_store (fun store => store.normalizeUnion members) fun _ => rfl

theorem doAlike_nested (id : TypeId) {describe describe' : Reflection σ TypeContent}
    (hdescribe : DoAlike describe describe') :
    DoAlike (nested id describe) (nested id describe') := by
  intro s s' hs
  have hr := hs.reflector
  by_cases hlt : s.reflector.depth.depth < s.reflector.depth.limit
  · have hlt' : s'.reflector.depth.depth < s'.reflector.depth.limit := by
      rw [hr.depth_eq, hr.limit_eq]
      exact hlt
    have hshelled : AlikeStates (shelled id s) (shelled id s') := by
      refine ⟨⟨?_, ?_, ?_, ?_, ?_⟩, hs.report_eq⟩
      · simp only [shelled, hr.store_eq]
      · simp only [shelled, hr.store_eq, hr.cache_eq]
      · simp only [shelled, hr.cache_eq, hr.journal_eq]
      · simp only [shelled, DepthCounter.enter_of_lt hlt, DepthCounter.enter_of_lt hlt',
          hr.depth_eq]
      · simp only [shelled, DepthCounter.enter_of_lt hlt, DepthCounter.enter_of_lt hlt',
          hr.limit_eq]
    obtain ⟨houtcome, hstates⟩ := hdescribe _ _ hshelled
    rcases hrun : describe.run.run (shelled id s) with ⟨outcome, t⟩
    rcases hrun' : describe'.run.run (shelled id s') with ⟨outcome', t'⟩
    rw [hrun, hrun'] at houtcome hstates
    obtain rfl : outcome' = outcome := houtcome
    have ht := hstates.reflector
    have hdepth := DepthCounter.leave_congr ht.depth_eq
    have hlimit : t'.reflector.depth.leave.limit = t.reflector.depth.leave.limit := by
      rw [DepthCounter.limit_leave, DepthCounter.limit_leave, ht.limit_eq]
    cases outcome' with
    | error e =>
      rw [run_nested_error hlt hrun, run_nested_error hlt' hrun']
      exact ⟨rfl, ⟨ht.store_eq, ht.cache_eq, ht.journal_eq, hdepth, hlimit⟩, hstates.report_eq⟩
    | ok content =>
      rw [run_nested_ok hlt hrun, run_nested_ok hlt' hrun', hr.store_eq]
      refine ⟨rfl, ⟨?_, ht.cache_eq, ht.journal_eq, hdepth, hlimit⟩, hstates.report_eq⟩
      have hstore : t'.reflector.store = t.reflector.store := ht.store_eq
      simp only [filled, hstore]
  · have hlt' : ¬ s'.reflector.depth.depth < s'.reflector.depth.limit := by
      rw [hr.depth_eq, hr.limit_eq]
      exact hlt
    rw [run_nested_full hlt, run_nested_full hlt', hr.limit_eq, DepthCounter.enter_of_not_lt hlt,
      DepthCounter.enter_of_not_lt hlt']
    exact ⟨rfl, ⟨hr.store_eq, hr.cache_eq, hr.journal_eq, hr.depth_eq, hr.limit_eq⟩, hs.report_eq⟩

theorem doAlike_reflect (host : TypeHost τ σ) (request : Request) (room : Nat) (type : τ) :
    DoAlike (reflect host request room type) (reflect host request room type) :=
  composes_doAlike.reflect (fun id _ h => doAlike_nested id h) host request room type

theorem doAlike_class (host : TypeHost τ σ) (request : Request) (room : Nat) (type : τ)
    (id : TypeId) :
    DoAlike (nested id (classContent host (reflect host request room) type id))
      (nested id (classContent host (reflect host request room) type id)) :=
  composes_doAlike.nested_class (fun id _ h => doAlike_nested id h) host request room type id

end Reflection

/-! ## Calls -/

namespace Reflector

open Reflection (KeepsBalance DoAlike)

/-- Between calls nothing is entered and nothing is noted. -/
structure AtRest (r : Reflector) : Prop where
  journal_eq : r.journal = []
  depth_eq : r.depth.depth = 0

section Run

variable {r r' : Reflector} {walk : Reflection σ NodeRef}

theorem AtRest.clear_journal (hr : r.AtRest) : ({ r with journal := [] } : Reflector) = r := by
  rw [← hr.journal_eq]

/-- A call has the outcome of its walk. -/
theorem AtRest.outcome_run (hr : r.AtRest) (walk : Reflection σ NodeRef) :
    (r.run walk).outcome = (walk.run.run ⟨r, .empty⟩).1 := by
  unfold Reflector.run
  rw [hr.clear_journal]
  rfl

/-- A call is its walk without the journal.  If the walk fails, it is rolled back. -/
theorem AtRest.run_cases (hr : r.AtRest) (hwalk : KeepsBalance walk) :
    ∃ s, Balanced r s.reflector ∧
      ((∃ n, walk.run.run ⟨r, .empty⟩ = (.ok n, s) ∧
          r.run walk = ⟨.ok n, s.report, { s.reflector with journal := [] }⟩) ∨
        ∃ e, r.run walk = ⟨.error e, s.report,
          { s.reflector.rollback with store := s.reflector.store.truncate r.store.size }⟩) := by
  have hbalanced := hwalk ⟨r, .empty⟩
  unfold Reflector.run
  rw [hr.clear_journal]
  rcases hrun : walk.run.run ⟨r, .empty⟩ with ⟨outcome, s⟩
  rw [hrun] at hbalanced
  cases outcome with
  | ok n => exact ⟨s, hbalanced, .inl ⟨n, rfl, rfl⟩⟩
  | error e => exact ⟨s, hbalanced, .inr ⟨e, rfl⟩⟩

/-- A call ends at rest. -/
theorem AtRest.run (hr : r.AtRest) (hwalk : KeepsBalance walk) : (r.run walk).reflector.AtRest := by
  obtain ⟨s, hbalanced, ⟨n, _, hrun⟩ | ⟨e, hrun⟩⟩ := hr.run_cases hwalk
  · rw [hrun]
    exact ⟨rfl, hbalanced.depth_eq.trans hr.depth_eq⟩
  · rw [hrun]
    exact ⟨rfl, hbalanced.depth_eq.trans hr.depth_eq⟩

/-- A failed call is taken back. -/
theorem alike_of_run_error (hr : r.AtRest) (hwalk : KeepsBalance walk) {e : ReflectError}
    (herror : (r.run walk).outcome = .error e) : r.Alike (r.run walk).reflector := by
  obtain ⟨s, hbalanced, ⟨n, _, hrun⟩ | ⟨e', hrun⟩⟩ := hr.run_cases hwalk
  · rw [hrun] at herror
    cases herror
  · rw [hrun]
    obtain ⟨entries, hjournal, hundo⟩ := hbalanced.journal
    have hentries : s.reflector.journal = entries := by simpa [hr.journal_eq] using hjournal
    refine ⟨?_, ?_, hr.journal_eq.symm, hbalanced.depth_eq, hbalanced.limit_eq⟩
    · exact Store.truncate_eq hbalanced.size_le hbalanced.node?_eq
    · show s.reflector.journal.foldl Cache.undo s.reflector.cache = r.cache
      rw [hentries, hundo]

/-- A call keeps the nodes that were there. -/
theorem AtRest.node?_run (hr : r.AtRest) (hwalk : KeepsBalance walk) {n : NodeRef}
    (hn : n < r.store.size) : (r.run walk).reflector.store.node? n = r.store.node? n := by
  cases houtcome : (r.run walk).outcome with
  | error e => rw [(alike_of_run_error hr hwalk houtcome).store_eq]
  | ok node =>
    obtain ⟨s, hbalanced, ⟨_, _, hrun⟩ | ⟨e, hrun⟩⟩ := hr.run_cases hwalk
    · rw [hrun]
      exact hbalanced.node?_eq n hn
    · rw [hrun] at houtcome
      cases houtcome

/-- A walk that does alike is a call that is answered alike. -/
theorem Alike.run (h : r.Alike r') (hwalk : DoAlike walk walk) :
    (r'.run walk).outcome = (r.run walk).outcome ∧ (r'.run walk).report = (r.run walk).report ∧
      (r.run walk).reflector.Alike (r'.run walk).reflector := by
  have hstates : Reflection.AlikeStates (⟨{ r with journal := [] }, .empty⟩ : Reflecting σ)
      ⟨{ r' with journal := [] }, .empty⟩ :=
    ⟨⟨h.store_eq, h.cache_eq, rfl, h.depth_eq, h.limit_eq⟩, rfl⟩
  obtain ⟨houtcome, hs⟩ := hwalk _ _ hstates
  unfold Reflector.run
  rcases hrun : walk.run.run ⟨{ r with journal := [] }, .empty⟩ with ⟨outcome, s⟩
  rcases hrun' : walk.run.run ⟨{ r' with journal := [] }, .empty⟩ with ⟨outcome', s'⟩
  rw [hrun, hrun'] at houtcome hs
  obtain rfl : outcome' = outcome := houtcome
  have hr := hs.reflector
  refine ⟨rfl, hs.report_eq, ?_⟩
  cases outcome' with
  | ok node => exact ⟨hr.store_eq, hr.cache_eq, rfl, hr.depth_eq, hr.limit_eq⟩
  | error e =>
    have hstore : s'.reflector.store = s.reflector.store := hr.store_eq
    have hcache : s'.reflector.cache = s.reflector.cache := hr.cache_eq
    have hjournal : s'.reflector.journal = s.reflector.journal := hr.journal_eq
    refine ⟨?_, ?_, rfl, hr.depth_eq, hr.limit_eq⟩
    · simp only [settle, hstore, h.store_eq]
    · simp only [settle, rollback, hcache, hjournal]

end Run

section Calls

variable {r r' : Reflector} {host : TypeHost τ σ}

/-- Every call ends at rest. -/
theorem AtRest.after (hr : r.AtRest) (c : Call τ) : (r.after host c).AtRest := by
  cases c with
  | type request type => exact hr.run (Reflection.keepsBalance_reflect host request _ type)
  | classType request type =>
    show (r.reflectClass host request type).reflector.AtRest
    cases hcached : r.cachedClass? (host.typeId type) with
    | some n =>
      rw [reflectClass_of_cached hcached]
      exact hr
    | none =>
      rw [reflectClass_of_not_cached hcached]
      exact hr.run (Reflection.keepsBalance_class host request _ type _)
  | reset => exact ⟨rfl, rfl⟩

/-- Calls keep the nodes that were there. -/
theorem AtRest.node?_after (hr : r.AtRest) (c : Call τ) {n : NodeRef} (hn : n < r.store.size) :
    (r.after host c).store.node? n = r.store.node? n := by
  cases c with
  | type request type => exact hr.node?_run (Reflection.keepsBalance_reflect host request _ type) hn
  | classType request type =>
    show (r.reflectClass host request type).reflector.store.node? n = _
    cases hcached : r.cachedClass? (host.typeId type) with
    | some m => rw [reflectClass_of_cached hcached]
    | none =>
      rw [reflectClass_of_not_cached hcached]
      exact hr.node?_run (Reflection.keepsBalance_class host request _ type _) hn
  | reset => rfl

theorem Reached.atRest {allowed : Reflector → Call τ → Prop} {limit : UInt32}
    (hr : Reached host allowed limit r) : r.AtRest := by
  induction hr with
  | start => exact ⟨rfl, rfl⟩
  | after _ _ ih => exact ih.after _

/-- Alike reflectors answer a call alike, and are alike after it. -/
theorem Alike.call (host : TypeHost τ σ) (h : r.Alike r') (c : Call τ) :
    (r'.call host c).1 = (r.call host c).1 ∧ (r.call host c).2.Alike (r'.call host c).2 := by
  have hroom : r'.room = r.room := by
    unfold room
    rw [h.limit_eq, h.depth_eq]
  cases c with
  | type request type =>
    simp only [Reflector.call, reflectType, hroom]
    obtain ⟨houtcome, hreport, hafter⟩ :=
      h.run (Reflection.doAlike_reflect host request r.room type)
    rw [houtcome, hreport]
    exact ⟨rfl, hafter⟩
  | classType request type =>
    have hcached : r'.cachedClass? (host.typeId type) = r.cachedClass? (host.typeId type) := by
      unfold cachedClass? cached?
      rw [h.cache_eq, h.store_eq]
    cases hclass : r.cachedClass? (host.typeId type) with
    | some n =>
      simp only [Reflector.call, reflectClass_of_cached hclass,
        reflectClass_of_cached (hcached.trans hclass)]
      exact ⟨trivial, h⟩
    | none =>
      simp only [Reflector.call, reflectClass_of_not_cached hclass,
        reflectClass_of_not_cached (hcached.trans hclass), hroom]
      obtain ⟨houtcome, hreport, hafter⟩ :=
        h.run (Reflection.doAlike_class host request (r.room - 1) type (host.typeId type))
      rw [houtcome, hreport]
      exact ⟨rfl, hafter⟩
  | reset =>
    refine ⟨rfl, ⟨h.store_eq, rfl, rfl, rfl, ?_⟩⟩
    exact h.limit_eq

/-- Alike reflectors answer all calls alike. -/
theorem Alike.calls (h : r.Alike r') (cs : List (Call τ)) :
    (r'.calls host cs).1 = (r.calls host cs).1 ∧
      (r.calls host cs).2.Alike (r'.calls host cs).2 := by
  induction cs generalizing r r' with
  | nil => exact ⟨rfl, h⟩
  | cons c cs ih =>
    obtain ⟨hanswer, hafter⟩ := h.call host c
    obtain ⟨hanswers, hlast⟩ := ih hafter
    refine ⟨?_, hlast⟩
    simp only [Reflector.calls, hanswer, hanswers]

/-- A failed call is taken back, whichever it is. -/
theorem alike_of_call_error (hr : r.AtRest) {c : Call τ} {e : ReflectError}
    (herror : Answer.error? (r.call host c).1 = some e) : r.Alike (r.after host c) := by
  have hfailed : ∀ {outcome : Except ReflectError NodeRef} {report : Report σ},
      Answer.error? (some (outcome, report)) = some e → outcome = .error e := by
    intro outcome report h
    cases outcome with
    | ok node => cases h
    | error e' => rw [← Option.some.inj h]
  cases c with
  | type request type =>
    exact alike_of_run_error hr (Reflection.keepsBalance_reflect host request _ type)
      (hfailed herror)
  | classType request type =>
    have houtcome : (r.reflectClass host request type).outcome = .error e := hfailed herror
    show r.Alike (r.reflectClass host request type).reflector
    cases hcached : r.cachedClass? (host.typeId type) with
    | some n =>
      rw [reflectClass_of_cached hcached]
      exact .refl r
    | none =>
      rw [reflectClass_of_not_cached hcached] at houtcome ⊢
      exact alike_of_run_error hr (Reflection.keepsBalance_class host request _ type _) houtcome
  | reset => cases herror

/-- After a failed call the same nodes are cached and no level is entered, and
all later calls are answered as if the failed one had not been made. -/
theorem failed_call_leaves_no_trace {limit : UInt32} {c : Call τ} {e : ReflectError}
    (hr : Reached host (fun _ _ => True) limit r)
    (herror : Answer.error? (r.call host c).1 = some e) :
    (∀ id, (r.after host c).cached? id = r.cached? id) ∧
      (r.after host c).cacheSize = r.cacheSize ∧ (r.after host c).store = r.store ∧
      (r.after host c).depth.depth = 0 ∧
      ∀ later, ((r.after host c).calls host later).1 = (r.calls host later).1 ∧
        (r.calls host later).2.Alike ((r.after host c).calls host later).2 := by
  have halike := alike_of_call_error hr.atRest herror
  refine ⟨fun id => ?_, ?_, halike.store_eq, ?_, halike.calls⟩
  · unfold cached?
    rw [halike.cache_eq]
  · unfold cacheSize
    rw [halike.cache_eq]
  · exact (hr.atRest.after c).depth_eq

end Calls

/-- A program with a class whose second property has no type. -/
def untypedMember : Program where
  types := [
    ⟨⟨1⟩, .declared false ["Point.x", "Point.y"] [], some "Point", none, none⟩,
    ⟨⟨2⟩, .number, none, none, none⟩]
  symbols := Table.ofList [
    ("Point", ⟨"Point", ⟨none, .classSymbol, none, [], none, none, none, []⟩, .none⟩),
    ("Point.x", ⟨"x", ⟨none, .property, some ⟨2⟩, [], none, none, none, []⟩, .none⟩),
    ("Point.y", ⟨"y", ⟨none, .property, none, [], none, none, none, []⟩, .none⟩)]

/-- The call fails after it has displaced the node of the class and has cached
that of its first property. -/
theorem failed_class_leaves_no_trace :
    let host := untypedMember.host
    let r := (ofLimit 2).after host (.type default ⟨1⟩)
    let r' := r.after host (.classType default ⟨1⟩)
    Answer.error? (r.call host (.classType default ⟨1⟩)).1 =
        some (.missingHostData .propertyType ⟨1⟩) ∧
      (∀ id, r'.cached? id = r.cached? id) ∧ r'.cacheSize = r.cacheSize ∧
      r'.store = r.store ∧ r'.depth.depth = 0 ∧
      ∀ later, (r'.calls host later).1 = (r.calls host later).1 ∧
        (r.calls host later).2.Alike (r'.calls host later).2 := by
  have herror : Answer.error? (((ofLimit 2).after untypedMember.host (.type default ⟨1⟩)).call
      untypedMember.host (.classType default ⟨1⟩)).1 =
        some (.missingHostData .propertyType ⟨1⟩) := by
    decide +kernel
  exact ⟨herror, failed_call_leaves_no_trace (.after .start trivial) herror⟩

end Reflector

end TypeDescription
