import TypeDescription.Proofs.Reflected.Asking
import TypeDescription.Proofs.Reflected.Rollback
import TypeDescription.Proofs.Reflected.Walks

/-!
# When a type is reflected

The walk of a type goes along its survey, until something is wrong: a datum is missing,
or a type is first met at the limit.  `Goes` says so of a step and the findings that it
asks for, and composes along a sequence of steps.  A type that is cached is one that the
survey has met, so both go past it.

By induction on the levels left, the outcome of the walk of a type is the first violation
in its survey, if there is one (`goes_reflect`).
-/

namespace TypeDescription

variable {τ σ : Type}

/-- What is wrong with a finding: a type `limit` steps down, or a missing datum. -/
def Finding.violation? (limit : UInt32) : Nat × Finding τ → Option ReflectError
  | (d, .type _) => if d < limit.toNat then none else some (.depthExceeded limit)
  | (_, .missing what id) => some (.missingHostData what id)

/-- The first violation in a survey. -/
def firstViolation? (limit : UInt32) (visits : List (Nat × Finding τ)) : Option ReflectError :=
  visits.findSome? (Finding.violation? limit)

theorem firstViolation?_eq_none_iff {limit : UInt32} {visits : List (Nat × Finding τ)} :
    firstViolation? limit visits = none ↔
      (∀ d what id, (d, .missing what id) ∉ visits) ∧
        ∀ d type, (d, .type type) ∈ visits → d < limit.toNat := by
  rw [firstViolation?, List.findSome?_eq_none_iff]
  constructor
  · intro hnone
    refine ⟨fun d what id hvisit => ?_, fun d type hvisit => ?_⟩
    · cases hnone _ hvisit
    · by_contra hnot
      have hviolation := hnone _ hvisit
      simp [Finding.violation?, hnot] at hviolation
  · rintro ⟨hmissing, hshallow⟩ ⟨d, type | ⟨what, id⟩⟩ hvisit
    · exact if_pos (hshallow d type hvisit)
    · exact absurd hvisit (hmissing d what id)

namespace Reflection

/-- A reflector in a call that is `d` levels down and has cached the types met. -/
structure Mirrors (limit : UInt32) (d : Nat) (met : List TypeId) (r : Reflector) : Prop where
  limit_eq : r.depth.limit = limit
  depth_eq : r.depth.depth.toNat = d
  cached : ∀ id, id ∈ met ↔ ∃ n, r.cache.lookup id = some n

/-- A step that asks for some findings, `d` levels down.  It takes the survey along to the
rest of the agenda, or fails with the first violation. -/
def Goes (host : TypeHost τ σ) (limit : UInt32) (d : Nat) (here : List (Finding τ)) {α : Type}
    (step : Reflection σ α) : Prop :=
  ∀ s met rest visits, Mirrors limit d met s.reflector →
    host.Surveys met (here.map (Prod.mk d) ++ rest) visits →
      Ends
        (fun t => ∃ met' later, Mirrors limit d met' t.reflector ∧ host.Surveys met' rest later ∧
          firstViolation? limit visits = firstViolation? limit later)
        (fun e => firstViolation? limit visits = some e) (step.run.run s)

/-- A step that succeeds and neither caches a type nor changes its level. -/
def Quiet {α : Type} (step : Reflection σ α) : Prop :=
  ∀ s, ∃ a t, step.run.run s = (.ok a, t) ∧ t.reflector.cache = s.reflector.cache ∧
    t.reflector.depth = s.reflector.depth

section Quiet

variable {α β : Type}

theorem quiet_pure (a : α) : Quiet (pure a : Reflection σ α) := by
  intro s
  exact ⟨a, s, rfl, rfl, rfl⟩

theorem Quiet.bind {step : Reflection σ α} {next : α → Reflection σ β} (h : Quiet step)
    (hnext : ∀ a, Quiet (next a)) : Quiet (step >>= next) := by
  intro s
  obtain ⟨a, t, hrun, hcache, hdepth⟩ := h s
  obtain ⟨b, u, hrun', hcache', hdepth'⟩ := hnext a t
  refine ⟨b, u, ?_, hcache'.trans hcache, hdepth'.trans hdepth⟩
  rw [run_bind_of_ok hrun, hrun']

theorem quiet_unsupported (host : TypeHost τ σ) (request : Request) (type : τ) :
    Quiet (unsupported host request type) := by
  intro s
  exact ⟨_, _, rfl, rfl, rfl⟩

theorem quiet_normalizeMembers (members : List NodeRef) :
    Quiet (normalizeMembers members : Reflection σ (List NodeRef)) := by
  intro s
  exact ⟨_, _, rfl, rfl, rfl⟩

theorem quiet_identifierFor {host : TypeHost τ σ} {request : Request} {type : τ} {id : TypeId}
    {symbol : σ} (hsymbol : host.symbol? type = some symbol) :
    Quiet (identifierFor host request type id) := by
  intro s
  unfold identifierFor
  rw [hsymbol]
  cases hname : host.referenceName? type with
  | none => exact ⟨_, _, rfl, rfl, rfl⟩
  | some name => exact ⟨_, _, rfl, rfl, rfl⟩

end Quiet

section Goes

variable {host : TypeHost τ σ} {limit : UInt32} {d : Nat} {here here' : List (Finding τ)}
  {α β : Type}

theorem Goes.of_quiet {step : Reflection σ α} (h : Quiet step) : Goes host limit d [] step := by
  intro s met rest visits M S
  obtain ⟨a, t, hrun, hcache, hdepth⟩ := h s
  rw [hrun]
  refine .ok ⟨met, visits, ⟨?_, ?_, ?_⟩, S, rfl⟩
  · rw [hdepth, M.limit_eq]
  · rw [hdepth, M.depth_eq]
  · rw [hcache]
    exact M.cached

theorem Goes.bind {step : Reflection σ α} {next : α → Reflection σ β}
    (h : Goes host limit d here step) (hnext : ∀ a, Goes host limit d here' (next a)) :
    Goes host limit d (here ++ here') (step >>= next) := by
  intro s met rest visits M S
  rw [List.map_append, List.append_assoc] at S
  have hstep := h s met _ visits M S
  rcases hrun : step.run.run s with ⟨outcome, t⟩
  rw [hrun] at hstep
  cases hstep with
  | error hviolation =>
    rw [run_bind_of_error hrun]
    exact .error hviolation
  | @ok a t hok =>
    obtain ⟨met', later, M', S', heq⟩ := hok
    rw [run_bind_of_ok hrun, heq]
    exact hnext a t met' rest later M' S'

end Goes

/-- A step goes along what it asks for, whatever it reports. -/
theorem asking_goes (host : TypeHost τ σ) (request : Request) (limit : UInt32) (d : Nat) :
    Asking host request fun here _ _ _ step => Goes host limit d here step where
  pure _ := .of_quiet (quiet_pure _)
  bind h hnext := h.bind hnext
  missing what id next := by
    intro s met rest visits M S
    obtain ⟨later, rfl, _⟩ := S.missing_inv
    exact .error rfl
  normalizeMembers members := .of_quiet (quiet_normalizeMembers members)
  unsupported type _ := .of_quiet (quiet_unsupported host request type)
  named id g hsymbol _ := .of_quiet ((quiet_identifierFor hsymbol).bind fun name => quiet_pure _)

/-! ## Types -/

section Types

variable {host : TypeHost τ σ} {limit : UInt32} {d : Nat} {met : List TypeId} {id : TypeId}

/-- The shell of a type is cached one level down. -/
private theorem Mirrors.shelled {s : Reflecting σ} (M : Mirrors limit d met s.reflector)
    (hlt : s.reflector.depth.depth < s.reflector.depth.limit) :
    Mirrors limit (d + 1) (id :: met) (Reflection.shelled id s).reflector := by
  refine ⟨?_, ?_, met_shelled M.cached⟩
  · show s.reflector.depth.enter.2.limit = limit
    rw [DepthCounter.enter_of_lt hlt]
    exact M.limit_eq
  · show s.reflector.depth.enter.2.depth.toNat = d + 1
    rw [DepthCounter.enter_of_lt hlt]
    have hnat := UInt32.lt_iff_toNat_lt.1 hlt
    have hmax := s.reflector.depth.limit.toNat_lt
    have hdepth := M.depth_eq
    show (s.reflector.depth.depth + 1).toNat = d + 1
    rw [UInt32.toNat_add, UInt32.toNat_one]
    omega

/-- A level is left for the one above. -/
private theorem Mirrors.filled {s : Reflecting σ} (M : Mirrors limit (d + 1) met s.reflector)
    (n : NodeRef) (content : TypeContent) :
    Mirrors limit d met (Reflection.filled n content s).reflector := by
  refine ⟨?_, ?_, M.cached⟩
  · exact (DepthCounter.limit_leave _).trans M.limit_eq
  · show s.reflector.depth.leave.depth.toNat = d
    have hdepth := M.depth_eq
    have hne : s.reflector.depth.depth ≠ 0 := by
      intro heq
      rw [heq] at hdepth
      simp at hdepth
    unfold DepthCounter.leave
    rw [if_neg hne]
    show (s.reflector.depth.depth - 1).toNat = d
    have hle : (1 : UInt32) ≤ s.reflector.depth.depth := by
      rw [UInt32.le_iff_toNat_le, hdepth, UInt32.toNat_one]
      omega
    rw [UInt32.toNat_sub_of_le _ _ hle, UInt32.toNat_one]
    omega

/-- To obtain the node of a type is to ask for it, if within the limit its description
asks for what is inside. -/
theorem goes_typeNode (request : Request) {type : τ} {describe : Reflection σ TypeContent}
    (hdescribe : d < limit.toNat → ¬ (host.typeFlags type).isPerPosition = true →
      Goes host limit (d + 1) (host.inside type) describe) :
    Goes host limit d [.type type] (typeNode host request type describe) := by
  intro s met rest visits M S
  by_cases hpass : host.Passes met type
  · have S := S.pass_inv hpass
    cases hlookup : s.reflector.cache.lookup (host.typeId type) with
    | some n =>
      rw [run_typeNode_of_lookup hlookup]
      exact .ok ⟨met, visits, M, S, rfl⟩
    | none =>
      have hflags : (host.typeFlags type).isPerPosition = true := by
        refine hpass.resolve_left fun hmet => ?_
        obtain ⟨n, hn⟩ := (M.cached _).1 hmet
        rw [hlookup] at hn
        cases hn
      obtain ⟨report, hrun⟩ : ∃ report, (typeNode host request type describe).run.run s = _ :=
        run_typeNode_literal hlookup hflags
      rw [hrun]
      exact .ok ⟨met, visits, ⟨M.limit_eq, M.depth_eq, M.cached⟩, S, rfl⟩
  · obtain ⟨later, rfl, Sinside⟩ := S.enter_inv hpass
    obtain ⟨hmet, hflags⟩ := not_or.1 hpass
    have hlookup : s.reflector.cache.lookup (host.typeId type) = none := by
      rw [← Option.not_isSome_iff_eq_none, Option.isSome_iff_exists]
      exact fun hfound => hmet ((M.cached _).2 hfound)
    rw [run_typeNode_nested hlookup hflags]
    by_cases hlt : s.reflector.depth.depth < s.reflector.depth.limit
    · have hd : d < limit.toNat := by
        rw [← M.depth_eq, ← M.limit_eq]
        exact UInt32.lt_iff_toNat_lt.1 hlt
      have hinner := hdescribe hd hflags _ _ _ _ (M.shelled hlt) Sinside
      rcases hrun : describe.run.run (shelled (host.typeId type) s) with ⟨outcome, t⟩
      rw [hrun] at hinner
      have hskip :
          firstViolation? limit ((d, .type type) :: later) = firstViolation? limit later := by
        simp [firstViolation?, Finding.violation?, hd]
      cases hinner with
      | error hviolation =>
        rw [run_nested_error hlt hrun]
        exact .error (hskip.trans hviolation)
      | ok hok =>
        obtain ⟨met', later', M', S', heq⟩ := hok
        rw [run_nested_ok hlt hrun]
        exact .ok ⟨met', later', M'.filled _ _, S', hskip.trans heq⟩
    · have hd : ¬ d < limit.toNat := by
        rw [← M.depth_eq, ← M.limit_eq]
        exact fun h => hlt (UInt32.lt_iff_toNat_lt.2 h)
      rw [run_nested_full hlt, M.limit_eq]
      refine .error ?_
      simp [firstViolation?, Finding.violation?, hd]

/-- The walk of a type asks for the type, if it has the levels up to the limit left. -/
theorem goes_reflect (host : TypeHost τ σ) (limit : UInt32) (request : Request) (room : Nat) :
    ∀ d type, limit.toNat ≤ room + d →
      Goes host limit d [.type type] (reflect host request room type) := by
  induction room with
  | zero =>
    intro d type hroom
    exact goes_typeNode request fun hd _ => by omega
  | succ room ih =>
    intro d type hroom
    refine goes_typeNode request fun _ hflags => ?_
    obtain ⟨_, _, hcontent⟩ := (asking_goes host request limit (d + 1)).content
      (fun inner => ih (d + 1) inner (by omega)) hflags
    exact hcontent

end Types

end Reflection

/-! ## Calls -/

namespace Reflector

open Reflection (Goes Mirrors goes_reflect)

/-- A first call for a type has the first violation in the survey of the type as its
error; without one it succeeds. -/
theorem outcome_of_surveys {host : TypeHost τ σ} (limit : UInt32) (request : Request) {type : τ}
    {visits : List (Nat × Finding τ)} (S : host.Surveys [] [(0, .type type)] visits) :
    ((∃ n, ((ofLimit limit).reflectType host request type).outcome = .ok n) ∧
        firstViolation? limit visits = none) ∨
      ∃ e, ((ofLimit limit).reflectType host request type).outcome = .error e ∧
        firstViolation? limit visits = some e := by
  have hrest : (ofLimit limit).AtRest := ⟨rfl, rfl⟩
  have hmirrors : Mirrors limit 0 [] (ofLimit limit) := ⟨rfl, rfl, by simp [ofLimit]⟩
  have hroom : limit.toNat ≤ (ofLimit limit).room + 0 := by
    simp [room, ofLimit, DepthCounter.ofLimit]
  have hgoes := goes_reflect host limit request (ofLimit limit).room 0 type hroom
    ⟨ofLimit limit, .empty⟩ [] [] visits hmirrors S
  unfold reflectType
  rw [hrest.outcome_run]
  rcases hrun : (Reflection.reflect host request (ofLimit limit).room type).run.run
    ⟨ofLimit limit, .empty⟩ with ⟨outcome, t⟩
  rw [hrun] at hgoes
  cases hgoes with
  | error hviolation => exact .inr ⟨_, rfl, hviolation⟩
  | ok hok =>
    obtain ⟨_, later, _, S', heq⟩ := hok
    rw [S'.done_inv] at heq
    exact .inl ⟨⟨_, rfl⟩, heq⟩

/-- The outcome of a first call for a type of a program, by the survey of the type, which
always exists.  The call succeeds exactly if no type that the root leads to lacks its
symbol, the properties of the plain objects among them have types, and the survey comes to
no type at the limit.  It fails with the first violation in the survey.  However much room
it has, it is the limit that ends it. -/
theorem reflectType_outcome (p : Program) (limit : UInt32) (request : Request) (root : TypeId) :
    (∃ visits, p.host.Surveys [] [(0, .type root)] visits) ∧
      ∀ visits, p.host.Surveys [] [(0, .type root)] visits →
        let outcome := ((ofLimit limit).reflectType p.host request root).outcome
        ((∃ n, outcome = .ok n) ↔
          (∀ type, p.host.Leads root type → ¬ p.host.LacksSymbol type) ∧
            (∀ type, p.host.Leads root type → p.host.IsPlain type →
              ∀ symbol ∈ p.host.properties type,
                ∃ inner, p.host.typeOfSymbol? symbol = some inner) ∧
            ∀ d type, (d, .type type) ∈ visits → d < limit.toNat) ∧
        (∀ e, outcome = .error e ↔ firstViolation? limit visits = some e) ∧
        ∀ room, limit.toNat ≤ room →
          (Reflection.reflect p.host request room root).run.run ⟨ofLimit limit, .empty⟩ =
            (Reflection.reflect p.host request limit.toNat root).run.run
              ⟨ofLimit limit, .empty⟩ := by
  refine ⟨p.exists_surveys _ _, fun visits S => ?_⟩
  intro outcome
  have hcases := outcome_of_surveys limit request S
  have hnone : firstViolation? limit visits = none ↔ _ := firstViolation?_eq_none_iff
  rw [S.misses_nothing_iff Function.injective_id fun _ h => p.exists_referenceTarget? h,
    and_assoc] at hnone
  refine ⟨?_, fun e => ?_, fun room hroom => ?_⟩
  · rw [← hnone]
    rcases hcases with ⟨hok, hviolation⟩ | ⟨e, herror, hviolation⟩
    · exact ⟨fun _ => hviolation, fun _ => hok⟩
    · constructor
      · rintro ⟨n, hn⟩
        cases herror.symm.trans hn
      · intro hno
        rw [hviolation] at hno
        cases hno
  · rcases hcases with ⟨⟨n, hok⟩, hviolation⟩ | ⟨e', herror, hviolation⟩
    · constructor
      · intro herror
        cases hok.symm.trans herror
      · intro hsome
        rw [hviolation] at hsome
        cases hsome
    · rw [hviolation, show outcome = .error e' from herror]
      simp
  · have hlimit : (ofLimit limit).room = limit.toNat := by
      simp [Reflector.room, ofLimit, DepthCounter.ofLimit]
    have hmore := Reflection.run_reflect_of_room_le p.host request root
      (s := ⟨ofLimit limit, .empty⟩) (hlimit.trans_le hroom)
    rw [hmore]
    exact congrArg (fun room => (Reflection.reflect p.host request room root).run.run _) hlimit

/-- A program with a union of a literal and a shelf; a shelf has a next one, and a label
of no type. -/
def shelf : Program where
  types := [
    ⟨⟨1⟩, .union [⟨3⟩, ⟨2⟩], none, none, none⟩,
    ⟨⟨2⟩, .object false 0 ["Shelf.next", "Shelf.label"], some "Shelf", none, none⟩,
    ⟨⟨3⟩, .stringLiteral "none", none, none, none⟩]
  symbols := Table.ofList [
    ("Shelf", ⟨"Shelf", ⟨none, .interfaceSymbol, none, [], none, none, none, []⟩, .none⟩),
    ("Shelf.next", ⟨"next", ⟨none, .property, some ⟨1⟩, [], none, none, none, []⟩, .none⟩),
    ("Shelf.label", ⟨"label", ⟨none, .property, none, [], none, none, none, []⟩, .none⟩)]

/-- The survey of the union comes to the shelf and to its label; so a call with two levels
misses the type of the label, and a call with one level stops at the shelf. -/
theorem reflectType_outcome_shelf :
    shelf.host.Surveys [] [(0, .type ⟨1⟩)]
        [(0, .type ⟨1⟩), (1, .type ⟨2⟩), (2, .missing .propertyType ⟨2⟩)] ∧
      ((ofLimit 2).reflectType shelf.host default ⟨1⟩).outcome =
        .error (.missingHostData .propertyType ⟨2⟩) ∧
      ((ofLimit 1).reflectType shelf.host default ⟨1⟩).outcome = .error (.depthExceeded 1) := by
  have hunion : shelf.host.inside ⟨1⟩ = [.type ⟨3⟩, .type ⟨2⟩] := by decide +kernel
  have hshelf : shelf.host.inside ⟨2⟩ = [.type ⟨1⟩, .missing .propertyType ⟨2⟩] := by
    decide +kernel
  have S : shelf.host.Surveys [] [(0, .type ⟨1⟩)]
      [(0, .type ⟨1⟩), (1, .type ⟨2⟩), (2, .missing .propertyType ⟨2⟩)] := by
    apply TypeHost.Surveys.enter (by decide +kernel)
    rw [hunion]
    apply TypeHost.Surveys.pass (by decide +kernel)
    apply TypeHost.Surveys.enter (by decide +kernel)
    rw [hshelf]
    exact .pass (by decide +kernel) (.missing .done)
  exact ⟨S, ((reflectType_outcome shelf 2 default ⟨1⟩).2 _ S).2.1 _ |>.2 rfl,
    ((reflectType_outcome shelf 1 default ⟨1⟩).2 _ S).2.1 _ |>.2 rfl⟩

end Reflector

end TypeDescription
