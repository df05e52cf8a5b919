import TypeDescription.Proofs.Run

/-!
# Two runs beside each other

`Keeps` says of two steps of one monad that the second one ends as the first one does wherever the
first one succeeds.  What it means to succeed differs between the monads of the walks;
`Succeeding` says it once for each of them, and the rules for sequences and lists hold of all.

`Concur` says of two steps that both succeed or both fail, with related results or errors.  The two
steps need not have results or errors of one type.
-/

namespace TypeDescription

/-! ## What one step does, the other does too -/

/-- A monad whose steps succeed, from a state, with a result and in a state. -/
class Succeeding (m : Type → Type) [Monad m] (σ : outParam Type) where
  Succeeds {α : Type} : m α → σ → α → σ → Prop
  pure_iff {α : Type} {a b : α} {s t : σ} : Succeeds (pure a) s b t ↔ a = b ∧ s = t
  bind_iff {α β : Type} {step : m α} {next : α → m β} {s t : σ} {b : β} :
    Succeeds (step >>= next) s b t ↔ ∃ a u, Succeeds step s a u ∧ Succeeds (next a) u b t

/-- A step without a state succeeds if it is no error. -/
instance {ε : Type} : Succeeding (Except ε) Unit where
  Succeeds step _ a _ := step = .ok a
  pure_iff := by simp [pure, Except.pure]
  bind_iff := by
    intro α β step next _ _ b
    simp [bind_eq_ok]

instance {σ ε : Type} : Succeeding (StateT σ (Except ε)) σ where
  Succeeds step s a t := step.run s = .ok (a, t)
  pure_iff := run_pure_eq_ok
  bind_iff := run_bind_eq_ok

instance {σ ε : Type} : Succeeding (ExceptT ε (StateM σ)) σ where
  Succeeds step s a t := step.run.run s = (.ok a, t)
  pure_iff := by
    intro α a b s t
    show ((Except.ok a : Except ε α), s) = (.ok b, t) ↔ a = b ∧ s = t
    simp
  bind_iff := by
    intro α β step next s t b
    refine ⟨ok_of_run_bind, fun hparts => ?_⟩
    obtain ⟨a, u, hstep, hnext⟩ := hparts
    rw [run_bind_of_ok hstep, hnext]

/-- Where the first step succeeds, the second one does with the same result and the same state. -/
def Keeps {m : Type → Type} [Monad m] {σ : Type} [Succeeding m σ] {α : Type} (step step' : m α) :
    Prop :=
  ∀ s a t, Succeeding.Succeeds step s a t → Succeeding.Succeeds step' s a t

section Keeps

variable {m : Type → Type} [Monad m] {σ : Type} [Succeeding m σ] {α β : Type}

theorem Keeps.refl (step : m α) : Keeps step step :=
  fun _ _ _ h => h

theorem Keeps.bind {step step' : m α} {next next' : α → m β} (hstep : Keeps step step')
    (hnext : ∀ a, Keeps (next a) (next' a)) : Keeps (step >>= next) (step' >>= next') := by
  intro s b t h
  obtain ⟨a, u, ha, hb⟩ := Succeeding.bind_iff.1 h
  exact Succeeding.bind_iff.2 ⟨a, u, hstep s a u ha, hnext a u b t hb⟩

theorem Keeps.mapM [LawfulMonad m] {f f' : α → m β} (l : List α)
    (hf : ∀ a, Keeps (f a) (f' a)) : Keeps (l.mapM f) (l.mapM f') := by
  induction l with
  | nil =>
    rw [List.mapM_nil, List.mapM_nil]
    exact .refl _
  | cons a l ih =>
    rw [List.mapM_cons, List.mapM_cons]
    exact (hf a).bind fun b => ih.bind fun bs => .refl _

theorem Keeps.forM {f f' : α → m PUnit} (l : List α) (hf : ∀ a, Keeps (f a) (f' a)) :
    Keeps (l.forM f) (l.forM f') := by
  induction l with
  | nil => exact .refl _
  | cons a l ih => exact (hf a).bind fun _ => ih

end Keeps

/-! ## Both succeed or both fail -/

/-- Two steps succeed with related results, or both fail with related errors. -/
inductive Concur {ε ε' α β : Type} (P : α → β → Prop) (E : ε → ε' → Prop) :
    Except ε α → Except ε' β → Prop
  | ok {a : α} {b : β} : P a b → Concur P E (.ok a) (.ok b)
  | error {e : ε} {e' : ε'} : E e e' → Concur P E (.error e) (.error e')

section Concur

variable {ε ε' α β γ δ : Type} {P : α → β → Prop} {Q : γ → δ → Prop} {E : ε → ε' → Prop}

theorem Concur.imp {P' : α → β → Prop} {step : Except ε α} {step' : Except ε' β}
    (h : Concur P E step step') (hP : ∀ a b, P a b → P' a b) : Concur P' E step step' := by
  cases h with
  | ok hab => exact .ok (hP _ _ hab)
  | error he => exact .error he

theorem Concur.bind {step : Except ε α} {step' : Except ε' β} {next : α → Except ε γ}
    {next' : β → Except ε' δ} (h : Concur P E step step')
    (hnext : ∀ a b, P a b → Concur Q E (next a) (next' b)) :
    Concur Q E (step >>= next) (step' >>= next') := by
  cases h with
  | ok hab => exact hnext _ _ hab
  | error he => exact .error he

/-- Neither step succeeds without the other. -/
theorem Concur.exists_ok_iff {step : Except ε α} {step' : Except ε' β}
    (h : Concur P E step step') : (∃ a, step = .ok a) ↔ ∃ b, step' = .ok b := by
  cases h with
  | @ok a b _ => exact ⟨fun _ => ⟨b, rfl⟩, fun _ => ⟨a, rfl⟩⟩
  | error _ =>
    constructor
    all_goals
      intro hok
      obtain ⟨_, hok⟩ := hok
      cases hok

theorem Concur.of_ok {step : Except ε α} {step' : Except ε' β} {a : α} {b : β}
    (h : Concur P E step step') (hok : step = .ok a) (hok' : step' = .ok b) : P a b := by
  cases h with
  | ok hab =>
    cases hok
    cases hok'
    exact hab
  | error _ => cases hok

/-- What is related are the results of the steps. -/
theorem Concur.with_ok {step : Except ε α} {step' : Except ε' β} (h : Concur P E step step') :
    Concur (fun a b => P a b ∧ step = .ok a ∧ step' = .ok b) E step step' := by
  cases h with
  | ok hab => exact .ok ⟨hab, rfl, rfl⟩
  | error he => exact .error he

/-- Results that are changed after the steps. -/
theorem Concur.map {step : Except ε α} {step' : Except ε' β} {f : α → γ} {g : β → δ}
    (h : Concur P E step step') (hfg : ∀ a b, P a b → Q (f a) (g b)) :
    Concur Q E (f <$> step) (g <$> step') := by
  cases h with
  | ok hab => exact .ok (hfg _ _ hab)
  | error he => exact .error he

/-- One result that is changed after the steps. -/
theorem Concur.map_left {Q : γ → β → Prop} {step : Except ε α} {step' : Except ε' β} {f : α → γ}
    (h : Concur P E step step') (hf : ∀ a b, P a b → Q (f a) b) :
    Concur Q E (f <$> step) step' := by
  cases h with
  | ok hab => exact .ok (hf _ _ hab)
  | error he => exact .error he

theorem Concur.mapM {f : γ → Except ε α} {g : δ → Except ε' β} {l : List γ} {l' : List δ}
    (hl : List.Forall₂ Q l l') (hfg : ∀ c d, Q c d → Concur P E (f c) (g d)) :
    Concur (List.Forall₂ P) E (l.mapM f) (l'.mapM g) := by
  induction hl with
  | nil => exact .ok .nil
  | cons hcd _ ih =>
    rw [List.mapM_cons, List.mapM_cons]
    exact (hfg _ _ hcd).bind fun a b hab => ih.bind fun as bs habs => .ok (.cons hab habs)

theorem Concur.refl {step : Except ε α} {P : α → α → Prop} {E : ε → ε → Prop} (hP : ∀ a, P a a)
    (hE : ∀ e, E e e) : Concur P E step step := by
  cases step with
  | error e => exact .error (hE e)
  | ok a => exact .ok (hP a)

theorem Concur.trans {ε'' : Type} {Q : β → γ → Prop} {R : α → γ → Prop} {E' : ε' → ε'' → Prop}
    {E'' : ε → ε'' → Prop} {first : Except ε α} {second : Except ε' β} {third : Except ε'' γ}
    (h : Concur P E first second) (h' : Concur Q E' second third)
    (hR : ∀ a b c, P a b → Q b c → R a c) (hE : ∀ e e' e'', E e e' → E' e' e'' → E'' e e'') :
    Concur R E'' first third := by
  cases h with
  | ok hab =>
    cases h' with
    | ok hbc => exact .ok (hR _ _ _ hab hbc)
  | error he =>
    cases h' with
    | error he' => exact .error (hE _ _ _ he he')

/-- In another order a list has the results in another order, or fails elsewhere. -/
theorem Concur.mapM_perm {f : γ → Except ε α} {l l' : List γ} (h : l.Perm l') :
    Concur List.Perm (fun _ _ => True) (l.mapM f) (l'.mapM f) := by
  induction h with
  | nil => exact .ok .nil
  | cons c _ ih =>
    rw [List.mapM_cons, List.mapM_cons]
    refine (Concur.refl (P := Eq) (fun _ => rfl) fun _ => trivial).bind fun a b hab => ?_
    exact ih.bind fun as bs hperm => .ok (hab ▸ hperm.cons a)
  | swap c d l =>
    simp only [List.mapM_cons]
    cases f c <;> cases f d <;> cases l.mapM f <;>
      first | exact .error trivial | exact .ok (.swap _ _ _)
  | trans _ _ ih ih' => exact ih.trans ih' (fun _ _ _ => .trans) fun _ _ _ _ _ => trivial

end Concur

end TypeDescription
