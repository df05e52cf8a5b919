import TypeDescription.Proofs.Run

/-!
# Steps that keep an invariant

A `Regime` says how the steps of a walk treat their state: an invariant that each
one keeps, and an order in which the state grows.  `Regime.Yields` says of a step
what its result is when it succeeds.  The rules below put steps together, so that
proofs about walks go along the definitions and open no monad; facts that are
`Regime.Stable` carry over from one step to all later ones.

`Regime.Runs` says as well what a step leaves behind when it fails, and has the same
rules.
-/

namespace TypeDescription

variable {σ ω ε α β γ : Type}

/-- An invariant of the state of a walk, and an order in which it grows. -/
structure Regime (σ ω : Type) where
  /-- The part of the state that facts are about. -/
  view : σ → ω
  Holds : ω → Prop
  Grows : ω → ω → Prop
  refl : ∀ s, Grows s s
  trans : ∀ {s s' s''}, Grows s s' → Grows s' s'' → Grows s s''

namespace Regime

variable {R : Regime σ ω} {P P' : ω → Prop}

/-- A fact that stays true when the state grows. -/
def Stable (R : Regime σ ω) (P : ω → Prop) : Prop :=
  ∀ s s', R.Grows s s' → P s → P s'

theorem stable_true : R.Stable fun _ => True :=
  fun _ _ _ h => h

theorem stable_and (h : R.Stable P) (h' : R.Stable P') : R.Stable fun s => P s ∧ P' s :=
  fun s s' hs hp => ⟨h s s' hs hp.1, h' s s' hs hp.2⟩

theorem stable_forall (l : List γ) {Q : ω → γ → Prop} (hQ : ∀ c, R.Stable fun s => Q s c) :
    R.Stable fun s => ∀ c ∈ l, Q s c :=
  fun s s' h hall c hc => hQ c s s' h (hall c hc)

/-- A step that succeeds where a fact holds keeps the invariant, makes the state
grow, and gives a result of which another fact holds. -/
def Yields (R : Regime σ ω) (P : ω → Prop) (step : ExceptT ε (StateM σ) α) (Q : ω → α → Prop) :
    Prop :=
  ∀ s a s', R.Holds (R.view s) → P (R.view s) → step.run.run s = (.ok a, s') →
    R.Holds (R.view s') ∧ R.Grows (R.view s) (R.view s') ∧ Q (R.view s') a

theorem Yields.weaken {step : ExceptT ε (StateM σ) α} {Q : ω → α → Prop}
    (h : R.Yields P step Q) (hP : ∀ s, P' s → P s) : R.Yields P' step Q :=
  fun s a s' hs hp hrun => h s a s' hs (hP _ hp) hrun

theorem Yields.imp {step : ExceptT ε (StateM σ) α} {Q Q' : ω → α → Prop}
    (h : R.Yields P step Q) (hQ : ∀ s a, Q s a → Q' s a) : R.Yields P step Q' := by
  intro s a s' hs hp hrun
  obtain ⟨hs', hgrows, hq⟩ := h s a s' hs hp hrun
  exact ⟨hs', hgrows, hQ _ _ hq⟩

/-- A stable fact holds after a step too. -/
theorem Yields.frame {step : ExceptT ε (StateM σ) α} {Q : ω → α → Prop} (hP : R.Stable P)
    (h : R.Yields P step Q) : R.Yields P step fun s a => P s ∧ Q s a := by
  intro s a s' hs hp hrun
  obtain ⟨hs', hgrows, hq⟩ := h s a s' hs hp hrun
  exact ⟨hs', hgrows, hP _ _ hgrows hp, hq⟩

theorem Yields.pure {a : α} {Q : ω → α → Prop} (h : ∀ s, P s → Q s a) :
    R.Yields P (Pure.pure a : ExceptT ε (StateM σ) α) Q := by
  intro s b s' hs hp hrun
  cases hrun
  exact ⟨hs, R.refl _, h _ hp⟩

theorem Yields.bind {step : ExceptT ε (StateM σ) α} {next : α → ExceptT ε (StateM σ) β}
    {Q : ω → α → Prop} {Q' : ω → β → Prop} (hP : R.Stable P) (hstep : R.Yields P step Q)
    (hnext : ∀ a, R.Yields (fun s => P s ∧ Q s a) (next a) Q') :
    R.Yields P (step >>= next) Q' := by
  intro s b t hs hp hrun
  obtain ⟨a, u, hu, ht⟩ := ok_of_run_bind hrun
  obtain ⟨hinner, hsu, hq⟩ := hstep s a u hs hp hu
  obtain ⟨hlast, hut, hq'⟩ := hnext a u b t hinner ⟨hP _ _ hsu hp, hq⟩ ht
  exact ⟨hlast, R.trans hsu hut, hq'⟩

theorem Yields.ite {c : Prop} [Decidable c] {step step' : ExceptT ε (StateM σ) α}
    {Q : ω → α → Prop} (h : R.Yields P step Q) (h' : R.Yields P step' Q) :
    R.Yields P (if c then step else step') Q := by
  split
  · exact h
  · exact h'

/-- The results for a list are those for its elements, one by one. -/
theorem Yields.mapM {f : α → ExceptT ε (StateM σ) β} {Q : α → ω → β → Prop} (hP : R.Stable P)
    (hQ : ∀ a b, R.Stable fun s => Q a s b) (l : List α)
    (hf : ∀ a ∈ l, R.Yields P (f a) (Q a)) :
    R.Yields P (l.mapM f) fun s bs => List.Forall₂ (fun a b => Q a s b) l bs := by
  induction l with
  | nil => exact Yields.pure fun _ _ => .nil
  | cons a l ih =>
    rw [List.mapM_cons]
    refine Yields.bind hP (hf a List.mem_cons_self) fun b => ?_
    have hrest := ih fun a' ha' => hf a' (List.mem_cons_of_mem _ ha')
    refine Yields.bind (stable_and hP (hQ a b)) (hrest.weaken fun _ h => h.1) fun bs => ?_
    exact Yields.pure fun s h => .cons h.1.2 h.2

/-- What holds of the results for single elements holds of all results. -/
theorem Yields.mapM_forall {f : α → ExceptT ε (StateM σ) β} {Q : ω → β → Prop} (hP : R.Stable P)
    (hQ : ∀ b, R.Stable fun s => Q s b) (hf : ∀ a, R.Yields P (f a) Q) (l : List α) :
    R.Yields P (l.mapM f) fun s bs => ∀ b ∈ bs, Q s b := by
  refine (Yields.mapM hP (fun _ => hQ) l fun a _ => hf a).imp fun s bs h => ?_
  exact forall_mem_of_forall₂ h fun _ _ hb => hb

/-! ## Steps that may fail -/

/-- A step that is taken where a fact holds yields a result of which another fact
holds, or it fails and leaves a state that stands in a relation to the one
before. -/
structure Runs (R : Regime σ ω) (Left : ω → ω → Prop) (P : ω → Prop)
    (step : ExceptT ε (StateM σ) α) (Q : ω → α → Prop) : Prop where
  ok : R.Yields P step Q
  error : ∀ s e s', R.Holds (R.view s) → P (R.view s) → step.run.run s = (.error e, s') →
    Left (R.view s) (R.view s')

/-- What a failure leaves is no more when it comes after a success. -/
def Absorbs (R : Regime σ ω) (Left : ω → ω → Prop) : Prop :=
  ∀ s s' s'', R.Grows s s' → Left s' s'' → Left s s''

section Runs

variable {Left : ω → ω → Prop}

theorem Runs.weaken {step : ExceptT ε (StateM σ) α} {Q : ω → α → Prop}
    (h : R.Runs Left P step Q) (hP : ∀ s, P' s → P s) : R.Runs Left P' step Q where
  ok := h.ok.weaken hP
  error s e s' hs hp := h.error s e s' hs (hP _ hp)

theorem Runs.imp {step : ExceptT ε (StateM σ) α} {Q Q' : ω → α → Prop}
    (h : R.Runs Left P step Q) (hQ : ∀ s a, Q s a → Q' s a) : R.Runs Left P step Q' where
  ok := h.ok.imp hQ
  error := h.error

theorem Runs.pure {a : α} {Q : ω → α → Prop} (h : ∀ s, P s → Q s a) :
    R.Runs Left P (Pure.pure a : ExceptT ε (StateM σ) α) Q where
  ok := Yields.pure h
  error _ _ _ _ _ hrun := by cases hrun

theorem Runs.bind {step : ExceptT ε (StateM σ) α} {next : α → ExceptT ε (StateM σ) β}
    {Q : ω → α → Prop} {Q' : ω → β → Prop} (hLeft : R.Absorbs Left) (hP : R.Stable P)
    (hstep : R.Runs Left P step Q)
    (hnext : ∀ a, R.Runs Left (fun s => P s ∧ Q s a) (next a) Q') :
    R.Runs Left P (step >>= next) Q' where
  ok := Yields.bind hP hstep.ok fun a => (hnext a).ok
  error := by
    intro s e s' hs hp hrun
    rcases hfirst : step.run.run s with ⟨e' | a, u⟩
    · rw [run_bind_of_error hfirst] at hrun
      obtain ⟨_, rfl⟩ := Prod.mk.inj hrun
      exact hstep.error s e' _ hs hp hfirst
    · rw [run_bind_of_ok hfirst] at hrun
      obtain ⟨hu, hsu, hq⟩ := hstep.ok s a u hs hp hfirst
      exact hLeft _ _ _ hsu ((hnext a).error u e s' hu ⟨hP _ _ hsu hp, hq⟩ hrun)

/-- What holds of the results for single elements holds of all results. -/
theorem Runs.mapM_forall {f : α → ExceptT ε (StateM σ) β} {Q : ω → β → Prop}
    (hLeft : R.Absorbs Left) (hP : R.Stable P) (hQ : ∀ b, R.Stable fun s => Q s b) (l : List α)
    (hf : ∀ a ∈ l, R.Runs Left P (f a) Q) :
    R.Runs Left P (l.mapM f) fun s bs => ∀ b ∈ bs, Q s b := by
  induction l with
  | nil => exact Runs.pure fun _ _ b hb => absurd hb List.not_mem_nil
  | cons a l ih =>
    rw [List.mapM_cons]
    refine Runs.bind hLeft hP (hf a List.mem_cons_self) fun b => ?_
    have hrest := ih fun a' ha' => hf a' (List.mem_cons_of_mem _ ha')
    refine Runs.bind hLeft (stable_and hP (hQ b)) (hrest.weaken fun _ h => h.1) fun bs => ?_
    exact Runs.pure fun s h => List.forall_mem_cons.2 ⟨h.1.2, h.2⟩

end Runs

end Regime

end TypeDescription
