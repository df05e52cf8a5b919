import Mathlib.Data.Finset.Card
import Mathlib.Data.List.Forall2

/-!
# Running steps

A step of a walk either changes a state and may fail without one
(`StateT σ (Except ε)`), or may fail and keeps the state it failed in
(`ExceptT ε (StateM σ)`).  The lemmas below say how a sequence of steps runs;
proofs about walks use them and open no monad.

A walk of a finite graph ends because it enters nothing twice: what it has not met gets
less with each entry (`card_notMem_cons_lt`); `agenda_induct` is the induction along such a
walk.
-/

namespace TypeDescription

/-! ## What was not met -/

section NotMem

variable {α : Type} [BEq α] [LawfulBEq α] {met met' : List α} {a : α}

theorem card_notMem_le (all : Finset α) (h : met ⊆ met') :
    (all.filter (· ∉ met')).card ≤ (all.filter (· ∉ met)).card :=
  Finset.card_le_card (Finset.monotone_filter_right all fun _ _ hnot hmet => hnot (h hmet))

theorem card_notMem_cons_lt {all : Finset α} (ha : a ∈ all) (hmet : a ∉ met) :
    (all.filter (· ∉ a :: met)).card < (all.filter (· ∉ met)).card := by
  apply Finset.card_lt_card
  refine (Finset.ssubset_iff_of_subset ?_).2 ⟨a, Finset.mem_filter.2 ⟨ha, hmet⟩, by simp⟩
  exact Finset.monotone_filter_right all fun _ _ hnot hmet => hnot (List.mem_cons_of_mem _ hmet)

/-- To meet what is not among them changes nothing. -/
theorem filter_notMem_cons {all : Finset α} (ha : a ∉ all) (met : List α) :
    all.filter (· ∉ a :: met) = all.filter (· ∉ met) := by
  apply Finset.filter_congr
  intro b hb
  have hne : b ≠ a := fun heq => ha (heq ▸ hb)
  simp [hne]

end NotMem

/-- Induction along a walk that works off an agenda: it passes by what is first on the agenda, or
puts what is inside in front of the rest, once for each key.  Only finitely many keys have
anything inside. -/
theorem agenda_induct {α κ : Type} [BEq κ] [LawfulBEq κ] {C : List κ → List α → Prop}
    (keys : Finset κ) (hdone : ∀ met, C met [])
    (hhead : ∀ met a rest, (C met rest → C met (a :: rest)) ∨
      ∃ key inner, key ∉ met ∧ (key ∉ keys → inner = []) ∧
        (C (key :: met) (inner ++ rest) → C met (a :: rest)))
    (met : List κ) (agenda : List α) : C met agenda := by
  induction hcard : (keys.filter (· ∉ met)).card using Nat.strong_induction_on
      generalizing met agenda with
  | _ card ihcard =>
    induction agenda generalizing met with
    | nil => exact hdone met
    | cons a rest ih =>
      rcases hhead met a rest with hpass | ⟨key, inner, hnew, hempty, henter⟩
      · exact hpass (ih met hcard)
      · by_cases hkey : key ∈ keys
        · exact henter (ihcard _ (hcard ▸ card_notMem_cons_lt hkey hnew) _ _ rfl)
        · -- nothing is inside, and no key is used up
          refine henter ?_
          rw [hempty hkey, List.nil_append]
          exact ih (key :: met) (by rw [filter_notMem_cons hkey, hcard])

/-! ## Keyed results -/

/-- Only what is done with the elements of a list counts. -/
theorem mapM_congr {m : Type → Type} [Monad m] [LawfulMonad m] {α β : Type} {f g : α → m β}
    {l : List α} (h : ∀ a ∈ l, f a = g a) : l.mapM f = l.mapM g := by
  induction l with
  | nil => rfl
  | cons a l ih =>
    obtain ⟨hhead, htail⟩ := List.forall_mem_cons.1 h
    rw [List.mapM_cons, List.mapM_cons, hhead, ih htail]

/-- To walk a list and keep a key with each result is to walk the list and then
put the keys to the results. -/
theorem mapM_keyed {m : Type → Type} [Monad m] [LawfulMonad m] {α κ β : Type} (key : α → κ)
    (f : α → m β) (l : List α) :
    (l.mapM fun a => Prod.mk (key a) <$> f a) = ((l.map key).zip ·) <$> l.mapM f := by
  induction l with
  | nil => simp
  | cons a l ih => simp [ih]

/-- The keys of the results that there are come in the order of the list. -/
theorem keys_filterMap_sublist {α γ κ : Type} (key : α → κ) (g : α → Option γ) (l : List α) :
    ((l.filterMap fun a => (g a).map fun c => (key a, c)).map Prod.fst).Sublist (l.map key) := by
  induction l with
  | nil => exact .slnil
  | cons a l ih =>
    rw [List.filterMap_cons]
    cases g a with
    | none => exact ih.cons _
    | some c => exact ih.cons_cons _

/-- To look a name up in two lists of fields with the same names gives related
values. -/
theorem rel_find?_of_forall₂ {α β : Type} {rel : α → β → Prop} {es : List (String × α)}
    {fs : List (String × β)} (h : List.Forall₂ (fun e f => f.1 = e.1 ∧ rel e.2 f.2) es fs)
    (name : String) :
    Option.Rel rel ((es.find? fun e => e.1 == name).map Prod.snd)
      ((fs.find? fun f => f.1 == name).map Prod.snd) := by
  induction h with
  | nil => exact .none
  | @cons e f es fs hef _ ih =>
    obtain ⟨hname, hvalue⟩ := hef
    by_cases he : e.1 = name
    · have hf : f.1 = name := hname.trans he
      simp only [List.find?_cons, he, hf, beq_self_eq_true, Option.map_some]
      exact .some hvalue
    · have hf : ¬ f.1 = name := fun h => he (hname.symm.trans h)
      simp only [List.find?_cons, beq_eq_false_iff_ne.2 he, beq_eq_false_iff_ne.2 hf]
      exact ih

/-- Values that are related one by one are related as fields of the same names. -/
theorem forall₂_zip {α β : Type} {rel : α → β → Prop} {es : List (String × α)} {us : List β}
    (h : List.Forall₂ rel (es.map Prod.snd) us) :
    List.Forall₂ (fun e f => f.1 = e.1 ∧ rel e.2 f.2) es ((es.map Prod.fst).zip us) := by
  induction es generalizing us with
  | nil =>
    cases h
    exact .nil
  | cons e es ih =>
    cases h with
    | cons hvalue hrest => exact .cons ⟨rfl, hvalue⟩ (ih hrest)

/-! ## Lists of results -/

/-- What follows of a result from its relation to an element holds of all
results. -/
theorem forall_mem_of_forall₂ {α β : Type} {rel : α → β → Prop} {P : β → Prop} {l : List α}
    {bs : List β} (h : List.Forall₂ rel l bs) (hP : ∀ a b, rel a b → P b) : ∀ b ∈ bs, P b := by
  induction h with
  | nil => exact fun b hb => absurd hb List.not_mem_nil
  | cons hab _ ih => exact List.forall_mem_cons.2 ⟨hP _ _ hab, ih⟩

/-- Each result is that of an element. -/
theorem exists_mem_of_forall₂ {α β : Type} {rel : α → β → Prop} {l : List α} {bs : List β}
    (h : List.Forall₂ rel l bs) : ∀ b ∈ bs, ∃ a ∈ l, rel a b := by
  induction h with
  | nil => exact fun b hb => absurd hb List.not_mem_nil
  | @cons a b _ _ hab _ ih =>
    refine List.forall_mem_cons.2 ⟨⟨a, List.mem_cons_self, hab⟩, fun b hb => ?_⟩
    obtain ⟨a, ha, hab⟩ := ih b hb
    exact ⟨a, List.mem_cons_of_mem _ ha, hab⟩

/-- Lists that are related to the same list are related. -/
theorem forall₂_trans {α β γ : Type} {rel : α → β → Prop} {rel' : β → γ → Prop}
    {rel'' : α → γ → Prop} {as : List α} {bs : List β} {cs : List γ}
    (htrans : ∀ a b c, rel a b → rel' b c → rel'' a c) (h : List.Forall₂ rel as bs)
    (h' : List.Forall₂ rel' bs cs) : List.Forall₂ rel'' as cs := by
  induction h generalizing cs with
  | nil =>
    cases h'
    exact .nil
  | cons hab _ ih =>
    cases h' with
    | cons hbc hrest => exact .cons (htrans _ _ _ hab hbc) (ih hrest)

/-! ## Steps without a state -/

/-- A sequence succeeds if both parts do. -/
theorem bind_eq_ok {ε α β : Type} {m : Except ε α} {f : α → Except ε β} {b : β} :
    m >>= f = .ok b ↔ ∃ a, m = .ok a ∧ f a = .ok b := by
  cases m with
  | error e => simp [Bind.bind, Except.bind]
  | ok a => simp [Bind.bind, Except.bind]

/-- A sequence fails if one of its parts does. -/
theorem bind_eq_error {ε α β : Type} {m : Except ε α} {f : α → Except ε β} {e : ε} :
    m >>= f = .error e ↔ m = .error e ∨ ∃ a, m = .ok a ∧ f a = .error e := by
  cases m with
  | error e => simp [Bind.bind, Except.bind]
  | ok a => simp [Bind.bind, Except.bind]

/-- A changed result is the change of a result. -/
theorem map_eq_ok {ε α β : Type} {m : Except ε α} {f : α → β} {b : β} :
    f <$> m = .ok b ↔ ∃ a, m = .ok a ∧ f a = b := by
  cases m with
  | error e => simp [Functor.map, Except.map]
  | ok a => simp [Functor.map, Except.map]

/-- A renamed error is none where there was none. -/
theorem mapError_eq_ok {ε ε' α : Type} {m : Except ε α} {f : ε → ε'} {a : α} :
    m.mapError f = .ok a ↔ m = .ok a := by
  cases m with
  | error e => exact ⟨nofun, nofun⟩
  | ok b => exact ⟨fun h => by rw [Except.ok.inj h], fun h => by rw [Except.ok.inj h]; rfl⟩

/-- A list that is walked with success has one result for each element. -/
theorem forall₂_of_mapM_ok {ε α β : Type} {f : α → Except ε β} {l : List α} {bs : List β}
    (h : l.mapM f = .ok bs) : List.Forall₂ (fun a b => f a = .ok b) l bs := by
  induction l generalizing bs with
  | nil =>
    cases h
    exact .nil
  | cons a l ih =>
    rw [List.mapM_cons, bind_eq_ok] at h
    obtain ⟨b, hb, h⟩ := h
    rw [bind_eq_ok] at h
    obtain ⟨rest, hrest, h⟩ := h
    obtain rfl := Except.ok.inj h
    exact .cons hb (ih hrest)

/-- A list that is not walked to its end has an element that fails. -/
theorem exists_of_mapM_error {ε α β : Type} {f : α → Except ε β} {l : List α} {e : ε}
    (h : l.mapM f = .error e) : ∃ a ∈ l, f a = .error e := by
  induction l with
  | nil => cases h
  | cons a l ih =>
    rw [List.mapM_cons, bind_eq_error] at h
    rcases h with h | ⟨_, _, h⟩
    · exact ⟨a, List.mem_cons_self, h⟩
    · rcases bind_eq_error.1 h with h | ⟨_, _, h⟩
      · obtain ⟨a', ha', h⟩ := ih h
        exact ⟨a', List.mem_cons_of_mem _ ha', h⟩
      · cases h

/-- A list is walked with success if each element is. -/
theorem exists_mapM_ok {ε α β : Type} {f : α → Except ε β} {l : List α}
    (hf : ∀ a ∈ l, ∃ b, f a = .ok b) : ∃ bs, l.mapM f = .ok bs := by
  induction l with
  | nil => exact ⟨[], rfl⟩
  | cons a l ih =>
    obtain ⟨⟨b, hb⟩, hrest⟩ := List.forall_mem_cons.1 hf
    obtain ⟨bs, hbs⟩ := ih hrest
    refine ⟨b :: bs, ?_⟩
    rw [List.mapM_cons, hb, hbs]
    rfl

/-- A step succeeds with a result of a kind, or fails with an error of a kind. -/
inductive Concludes {ε α : Type} (P : α → Prop) (Q : ε → Prop) : Except ε α → Prop
  | ok {a : α} : P a → Concludes P Q (.ok a)
  | error {e : ε} : Q e → Concludes P Q (.error e)

section Concludes

variable {ε α β : Type} {P : α → Prop} {P' : β → Prop} {Q : ε → Prop} {m : Except ε α}

theorem Concludes.bind {f : α → Except ε β} (h : Concludes P Q m)
    (hf : ∀ a, P a → Concludes P' Q (f a)) : Concludes P' Q (m >>= f) := by
  cases h with
  | ok ha => exact hf _ ha
  | error he => exact .error he

theorem Concludes.map {f : α → β} (h : Concludes P Q m) (hf : ∀ a, P a → P' (f a)) :
    Concludes P' Q (f <$> m) := by
  cases h with
  | ok ha => exact .ok (hf _ ha)
  | error he => exact .error he

theorem Concludes.imp {P' : α → Prop} {R : ε → Prop} (h : Concludes P Q m)
    (hP : ∀ a, P a → P' a) (hQ : ∀ e, Q e → R e) : Concludes P' R m := by
  cases h with
  | ok ha => exact .ok (hP _ ha)
  | error he => exact .error (hQ _ he)

theorem Concludes.of_ok {a : α} (h : Concludes P Q m) (hm : m = .ok a) : P a := by
  subst hm
  cases h with
  | ok ha => exact ha

theorem Concludes.of_error {e : ε} (h : Concludes P Q m) (hm : m = .error e) : Q e := by
  subst hm
  cases h with
  | error he => exact he

/-- A list is checked by checking its elements. -/
theorem Concludes.forM {P : α → Prop} {f : α → Except ε Unit} {l : List α}
    (hf : ∀ a ∈ l, Concludes (fun _ => P a) Q (f a)) :
    Concludes (fun _ => ∀ a ∈ l, P a) Q (l.forM f) := by
  induction l with
  | nil => exact .ok nofun
  | cons a l ih =>
    obtain ⟨hhead, htail⟩ := List.forall_mem_cons.1 hf
    exact hhead.bind fun _ ha =>
      (ih htail).imp (fun _ hl => List.forall_mem_cons.2 ⟨ha, hl⟩) fun _ => id

/-- What there may be is checked if it is there. -/
theorem Concludes.option_forM {P : α → Prop} {f : α → Except ε Unit} {o : Option α}
    (hf : ∀ a ∈ o, Concludes (fun _ => P a) Q (f a)) :
    Concludes (fun _ => ∀ a ∈ o, P a) Q (o.forM f) := by
  cases o with
  | none => exact .ok nofun
  | some a => exact (hf a rfl).imp (fun _ ha b hb => Option.some.inj hb ▸ ha) fun _ => id

theorem Concludes.mapM {P : α → β → Prop} {f : α → Except ε β} {l : List α}
    (hf : ∀ a ∈ l, Concludes (P a) Q (f a)) : Concludes (List.Forall₂ P l) Q (l.mapM f) := by
  induction l with
  | nil => exact .ok .nil
  | cons a l ih =>
    obtain ⟨hhead, htail⟩ := List.forall_mem_cons.1 hf
    rw [List.mapM_cons]
    exact hhead.bind fun b hb => (ih htail).bind fun bs hbs => .ok (.cons hb hbs)

end Concludes

theorem exists_of_isOk {ε α : Type} {m : Except ε α} (h : m.isOk = true) : ∃ a, m = .ok a := by
  cases m with
  | error e => cases h
  | ok a => exact ⟨a, rfl⟩

theorem toOption_eq_some_iff {ε α : Type} {m : Except ε α} {a : α} :
    m.toOption = some a ↔ m = .ok a := by
  cases m <;> simp [Except.toOption]

/-! ## Steps that fail without a state -/

section Transformer

variable {σ ε α β : Type}

/-- A sequence succeeds if both parts do. -/
theorem run_bind_eq_ok {m : StateT σ (Except ε) α} {f : α → StateT σ (Except ε) β}
    {s t : σ} {b : β} :
    (m >>= f).run s = .ok (b, t) ↔
      ∃ a u, m.run s = .ok (a, u) ∧ (f a).run u = .ok (b, t) := by
  rw [StateT.run_bind]
  cases m.run s with
  | error e => simp [Bind.bind, Except.bind]
  | ok result =>
    obtain ⟨a, u⟩ := result
    constructor
    · intro h
      exact ⟨a, u, rfl, h⟩
    · intro hparts
      obtain ⟨a', u', hm, h⟩ := hparts
      cases hm
      exact h

theorem run_pure_eq_ok {a b : α} {s t : σ} :
    (pure a : StateT σ (Except ε) α).run s = .ok (b, t) ↔ a = b ∧ s = t := by
  rw [StateT.run_pure]
  show Except.ok (a, s) = Except.ok (b, t) ↔ _
  simp

/-- A list is walked by walking its head and then its tail. -/
theorem run_mapM_cons_eq_ok {f : α → StateT σ (Except ε) β} {a : α} {as : List α}
    {s t : σ} {bs : List β} (h : ((a :: as).mapM f).run s = .ok (bs, t)) :
    ∃ b u bs', (f a).run s = .ok (b, u) ∧ (as.mapM f).run u = .ok (bs', t) ∧
      bs = b :: bs' := by
  rw [List.mapM_cons, run_bind_eq_ok] at h
  obtain ⟨b, u, hb, h⟩ := h
  rw [run_bind_eq_ok] at h
  obtain ⟨bs', v, hbs, h⟩ := h
  obtain ⟨rfl, rfl⟩ := run_pure_eq_ok.1 h
  exact ⟨b, u, bs', hb, hbs, rfl⟩

theorem run_mapM_nil_eq_ok {f : α → StateT σ (Except ε) β} {s t : σ} {bs : List β}
    (h : (([] : List α).mapM f).run s = .ok (bs, t)) : bs = [] ∧ s = t := by
  rw [List.mapM_nil] at h
  obtain ⟨hb, hs⟩ := run_pure_eq_ok.1 h
  exact ⟨hb.symm, hs⟩

/-- Each result of a walk along a list comes from a step for its element. -/
theorem forall₂_of_run_mapM {f : α → StateT σ (Except ε) β} {l : List α} {s t : σ} {bs : List β}
    (h : (l.mapM f).run s = .ok (bs, t)) :
    List.Forall₂ (fun a b => ∃ u u', (f a).run u = .ok (b, u')) l bs := by
  induction l generalizing s bs with
  | nil =>
    obtain ⟨rfl, _⟩ := run_mapM_nil_eq_ok h
    exact .nil
  | cons a l ih =>
    obtain ⟨b, u, bs', hhead, htail, rfl⟩ := run_mapM_cons_eq_ok h
    exact .cons ⟨s, u, hhead⟩ (ih htail)

end Transformer

/-! ## Steps that fail with a state -/

section Exceptional

variable {σ ε α β : Type}

/-- A sequence goes on with the result and the state of its first part. -/
theorem run_bind_of_ok {m : ExceptT ε (StateM σ) α} {f : α → ExceptT ε (StateM σ) β}
    {s t : σ} {a : α} (h : m.run.run s = (.ok a, t)) :
    (m >>= f).run.run s = (f a).run.run t := by
  rw [ExceptT.run_bind, StateT.run_bind, h]
  rfl

/-- A sequence stops where its first part fails. -/
theorem run_bind_of_error {m : ExceptT ε (StateM σ) α} {f : α → ExceptT ε (StateM σ) β}
    {s t : σ} {e : ε} (h : m.run.run s = (.error e, t)) :
    (m >>= f).run.run s = (.error e, t) := by
  rw [ExceptT.run_bind, StateT.run_bind, h]
  rfl

/-- A sequence succeeds if both parts do. -/
theorem ok_of_run_bind {m : ExceptT ε (StateM σ) α} {f : α → ExceptT ε (StateM σ) β}
    {s t : σ} {b : β} (h : (m >>= f).run.run s = (.ok b, t)) :
    ∃ a u, m.run.run s = (.ok a, u) ∧ (f a).run.run u = (.ok b, t) := by
  rcases hm : m.run.run s with ⟨outcome, u⟩
  cases outcome with
  | ok a =>
    rw [run_bind_of_ok hm] at h
    exact ⟨a, u, rfl, h⟩
  | error e =>
    rw [run_bind_of_error hm] at h
    cases h

theorem run_get (s : σ) : (get : ExceptT ε (StateM σ) σ).run.run s = (.ok s, s) :=
  rfl

/-- A step whose error is handed on as a result succeeds. -/
theorem run_mk_ok {m : ExceptT ε (StateM σ) α} {s t : σ} {outcome : Except ε α}
    (h : m.run.run s = (outcome, t)) :
    (ExceptT.mk (Except.ok <$> m.run) : ExceptT ε (StateM σ) (Except ε α)).run.run s =
      (.ok outcome, t) := by
  rw [ExceptT.run_mk, StateT.run_map, h]
  rfl

/-- A step ends with success in a state of a kind, or with an error of a kind. -/
inductive Ends (P : σ → Prop) (Q : ε → Prop) : Except ε α × σ → Prop
  | ok {a : α} {t : σ} : P t → Ends P Q (.ok a, t)
  | error {e : ε} {t : σ} : Q e → Ends P Q (.error e, t)

private theorem ends_forM_range' {f : Nat → ExceptT ε (StateM σ) Unit} {P : Nat → σ → Prop}
    {Q : ε → Prop} {n : Nat} (start : Nat)
    (hstep : ∀ i s, i < start + n → P i s → Ends (P (i + 1)) Q ((f i).run.run s))
    {s : σ} (h : P start s) :
    Ends (P (start + n)) Q (((List.range' start n).forM f).run.run s) := by
  induction n generalizing start s with
  | zero => exact .ok h
  | succ n ih =>
    have hhead := hstep start s (by omega) h
    rw [List.range'_succ]
    show Ends _ _ ((f start >>= fun _ => (List.range' (start + 1) n).forM f).run.run s)
    rcases hrun : (f start).run.run s with ⟨_ | _, u⟩
    · rw [hrun] at hhead
      cases hhead with
      | error hQ =>
        rw [run_bind_of_error hrun]
        exact .error hQ
    · rw [hrun] at hhead
      cases hhead with
      | ok hP =>
        rw [run_bind_of_ok hrun, show start + (n + 1) = start + 1 + n by omega]
        exact ih (start + 1) (fun i s hi => hstep i s (by omega)) hP

/-- A loop over the numbers below a bound takes an invariant along as long as each
round takes it one number further; the first error ends it. -/
theorem ends_forM_range {f : Nat → ExceptT ε (StateM σ) Unit} {P : Nat → σ → Prop}
    {Q : ε → Prop} {n : Nat}
    (hstep : ∀ i s, i < n → P i s → Ends (P (i + 1)) Q ((f i).run.run s)) {s : σ} (h : P 0 s) :
    Ends (P n) Q (((List.range n).forM f).run.run s) := by
  rw [List.range_eq_range']
  have hall := ends_forM_range' (n := n) 0 (fun i s hi => hstep i s (Nat.zero_add n ▸ hi)) h
  rwa [Nat.zero_add] at hall

/-- What a step leaves: a state of a kind, or an error and a state that goes with it. -/
inductive Leaves (P : σ → Prop) (Q : ε → σ → Prop) : Except ε α × σ → Prop
  | ok {a : α} {t : σ} : P t → Leaves P Q (.ok a, t)
  | error {e : ε} {t : σ} : Q e t → Leaves P Q (.error e, t)

/-- A loop over a list takes an invariant along that says what is ahead; the first error
ends it. -/
theorem leaves_forM {f : α → ExceptT ε (StateM σ) Unit} {P : List α → σ → Prop}
    {Q : ε → σ → Prop}
    (hstep : ∀ a rest s, P (a :: rest) s → Leaves (P rest) Q ((f a).run.run s)) {l : List α}
    {s : σ} (h : P l s) : Leaves (P []) Q ((l.forM f).run.run s) := by
  induction l generalizing s with
  | nil => exact .ok h
  | cons a rest ih =>
    have hhead := hstep a rest s h
    show Leaves _ _ ((f a >>= fun _ => rest.forM f).run.run s)
    rcases hrun : (f a).run.run s with ⟨_ | _, u⟩
    · rw [hrun] at hhead
      cases hhead with
      | error hQ =>
        rw [run_bind_of_error hrun]
        exact .error hQ
    · rw [hrun] at hhead
      cases hhead with
      | ok hP =>
        rw [run_bind_of_ok hrun]
        exact ih hP

end Exceptional

end TypeDescription
