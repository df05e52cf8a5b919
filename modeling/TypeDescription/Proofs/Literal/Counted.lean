import TypeDescription.Literal.Counted
import TypeDescription.Proofs.Depth
import TypeDescription.Proofs.Literal.Written

/-!
# Levels counted and levels left

`Heap.convert` counts levels in a counter, `Heap.toLiteralAt` is given the levels that are left.
They are one walk (`run_convert`): they have one outcome, and the counter is at the depth at which
it was, on success and on failure.  A failure marks it as exceeded (`DepthCounter.after`).

`Conversion.Mirrors` says this of a single step.  It holds of a sequence if it holds of the parts,
and of a step one level down if there is a level left.
-/

namespace TypeDescription

/-! ## Steps under a counter -/

namespace Conversion

variable {c : DepthCounter} {α β : Type} {step : Conversion α} {outcome : Except LiteralError α}

/-- From a counter, a step ends as one without a counter does, and has left all levels that it
entered. -/
def Mirrors (c : DepthCounter) (step : Conversion α) (outcome : Except LiteralError α) : Prop :=
  step.run.run c = (outcome, c.after outcome)

theorem mirrors_return (a : α) : Mirrors c (return a) (.ok a) :=
  rfl

theorem Mirrors.bind {next : α → Conversion β} {next' : α → Except LiteralError β}
    (hstep : Mirrors c step outcome) (hnext : ∀ a, Mirrors c (next a) (next' a)) :
    Mirrors c (step >>= next) (outcome >>= next') := by
  cases outcome with
  | ok a => exact (run_bind_of_ok hstep).trans (hnext a)
  | error e => exact run_bind_of_error hstep

theorem Mirrors.mapM {f : α → Conversion β} {f' : α → Except LiteralError β} (l : List α)
    (hf : ∀ a, Mirrors c (f a) (f' a)) : Mirrors c (l.mapM f) (l.mapM f') := by
  induction l with
  | nil => exact mirrors_return _
  | cons a l ih =>
    rw [List.mapM_cons, List.mapM_cons]
    exact (hf a).bind fun b => ih.bind fun bs => mirrors_return _

theorem run_enter (c : DepthCounter) :
    (enter : Conversion Unit).run.run c =
      (if c.depth < c.limit then .ok () else .error (.depthExceeded c.limit), c.enter.2) := by
  unfold enter
  rw [run_bind_of_ok (run_get c)]
  by_cases h : c.depth < c.limit
  · rw [if_pos h, DepthCounter.enter_of_lt h]
    rfl
  · rw [if_neg h, DepthCounter.enter_of_not_lt h]
    rfl

/-- At the limit nothing is entered. -/
theorem mirrors_nested_full (h : ¬ c.depth < c.limit) :
    Mirrors c (nested step) (.error (.depthExceeded c.limit)) := by
  have hentered := run_enter c
  rw [if_neg h, DepthCounter.enter_of_not_lt h] at hentered
  exact run_bind_of_error hentered

/-- Below the limit a level is entered for the step, and left however the step ends. -/
theorem mirrors_nested (h : c.depth < c.limit) (hstep : Mirrors c.enter.2 step outcome) :
    Mirrors c (nested step) outcome := by
  have hentered := run_enter c
  rw [if_pos h] at hentered
  have hleft : (modify DepthCounter.leave : Conversion Unit).run.run (c.enter.2.after outcome) =
      (.ok (), c.after outcome) := by
    conv_rhs => rw [← DepthCounter.leave_enter h, ← DepthCounter.leave_after]
    rfl
  unfold Mirrors nested
  rw [run_bind_of_ok hentered, run_bind_of_ok (run_mk_ok hstep), run_bind_of_ok hleft]
  cases outcome <;> rfl

end Conversion

namespace Heap

open Conversion

variable {h : Heap Expression} {v : Value Expression}

theorem convertAt_unwrap (h : Heap Expression) (room : Nat) (v : Value Expression) :
    h.convertAt room v.unwrap = h.convertAt room v := by
  cases room <;> simp only [convertAt, Value.unwrap_unwrap]

theorem mirrors_convertView {c : DepthCounter} {child : Value Expression → Conversion Literal}
    {child' : Value Expression → Except LiteralError Literal}
    (hchild : ∀ v, Mirrors c (child v) (child' v)) (view : View Expression) :
    Mirrors c (convertView child view) (viewToLiteral child' view) := by
  cases view with
  | list items => exact (Mirrors.mapM items hchild).bind fun _ => mirrors_return _
  | named fields =>
    refine Mirrors.bind (Mirrors.mapM _ fun field => ?_) fun _ => mirrors_return _
    exact (hchild field.2).bind fun _ => mirrors_return _

/-- The levels left in the counter are those that the walk may enter. -/
theorem mirrors_convertAt (h : Heap Expression) (c : DepthCounter) (room : Nat)
    (hroom : c.limit.toNat - c.depth.toNat = room) (v : Value Expression) :
    Mirrors c (h.convertAt room v) (h.toLiteralAt c.limit room v) := by
  induction room using Nat.strongRecOn generalizing c v with
  | ind room ih =>
    rw [← toLiteralAt_unwrap, ← convertAt_unwrap]
    have hplain := v.exempt?_unwrap
    generalize v.unwrap = w at hplain
    cases w with
    | node r =>
      by_cases hlt : c.depth < c.limit
      · have hlimit : c.enter.2.limit = c.limit := by rw [DepthCounter.enter_of_lt hlt]
        rw [DepthCounter.levels_enter hlt] at hroom
        subst hroom
        refine mirrors_nested hlt (mirrors_convertView (fun u => ?_) _)
        exact hlimit ▸ ih _ (Nat.lt_succ_self _) c.enter.2 rfl u
      · obtain rfl : 0 = room := by
          rw [UInt32.lt_iff_toNat_lt] at hlt
          omega
        exact mirrors_nested_full hlt
    | exempt inner => cases hplain
    | _ => cases room <;> rfl

/-- A graph is converted under a counter as it is written in the levels that the counter has left,
and the counter keeps its depth. -/
theorem run_convert (h : Heap Expression) (v : Value Expression) (c : DepthCounter) :
    (h.convert v).run.run c =
      (h.toLiteralAt c.limit (c.limit.toNat - c.depth.toNat) v,
        c.after (h.toLiteralAt c.limit (c.limit.toNat - c.depth.toNat) v)) := by
  unfold convert
  rw [run_bind_of_ok (run_get c)]
  exact mirrors_convertAt h c _ rfl v

/-- Under a counter that has entered nothing a graph has its literal. -/
theorem run_convert_ofLimit (h : Heap Expression) (v : Value Expression) (limit : UInt32) :
    (h.convert v).run.run (.ofLimit limit) =
      (h.toLiteral limit v, (DepthCounter.ofLimit limit).after (h.toLiteral limit v)) :=
  run_convert h v (.ofLimit limit)

end Heap

end TypeDescription
