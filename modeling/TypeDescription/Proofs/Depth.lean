import TypeDescription.Depth

/-!
# Depth counters

A level that is entered can be left again, and then the counter is as it was (`leave_enter`).  What
a walk leaves behind that fails at the limit only is `DepthCounter.after`.
-/

namespace TypeDescription

namespace DepthCounter

variable {ε α : Type} {c c' : DepthCounter}

theorem enter_of_lt (h : c.depth < c.limit) :
    c.enter = (true, { c with depth := c.depth + 1 }) :=
  if_pos h

theorem enter_of_not_lt (h : ¬ c.depth < c.limit) :
    c.enter = (false, { c with exceeded := true }) :=
  if_neg h

theorem leave_congr (hdepth : c'.depth = c.depth) : c'.leave.depth = c.leave.depth := by
  unfold leave
  rw [hdepth]
  split
  · exact hdepth
  · rfl

theorem limit_leave (c : DepthCounter) : c.leave.limit = c.limit := by
  unfold leave
  split <;> rfl

/-- Below the limit there is one more level to count. -/
theorem toNat_depth_succ (h : c.depth < c.limit) : (c.depth + 1).toNat = c.depth.toNat + 1 := by
  have hlt := UInt32.lt_iff_toNat_lt.1 h
  have hmax := c.limit.toNat_lt
  rw [UInt32.toNat_add, UInt32.toNat_one, Nat.mod_eq_of_lt (by omega)]

/-- A level entered can be left again. -/
theorem leave_enter (h : c.depth < c.limit) : c.enter.2.leave = c := by
  have hne : c.depth + 1 ≠ 0 := by
    intro heq
    have hsucc := toNat_depth_succ h
    rw [heq] at hsucc
    cases hsucc
  rw [enter_of_lt h]
  unfold leave
  rw [if_neg hne, UInt32.add_sub_cancel]

/-- In an entered counter one level less is left. -/
theorem levels_enter (h : c.depth < c.limit) :
    c.limit.toNat - c.depth.toNat = (c.enter.2.limit.toNat - c.enter.2.depth.toNat) + 1 := by
  have hlt := UInt32.lt_iff_toNat_lt.1 h
  rw [enter_of_lt h]
  show c.limit.toNat - c.depth.toNat = (c.limit.toNat - (c.depth + 1).toNat) + 1
  rw [toNat_depth_succ h]
  omega

/-! ## After a walk -/

/-- The counter after a walk that leaves all its levels and fails at the limit only. -/
def after (c : DepthCounter) : Except ε α → DepthCounter
  | .ok _ => c
  | .error _ => { c with exceeded := true }

theorem depth_after (c : DepthCounter) (outcome : Except ε α) :
    (c.after outcome).depth = c.depth := by
  cases outcome <;> rfl

theorem leave_after (c : DepthCounter) (outcome : Except ε α) :
    (c.after outcome).leave = c.leave.after outcome := by
  cases outcome with
  | ok a => rfl
  | error e =>
    unfold leave after
    dsimp only
    split <;> rfl

end DepthCounter

end TypeDescription
