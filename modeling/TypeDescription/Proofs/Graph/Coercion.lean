import Mathlib.Data.List.Basic
import TypeDescription.Graph.Key
import TypeDescription.Proofs.Depth

/-!
# Coercions leave no trace

`Heap.coerce` counts levels in a counter and notes the containers that it is joining.
`Heap.keyText` is given both: the levels that are left, and the containers around.  They are one
walk (`run_coerce`), because a coercion leaves each level that it entered and closes each container
that it opened, on all of its ways out.  Only the mark that the limit was met may stay.

`Coercion.Gives` says this of a single step.  It holds of a sequence if it holds of the parts.
-/

namespace TypeDescription

variable {X : Type}

/-! ## Steps -/

namespace Coercion

variable {limit depth : UInt32} {refs : List Ref} {α β : Type} {a : α}

/-- At a depth and inside some containers, a step has a result and comes back to this depth and
these containers. -/
def Gives (limit depth : UInt32) (refs : List Ref) (step : Coercion α) (a : α) : Prop :=
  ∀ met, ∃ met', step.run ⟨⟨limit, depth, met⟩, refs⟩ = (a, ⟨⟨limit, depth, met'⟩, refs⟩)

theorem gives_return (a : α) : Gives limit depth refs (return a) a :=
  fun met => ⟨met, rfl⟩

theorem Gives.bind {step : Coercion α} {next : α → Coercion β} {b : β}
    (hstep : Gives limit depth refs step a) (hnext : Gives limit depth refs (next a) b) :
    Gives limit depth refs (step >>= next) b := by
  intro met
  obtain ⟨met', hrun⟩ := hstep met
  obtain ⟨met'', hrun'⟩ := hnext met'
  refine ⟨met'', ?_⟩
  rw [StateT.run_bind, hrun]
  exact hrun'

theorem Gives.mapM {f : α → Coercion β} {g : α → β} {l : List α}
    (h : ∀ a ∈ l, Gives limit depth refs (f a) (g a)) :
    Gives limit depth refs (l.mapM f) (l.map g) := by
  induction l with
  | nil => exact gives_return _
  | cons a l ih =>
    obtain ⟨hhead, htail⟩ := List.forall_mem_cons.1 h
    rw [List.mapM_cons]
    exact hhead.bind ((ih htail).bind (gives_return _))

theorem run_enter (joining : Joining) :
    enter.run joining =
      (joining.levels.enter.1, { joining with levels := joining.levels.enter.2 }) :=
  rfl

theorem run_open? (r : Ref) (joining : Joining) :
    (open? r).run joining =
      if joining.refs.contains r then (false, joining)
      else (true, { joining with refs := r :: joining.refs }) := by
  unfold open?
  rw [StateT.run_bind]
  show StateT.run (if joining.refs.contains r then _ else _) joining = _
  split <;> rfl

/-- At the limit there is no text, and no level to leave. -/
theorem gives_nested_full (h : ¬ depth < limit) (step : Coercion String) :
    Gives limit depth refs (nested step) "" := by
  intro met
  refine ⟨true, ?_⟩
  unfold nested
  rw [StateT.run_bind, run_enter, DepthCounter.enter_of_not_lt h]
  rfl

/-- Below the limit the level that is entered is left again. -/
theorem gives_nested {step : Coercion String} {text : String} (h : depth < limit)
    (hstep : Gives limit (depth + 1) refs step text) :
    Gives limit depth refs (nested step) text := by
  intro met
  obtain ⟨met', hrun⟩ := hstep met
  have hleave := DepthCounter.leave_enter (c := ⟨limit, depth, met'⟩) h
  rw [DepthCounter.enter_of_lt h] at hleave
  refine ⟨met', ?_⟩
  unfold nested
  rw [StateT.run_bind, run_enter, DepthCounter.enter_of_lt h]
  show (step >>= fun text => leave >>= fun _ => return text).run _ = _
  rw [StateT.run_bind, hrun]
  show (text, (⟨_, refs⟩ : Joining)) = _
  rw [hleave]

/-- A step one level down that is allowed to recurse as often as there are levels left never runs
out of recursion. -/
theorem gives_nested_levels {room : Nat} {step : Nat → Coercion String} {text : Nat → String} :
    limit.toNat - depth.toNat ≤ room →
    (∀ room', room = room' + 1 → limit.toNat - (depth + 1).toNat ≤ room' →
      Gives limit (depth + 1) refs (step room') (text (limit.toNat - (depth + 1).toNat))) →
    Gives limit depth refs
      (nested (match room with
        | 0 => return ""
        | room + 1 => step room))
      (match limit.toNat - depth.toNat with
        | 0 => ""
        | left + 1 => text left) := by
  intro hroom hstep
  by_cases h : depth < limit
  · have hlevels := DepthCounter.levels_enter (c := ⟨limit, depth, false⟩) h
    rw [DepthCounter.enter_of_lt h] at hlevels
    dsimp only at hlevels
    rw [hlevels] at hroom ⊢
    obtain ⟨room', rfl⟩ := Nat.exists_eq_succ_of_ne_zero (Nat.ne_zero_of_lt hroom)
    exact gives_nested h (hstep room' rfl (Nat.le_of_succ_le_succ hroom))
  · have hlevels : limit.toNat - depth.toNat = 0 := by
      rw [UInt32.lt_iff_toNat_lt] at h
      omega
    rw [hlevels]
    exact gives_nested_full h _

/-- Inside its own join a container has no text, and it stays open. -/
theorem gives_joining_again {r : Ref} (hr : r ∈ refs) (step : Coercion String) :
    Gives limit depth refs (joining r step) "" := by
  intro met
  refine ⟨met, ?_⟩
  unfold joining
  rw [StateT.run_bind, run_open?, if_pos (List.contains_iff_mem.2 hr)]
  rfl

/-- A container that is opened is closed again. -/
theorem gives_joining {r : Ref} {step : Coercion String} {text : String} (hr : r ∉ refs)
    (hstep : Gives limit depth (r :: refs) step text) :
    Gives limit depth refs (joining r step) text := by
  intro met
  obtain ⟨met', hrun⟩ := hstep met
  refine ⟨met', ?_⟩
  unfold joining
  rw [StateT.run_bind, run_open?, if_neg (by simpa using hr)]
  show (step >>= fun text => close r >>= fun _ => return text).run _ = _
  rw [StateT.run_bind, hrun]
  show (text, (⟨_, (r :: refs).erase r⟩ : Joining)) = _
  rw [List.erase_cons_head]

end Coercion

/-! ## Keys -/

namespace Heap

/-- The text of a value as a key with `room` levels left, while the containers `joining` are being
joined. -/
def keyText (h : Heap X) : Nat → List Ref → Value X → String
  | _, _, .undefined => "undefined"
  | _, _, .null => "null"
  | _, _, .bool b => if b then "true" else "false"
  | _, _, .number x => NumberStyle.source.text x
  | _, _, .bigInt digits => digits
  | _, _, .string s => s
  | _, _, .boxed p => p.keyText
  | room, joining, .exempt inner =>
      match room with
      | 0 => ""
      | room + 1 => keyText h room joining inner
  | room, joining, .node r =>
      match h.joined? r with
      | none => "[object Object]"
      | some items =>
          if joining.contains r then
            ""
          else
            match room with
            | 0 => ""
            | room + 1 =>
                ",".intercalate (items.map fun item =>
                  match item with
                  | .undefined => ""
                  | .null => ""
                  | item => keyText h room (r :: joining) item)
  | _, _, .date _ => "[object Object]"
  | _, _, .regExp _ _ => "[object Object]"
  | _, _, .foreign _ => "[object Object]"

/-- A coercion that is allowed to recurse at least as often as its counter has levels left has the
text of the key, and comes back to where it began. -/
theorem gives_coerce (h : Heap X) (limit depth : UInt32) (refs : List Ref) (room : Nat)
    (hroom : limit.toNat - depth.toNat ≤ room) (v : Value X) :
    Coercion.Gives limit depth refs (h.coerce room v)
      (h.keyText (limit.toNat - depth.toNat) refs v) := by
  induction room using Nat.strongRecOn generalizing depth refs v with
  | ind room ih =>
    cases v with
    | exempt inner =>
      unfold coerce keyText
      refine Coercion.gives_nested_levels hroom ?_
      rintro room' rfl hroom'
      exact ih room' (Nat.lt_succ_self _) _ _ hroom' inner
    | node r =>
      unfold coerce keyText
      cases hitems : h.joined? r with
      | none => exact Coercion.gives_return _
      | some items =>
        dsimp only
        by_cases hr : r ∈ refs
        · rw [if_pos (List.contains_iff_mem.2 hr)]
          exact Coercion.gives_joining_again hr _
        · rw [if_neg (by simpa using hr)]
          refine Coercion.gives_joining hr (Coercion.gives_nested_levels hroom ?_)
          rintro room' rfl hroom'
          refine Coercion.Gives.bind (Coercion.Gives.mapM fun item _ => ?_)
            (Coercion.gives_return _)
          have hitem := ih room' (Nat.lt_succ_self _) _ (r :: refs) hroom' item
          cases item <;> first | exact Coercion.gives_return _ | exact hitem
    | _ =>
      unfold coerce keyText
      exact Coercion.gives_return _

/-- A coercion from a fresh start has the text of the key and ends with nothing open, however much
more it is allowed to recurse. -/
theorem run_coerce (h : Heap X) (v : Value X) {room : Nat}
    (hroom : DepthProfile.codec.limit.toNat ≤ room) :
    ∃ met, (h.coerce room v).run ⟨.ofLimit DepthProfile.codec.limit, []⟩ =
      (h.keyText DepthProfile.codec.limit.toNat [] v, ⟨⟨DepthProfile.codec.limit, 0, met⟩, []⟩) :=
  h.gives_coerce DepthProfile.codec.limit 0 [] room hroom v false

theorem propertyKey_eq (h : Heap X) (v : Value X) :
    h.propertyKey v = h.keyText DepthProfile.codec.limit.toNat [] v := by
  obtain ⟨met, hrun⟩ := h.run_coerce v (Nat.le_refl _)
  unfold propertyKey
  dsimp only
  rw [hrun]

end Heap

end TypeDescription
