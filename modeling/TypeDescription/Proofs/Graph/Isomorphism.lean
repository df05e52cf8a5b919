import Mathlib.Data.Set.Function
import TypeDescription.Proofs.Graph.View

/-!
# Isomorphic graphs

`Heap.Isomorphism` renames the containers that one value reaches to those that
another reaches, one to one.  A renamed container is an array or an object with
the same values in the same places, under the same names and renamed
themselves; so sets are read as arrays and maps as objects.

`Isomorphism.follow_eq` says that the two graphs agree on every walk from the
root, and `Isomorphism.meets_iff` that two walks end at one container in both
graphs or in neither.
-/

namespace TypeDescription

variable {X : Type}

/-! ## Renaming -/

/-- A value with its container renamed. -/
def Value.rename (f : Ref → Ref) : Value X → Value X
  | .node r => .node (f r)
  | .exempt inner => .exempt (inner.rename f)
  | value => value

/-- A view with the containers in it renamed. -/
def View.rename (f : Ref → Ref) : View X → View X
  | .list items => .list (items.map (Value.rename f))
  | .named fields => .named (fields.map fun field => (field.1, field.2.rename f))

theorem View.values_rename (f : Ref → Ref) (view : View X) :
    (view.rename f).values = view.values.map (Value.rename f) := by
  cases view with
  | list items => rfl
  | named fields => simp [View.rename, View.values, Function.comp_def]

/-- The array or object that a view is the view of. -/
inductive Cell.Holds : Cell X → View X → Prop
  | array (items : List (Value X)) : Holds (.array items) (.list items)
  | object (properties : Table (Value X)) : Holds (.object properties) (.named properties.entries)

namespace Heap

theorem view_of_holds {k : Heap X} {q : Ref} {c : Cell X} {view : View X}
    (hcell : k.cell? q = some c) (hc : c.Holds view) : k.view q = view := by
  cases hc with
  | array items => simp [Heap.view, hcell, viewCell]
  | object properties => simp [Heap.view, hcell, viewCell]

/-! ## Isomorphisms -/

/-- A renaming of the containers below one root to those below another, under
which the two graphs are the same. -/
structure Isomorphism (h : Heap X) (x : Value X) (k : Heap X) (y : Value X) (f : Ref → Ref) :
    Prop where
  root : y = x.rename f
  bijOn : Set.BijOn f {r | h.Reaches x r} {q | k.Reaches y q}
  content : ∀ r, h.Reaches x r →
    ∃ c, k.cell? (f r) = some c ∧ c.Holds ((h.view r).rename f)

/-- The value at the end of a walk that takes a position in each container. -/
def follow (h : Heap X) : Value X → List Nat → Option (Value X)
  | value, [] => some value
  | .node r, i :: rest => (h.view r).values[i]?.bind fun value => follow h value rest
  | _, _ :: _ => none

/-- Two walks from a root end at one container. -/
def Meets (h : Heap X) (root : Value X) (a b : List Nat) : Prop :=
  ∃ r, h.follow root a = some (.node r) ∧ h.follow root b = some (.node r)

/-- A walk ends at containers that the root reaches. -/
theorem reaches_of_follow {h : Heap X} {x : Value X} {path : List Nat} {r : Ref}
    (hx : h.follow x path = some (.node r)) : h.Reaches x r := by
  induction path generalizing x with
  | nil =>
    simp only [follow, Option.some.injEq] at hx
    exact .root hx
  | cons i path ih =>
    cases x with
    | node s =>
      simp only [follow, Option.bind_eq_some_iff] at hx
      obtain ⟨value, hvalue, hx⟩ := hx
      exact .of_value (.root rfl) (List.mem_of_getElem? hvalue) (ih hx)
    | _ => simp [follow] at hx

section Isomorphism

variable {h k : Heap X} {x y : Value X} {f : Ref → Ref}

/-- A walk ends in the renamed graph where it ends in the graph. -/
theorem Isomorphism.follow_eq (iso : h.Isomorphism x k y f) (path : List Nat) :
    k.follow y path = (h.follow x path).map (Value.rename f) := by
  have hwalk : ∀ value, (∀ r, h.Reaches value r → h.Reaches x r) →
      k.follow (value.rename f) path = (h.follow value path).map (Value.rename f) := by
    induction path with
    | nil =>
      intro value _
      simp [follow]
    | cons i path ih =>
      intro value hvalue
      cases value with
      | node r =>
        have hr := hvalue r (.root rfl)
        obtain ⟨c, hcell, hc⟩ := iso.content r hr
        simp only [Value.rename, follow, view_of_holds hcell hc, View.values_rename,
          List.getElem?_map]
        cases hi : (h.view r).values[i]? with
        | none => rfl
        | some item =>
          have hitem : ∀ s, h.Reaches item s → h.Reaches x s := fun s hs =>
            hvalue s (.of_value (.root rfl) (List.mem_of_getElem? hi) hs)
          exact ih item hitem
      | _ => simp [follow, Value.rename]
  rw [iso.root]
  exact hwalk x fun _ hr => hr

/-- Two walks end at one container in both graphs or in neither. -/
theorem Isomorphism.meets_iff (iso : h.Isomorphism x k y f) (a b : List Nat) :
    k.Meets y a b ↔ h.Meets x a b := by
  constructor
  · intro hmeets
    obtain ⟨q, ha, hb⟩ := hmeets
    rw [iso.follow_eq, Option.map_eq_some_iff] at ha hb
    obtain ⟨va, hva, hqa⟩ := ha
    obtain ⟨vb, hvb, hqb⟩ := hb
    cases va <;> cases hqa
    cases vb <;> simp only [Value.rename, Value.node.injEq, reduceCtorEq] at hqb
    rename_i ra rb
    have heq := iso.bijOn.injOn (reaches_of_follow hvb) (reaches_of_follow hva) hqb
    exact ⟨ra, hva, heq ▸ hvb⟩
  · intro hmeets
    obtain ⟨r, ha, hb⟩ := hmeets
    refine ⟨f r, ?_, ?_⟩
    · rw [iso.follow_eq, ha]
      rfl
    · rw [iso.follow_eq, hb]
      rfl

end Isomorphism

end Heap

end TypeDescription
