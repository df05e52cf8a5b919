import TypeDescription.Graph.Key

/-!
# Following paths

`Heap.resolve` follows a path by plain look-ups.  A step names a property by
its text, so an index also finds the property of that name; a key that writes
an index finds an element.  Exempt values and scalars have nothing inside.
-/

namespace TypeDescription

variable {X : Type}

/-- The digits of an index: a plus sign may stand in front. -/
def Step.unsigned : List Char → List Char
  | '+' :: digits => digits
  | digits => digits

/-- The element that a step addresses, by an index or by a key that writes
one. -/
def Step.elementIndex? : Step → Option Nat
  | index i => some i.toNat
  | key name =>
      let digits := unsigned name.toList
      if !digits.isEmpty && digits.all Char.isDigit then
        some (digits.foldl (fun n c => n * 10 + (c.toNat - '0'.toNat)) 0)
      else
        none

namespace Heap

/-- Follow one step. -/
def step? (h : Heap X) (value : Value X) (step : Step) : Option (Value X) :=
  match h.content? value with
  | some (.array items) => step.elementIndex?.bind fun i => items[i]?
  | some (.set items) => step.elementIndex?.bind fun i => items[i]?
  | some (.object properties) => properties.get? step.name
  | some (.map entries) =>
      (entries.reverse.find? fun entry => h.propertyKey entry.1 == step.name).map Prod.snd
  | none => none

/-- The value at the end of a path. -/
def resolve (h : Heap X) (root : Value X) (path : Path) : Option (Value X) :=
  path.foldlM (fun value step => h.step? value step) root

end Heap

end TypeDescription
