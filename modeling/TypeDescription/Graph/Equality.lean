import TypeDescription.Depth
import TypeDescription.Graph.Basic

/-!
# Comparing graphs by shape

Two graphs are compared position by position.  A pair of containers that is
already under comparison is taken as equal, so cyclic graphs can be compared;
two names of one container are equal at once.  Arrays, sets and maps are
compared in order, objects by name.  Graphs that nest deeper than the limit
compare unequal.
-/

namespace TypeDescription

variable {X : Type}

/-- Equality of boxed values.  A boxed NaN equals nothing. -/
def Primitive.agree : Primitive → Primitive → Bool
  | bool a, bool b => a == b
  | number a, number b => a.equal b
  | string a, string b => a == b
  | _, _ => false

/-- The pairs of containers taken as equal. -/
abbrev Assumed : Type :=
  List (Ref × Ref)

/-- A comparison that collects assumptions. -/
abbrev Comparison : Type :=
  StateM Assumed Bool

namespace Comparison

/-- Compare two things, and two more only if the first agree. -/
def andThen (first second : Comparison) : Comparison := do
  if ← first then second else return false

/-- Compare in order until a pair disagrees. -/
def all {α : Type} (agree : α → Comparison) : List α → Comparison
  | [] => return true
  | a :: rest => andThen (agree a) (all agree rest)

end Comparison

/-- Compare two values, given how to compare two containers. -/
def Value.agree [DecidableEq X] (nodes : Ref → Ref → Comparison) :
    Value X → Value X → Comparison
  | undefined, undefined => return true
  | null, null => return true
  | bool a, bool b => return a == b
  | number a, number b => return a.same b
  | bigInt a, bigInt b => return a == b
  | string a, string b => return a == b
  | boxed a, boxed b => return a.agree b
  | date a, date b => return a.same b
  | regExp a f, regExp b g => return a == b && f == g
  | exempt a, exempt b => agree nodes a b
  | foreign a, foreign b => return a == b
  | node a, node b => nodes a b
  | _, _ => return false

namespace Heap

/-- Compare the contents of two containers, given how to compare values. -/
def cellsAgree (agree : Value X → Value X → Comparison) :
    Cell X → Cell X → Comparison
  | .array a, .array b => listsAgree a b
  | .set a, .set b => listsAgree a b
  | .object a, .object b =>
      if a.size = b.size then
        Comparison.all (fun entry =>
          match b.get? entry.1 with
          | some other => agree entry.2 other
          | none => return false) a.entries
      else
        return false
  | .map a, .map b =>
      if a.length = b.length then
        Comparison.all (fun pair =>
          Comparison.andThen (agree pair.1.1 pair.2.1) (agree pair.1.2 pair.2.2)) (a.zip b)
      else
        return false
  | _, _ => return false
where
  /-- Compare two lists of values in order. -/
  listsAgree (a b : List (Value X)) : Comparison :=
    if a.length = b.length then
      Comparison.all (fun pair => agree pair.1 pair.2) (a.zip b)
    else
      return false

/-- Whether two containers are of one kind. -/
def sameKind : Cell X → Cell X → Bool
  | .array _, .array _ => true
  | .set _, .set _ => true
  | .object _, .object _ => true
  | .map _, .map _ => true
  | _, _ => false

/-- Compare two containers with `room` levels left. -/
def nodesAgree [DecidableEq X] (h : Heap X) : Nat → Ref → Ref → Comparison
  | room, a, b => do
      match h.cell? a, h.cell? b with
      | some x, some y =>
          if !sameKind x y then
            return false
          else if a == b then
            return true
          else if (← get).contains (a, b) then
            return true
          else
            modify fun assumed => (a, b) :: assumed
            match room with
            | 0 => return false
            | room + 1 => cellsAgree (Value.agree (nodesAgree h room)) x y
      | _, _ => return false

/-- Whether two values have the same shape and content. -/
def structurallyEqual [DecidableEq X] (h : Heap X) (a b : Value X) : Bool :=
  ((Value.agree (h.nodesAgree DepthProfile.codec.limit.toNat) a b).run []).1

end Heap

end TypeDescription
