import TypeDescription.Json.Source
import TypeDescription.Table

/-!
# Reading typed values

Readers take a `Source` and answer the value or the first fault met.  A record
may be written as an object, where the order of the fields is free, or as an
array of its fields in their fixed order; `element` and `noMore` read the
latter.
-/

namespace TypeDescription.Json

/-- Where a tree comes from.  In a text, an array or a word in the wrong place
breaks the grammar that the reader expects; in a value it is a wrong value. -/
inductive Origin where
  | text
  | value
deriving DecidableEq

/-- The fault of an unexpected token. -/
def Origin.unexpected : Origin → Fault
  | .text => .malformed
  | .value => .mismatch

namespace Source

variable {α : Type}

/-- The fault of a value of the wrong kind.  A scalar is read to its end
before its kind is judged. -/
def reject : Source → Except Fault α
  | text (.error fault) _ => .error fault
  | scalar (.error fault) _ => .error fault
  | broken fault => .error fault
  | _ => .error .mismatch

def string : Source → Except Fault String
  | text (.ok s) _ => .ok s
  | source => source.reject

def bool : Source → Except Fault Bool
  | scalar (.ok (.bool b)) _ => .ok b
  | source => source.reject

/-- An integer that is not negative and below a bound. -/
def natural (bound : Nat) : Source → Except Fault Nat
  | scalar (.ok (.number (.integer n))) _ =>
      if 0 ≤ n ∧ n.toNat < bound then .ok n.toNat else .error .mismatch
  | source => source.reject

/-- A 32-bit word. -/
def word (source : Source) : Except Fault UInt32 :=
  (source.natural 0x100000000).map UInt32.ofNat

/-- A value or null. -/
def optional (reader : Source → Except Fault α) : Source → Except Fault (Option α)
  | scalar (.ok .null) _ => .ok none
  | source => (reader source).map some

/-- An array of values. -/
def list (reader : Source → Except Fault α) : Source → Except Fault (List α)
  | array items stop => do
      let values ← items.mapM reader
      finish stop
      return values
  | source => source.reject

/-- An object with free names.  The last value of a repeated name counts. -/
def table (reader : Source → Except Fault α) : Source → Except Fault (Table α)
  | object fields stop => do
      let entries ← fields.mapM fun (key, value) => do
        let key ← key
        let value ← reader value
        return (key, value)
      finish stop
      return Table.ofList entries
  | source => source.reject

/-! ## Records -/

/-- Refuse a field that was read before. -/
def once {β : Type} : Option β → Except Fault Unit
  | none => .ok ()
  | some _ => .error .mismatch

/-- A field that must have been read. -/
def required : Option α → Except Fault α
  | some value => .ok value
  | none => .error .mismatch

/-- Read the fields of an object in order with a step that gets the name and
the value. -/
def fold {σ : Type} (step : σ → String → Source → Except Fault σ) (start : σ)
    (fields : List (Except Fault String × Source)) (stop : Option Fault) :
    Except Fault σ := do
  let state ← fields.foldlM (fun state (key, value) => do step state (← key) value) start
  finish stop
  return state

/-- Pass over a value that is not wanted. -/
def ignore (source : Source) : Except Fault Unit :=
  finish source.skip

/-- The next item of a record written as an array, or `absent` at its end. -/
def element (stop : Option Fault) (reader : Source → Except Fault α)
    (absent : Except Fault α) : StateT (List Source) (Except Fault) α
  | item :: rest => do
      let value ← reader item
      return (value, rest)
  | [] => do
      finish stop
      let value ← absent
      return (value, [])

/-- The end of a record written as an array. -/
def noMore (origin : Origin) (stop : Option Fault) :
    StateT (List Source) (Except Fault) Unit
  | [] => do
      finish stop
      return ((), [])
  | _ :: _ => .error origin.unexpected

end Source

end TypeDescription.Json
