import TypeDescription.Reflected.Reflect

/-!
# Sequences of calls

A `Call` asks a reflector for a type or a class, or resets it.  `Reached` says
which reflectors come out of sequences of calls, each allowed in the state in
which it is made, whether it succeeds or fails.
-/

namespace TypeDescription

variable {τ σ : Type}

/-- A call of a reflector. -/
inductive Call (τ : Type) where
  | type (request : Request) (type : τ)
  | classType (request : Request) (type : τ)
  | reset

/-- What a call answers: its outcome and what it reports.  A reset answers
nothing. -/
abbrev Answer (σ : Type) : Type :=
  Option (Except ReflectError NodeRef × Report σ)

/-- The error of a failed call. -/
def Answer.error? : Answer σ → Option ReflectError
  | some (.error error, _) => some error
  | _ => none

/-- The node of a successful call. -/
def Answer.node? : Answer σ → Option NodeRef
  | some (.ok node, _) => some node
  | _ => none

namespace Reflector

/-- Make a call: the answer, and the reflector after it. -/
def call (r : Reflector) (host : TypeHost τ σ) : Call τ → Answer σ × Reflector
  | .type request type =>
      let reflected := r.reflectType host request type
      (some (reflected.outcome, reflected.report), reflected.reflector)
  | .classType request type =>
      let reflected := r.reflectClass host request type
      (some (reflected.outcome, reflected.report), reflected.reflector)
  | .reset => (none, r.reset)

/-- The reflector after a call. -/
def after (r : Reflector) (host : TypeHost τ σ) (c : Call τ) : Reflector :=
  (r.call host c).2

/-- The answers to calls made one after the other, and the reflector after
them. -/
def calls (r : Reflector) (host : TypeHost τ σ) : List (Call τ) → List (Answer σ) × Reflector
  | [] => ([], r)
  | c :: rest =>
      let (answer, r) := r.call host c
      let (answers, r) := calls r host rest
      (answer :: answers, r)

/-- The reflectors that come out of calls which are allowed where they are
made. -/
inductive Reached (host : TypeHost τ σ) (allowed : Reflector → Call τ → Prop) (limit : UInt32) :
    Reflector → Prop
  | start : Reached host allowed limit (ofLimit limit)
  | after {r : Reflector} {c : Call τ} : Reached host allowed limit r → allowed r c →
      Reached host allowed limit (r.after host c)

end Reflector

end TypeDescription
