import TermMachine.Engine

/-!
# Executing programs

A program is a term and the inputs that it may read. Executing it ends with a value or with the
last term that was reached, to which no rule applied; either way the printed values and the store
are part of the result. Only a halt for another reason gives no execution.
-/

namespace TermMachine

inductive Outcome where
  | value (v : Term)
  /-- `cause` kept `t` from taking a step. -/
  | stuck (t : Term) (cause : Stuck)
  deriving DecidableEq

structure Execution where
  outcome : Outcome
  /-- The printed values, in order. -/
  standardOut : List Term
  /-- What the store entity holds in the end. -/
  store : Term
  deriving DecidableEq

namespace Execution

/-- A finished sequence of one element is that element, and a finished spread is a sequence. -/
def normalize : Term → Term
  | .seq items | .spread items => Term.ofSequence items
  | t => t

/-- Advance a program to its end, within a number of rounds. -/
def driveWith (advance : Term → Eval Term) : Nat → Term → Eval Outcome
  | rounds, t =>
    if t.isValue then pure (.value (normalize t))
    else
      match rounds with
      | 0 => throw .outOfFuel
      | rounds + 1 => do
        match ← Eval.recover (advance t) with
        | .ok next => driveWith advance rounds next
        | .error cause => return .stuck t cause

def supply (inputs : List Term) : Eval Unit :=
  let items := Term.flatten inputs
  if items.isEmpty then pure ()
  else Eval.modifyEntities (·.append Entity.standardIn (.seq items))

def report (outcome : Outcome) : Eval Execution := do
  let s ← Eval.entities
  return ⟨outcome, s.stream Entity.standardOut, s.get Entity.store⟩

def executeFor (fuel : Nat) (t : Term) (inputs : List Term) : Eval Execution := do
  supply inputs
  let outcome ← driveWith (Engine.advanceFor fuel) fuel t
  report outcome

end Execution

def execute (t : Term) (inputs : List Term) : Eval Execution :=
  Eval.settle fun fuel => Execution.executeFor fuel t inputs

end TermMachine
