import TermMachine.Machine
import TermMachine.Rules.Arguments

/-!
# Rules on the order of evaluation

The lazy operators that evaluate their arguments themselves take one step of one argument at a
time: `left-to-right` and `right-to-left` of the first, respectively last, argument that is not a
value, and `sequential` of its first statement, which must come to null before the next has its
turn.
-/

namespace TermMachine.Rules

open Term Eval

def firstReducible? (items : List Term) : Option Nat := items.findIdx? isReducible

def lastReducible? (items : List Term) : Option Nat :=
  (items.reverse.findIdx? isReducible).map fun k => items.length - 1 - k

/-- Step the term at the chosen position; when all are values, give them back. -/
def stepOne (step : Term → Eval Term) (op : Operator) (choose : List Term → Option Nat)
    (params : List Term) : Eval Term := do
  let items ← ofRule op (sequenceArg params 0)
  match choose items with
  | none => return ofSequence items
  | some index => do
    let next ← step (Sequence.get items index)
    return .node op [.seq (Sequence.replace items index next)]

/-- Run the statements to null one after the other, then go on with the last parameter. -/
def sequential (step : Term → Eval Term) (params : List Term) : Eval Term := do
  let op : Operator := .flow .sequential
  let statements ← ofRule op (sequenceArg params 0)
  let last ← ofRule op (arg params 1)
  match statements with
  | [] => return last
  | first :: rest =>
    if first.isReducible then
      let next ← step first
      return .node op [.seq (Sequence.replace statements 0 next), last]
    else
      match first with
      | .null => return if rest.isEmpty then last else .node op [.seq rest, last]
      | other => stuck (.rule op (.statementValue other))

def choose (params : List Term) : Eval Term := do
  let op : Operator := .flow .choice
  let options ← ofRule op (sequenceArg params 0)
  let m ← get
  match Sequence.pick options m.choices with
  | none => stuck (.rule op .nothingToChoose)
  | some (t, choices) => do
    set { m with choices }
    return t

def flow (step : Term → Eval Term) (op : Operator.Flow) (params : List Term) : Eval Term :=
  match op with
  | .leftToRight => stepOne step (.flow .leftToRight) firstReducible? params
  | .rightToLeft => stepOne step (.flow .rightToLeft) lastReducible? params
  | .sequential => sequential step params
  | .effect => do
    let _ ← ofRule (.flow .effect) (sequenceArg params 0)
    return .null
  | .choice => choose params
  | .ifTrueElse => ofRule (.flow .ifTrueElse) do
    if ← booleanArg params 0 then arg params 1 else arg params 2
  | .stuck => stuck (.rule (.flow .stuck) .unexplained)
  | .fail => stuck (.rule (.flow .fail) .failed)

end TermMachine.Rules
