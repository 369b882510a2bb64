import TermMachine.Membership
import TermMachine.Rules.Arguments
import TermMachine.Term.Order

/-!
# Rules on booleans, equality and types

Conjunction and disjunction look at their operands from left to right and stop where the result is
known, so an operand after that point need not be a boolean.
-/

namespace TermMachine.Rules

def conjunction : List Term → Result Bool
  | [] => .ok true
  | t :: rest => do if ← boolean t then conjunction rest else .ok false

def disjunction : List Term → Result Bool
  | [] => .ok false
  | t :: rest => do if ← boolean t then .ok true else disjunction rest

def logic (op : Operator.Logic) (params : List Term) : Result Term :=
  match op with
  | .not => do return .bool !(← booleanArg params 0)
  | .and => do return .bool (← conjunction (← sequenceArg params 0))
  | .or => do return .bool (← disjunction (← sequenceArg params 0))
  | .implies => do
    let p ← booleanArg params 0
    let q ← booleanArg params 1
    return .bool (!p || q)
  | .exclusiveOr => do
    let p ← booleanArg params 0
    let q ← booleanArg params 1
    return .bool (p != q)
  | .isEqual => do
    let s ← arg params 0
    let t ← arg params 1
    return .bool (s = t)
  | .isInType => do
    let t ← arg params 0
    let ty ← type (← arg params 1)
    return .bool (ty.belongs t)

end TermMachine.Rules
