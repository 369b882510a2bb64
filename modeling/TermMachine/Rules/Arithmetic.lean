import TermMachine.Rules.Arguments

/-!
# Rules on integers

Integers have 64 bits. An operator whose exact result does not fit is stuck, and a sum or product
is stuck as soon as a partial result does not fit. A power is computed by repeated squaring.
Division and remainder round toward zero; by zero they have no value, which is the empty sequence.
-/

namespace TermMachine.Rules

def fitting (n : Int) : Result Int :=
  if fitsInt64 n then .ok n else .error .integerOverflow

/-- Combine operands from the left, checking every partial result. -/
def accumulate (f : Int → Int → Int) : Int → List Term → Result Int
  | total, [] => .ok total
  | total, t :: rest => do
    let n ← integer t
    let total ← fitting (f total n)
    accumulate f total rest

def integerPair (params : List Term) : Result (Int × Int) := do
  let a ← integerArg params 0
  let b ← integerArg params 1
  return (a, b)

/-- The product of `acc` and a power, by repeated squaring. Every product is checked. The base is
not squared once more for the last bit of the exponent: that square may not fit though the power
does. -/
def powerTimes (acc base : Int) (exponent : Nat) : Result Int :=
  if exponent = 0 then .ok acc
  else if exponent = 1 then fitting (acc * base)
  else do
    let acc ← if exponent % 2 = 1 then fitting (acc * base) else .ok acc
    let base ← fitting (base * base)
    powerTimes acc base (exponent / 2)
termination_by exponent

def power (base : Int) (exponent : Nat) : Result Int := powerTimes 1 base exponent

def maxExponent : Int := 0xFFFFFFFF

def natural (params : List Term) : Result Int := do
  let n ← integerArg params 0
  if 0 ≤ n then .ok n else .error (.notNatural n)

def comparison (holds : Int → Int → Bool) (params : List Term) : Result Term := do
  let (a, b) ← integerPair params
  return .bool (holds a b)

def arithmetic (op : Operator.Arithmetic) (params : List Term) : Result Term :=
  match op with
  | .add => do return .int (← accumulate (· + ·) 0 (← sequenceArg params 0))
  | .multiply => do return .int (← accumulate (· * ·) 1 (← sequenceArg params 0))
  | .subtract => do
    let (a, b) ← integerPair params
    return .int (← fitting (a - b))
  | .divide => do
    let (a, b) ← integerPair params
    if b = 0 then return .empty
    return .int (← fitting (a.tdiv b))
  | .modulo => do
    let (a, b) ← integerPair params
    if b = 0 then return .empty
    let _ ← fitting (a.tdiv b)
    return .int (a.tmod b)
  | .power => do
    let (base, exponent) ← integerPair params
    if exponent < 0 || maxExponent < exponent then .error (.negativeExponent exponent)
    else return .int (← power base exponent.toNat)
  | .absoluteValue => do return .int (← fitting (← integerArg params 0).natAbs)
  | .negate => do return .int (← fitting (-(← integerArg params 0)))
  | .isLess => comparison (fun a b => a < b) params
  | .isGreater => comparison (fun a b => b < a) params
  | .isLessOrEqual => comparison (fun a b => a ≤ b) params
  | .isGreaterOrEqual => comparison (fun a b => b ≤ a) params
  | .successor => do return .int (← fitting ((← natural params) + 1))
  | .predecessor => do
    let n ← natural params
    return if n = 0 then .empty else .int (n - 1)

end TermMachine.Rules
