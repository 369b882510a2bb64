import TermMachine.Entity
import TermMachine.Machine
import TermMachine.Membership
import TermMachine.Rules.Collection

/-!
# Rules on entities

* `give` steps its body with `given-value` bound to a value, and unbinds it after the step
  whatever came of it.
* `print` adds to `standard-out`, `read` takes from `standard-in`.
* A variable is a value of the constructor `variable` over a location and a type. A location is an
  atom that was not used before; the map in `store` gives each location its contents, nothing at
  first. An assignment takes only values of the variable's type.
* `yield` raises the signal `yielded`. `atomic` goes on stepping its body within one step, until
  the body is a value or has raised that signal, which it clears.
-/

namespace TermMachine.Rules

open Term Eval

/-- Run a computation with `given-value` bound, and put back what was bound before. -/
def withGiven {α : Type} (value : Term) (x : Eval α) : Eval α := fun m =>
  let shadowed := m.entities.find? Entity.givenValue
  let unbind := fun (m' : Machine) =>
    { m' with entities := m'.entities.assign Entity.givenValue shadowed }
  match x { m with entities := m.entities.put Entity.givenValue value } with
  | .ok a m' => .ok a (unbind m')
  | .error halt m' => .error halt (unbind m')

def give (step : Term → Eval Term) (params : List Term) : Eval Term := do
  let op : Operator := .effect .give
  let value ← ofRule op (arg params 0)
  let body ← ofRule op (arg params 1)
  if body.isValue then return body
  let next ← withGiven value (step body)
  return .node op [value, next]

/-- Raise the signal that ends an atomic step. -/
def raiseYield : Eval Unit := modifyEntities (·.put Entity.yielded Term.signal)

def takeYield : Eval Bool := do
  let raised := (← entities).contains Entity.yielded
  modifyEntities (·.remove Entity.yielded)
  return raised

/-- Step the body until it is a value or yields, within a number of rounds. -/
def atomicWithin (advance : Term → Eval Term) : Nat → Term → Eval Term
  | rounds, body =>
    if body.isValue then pure body
    else
      match rounds with
      | 0 => throw .outOfFuel
      | rounds + 1 => do
        let next ← advance body
        if ← takeYield then
          return if next.isValue then next else .node (.effect .atomic) [next]
        atomicWithin advance rounds next

def usedAtoms (s : Entities) : List Term := (s.get Entity.usedAtoms).asSet?.getD []

def storeMap (s : Entities) : Entries := (s.get Entity.store).asMap?.getD []

/-- An atom neither excluded nor in use, which is in use from now on. -/
def useAtom (excluded : List Term) : Eval Term := do
  let used := usedAtoms (← entities)
  let atom := freshAtom (excluded ++ used)
  modifyEntities (·.put Entity.usedAtoms (.set (Elements.insert atom used)))
  return atom

def variableParts (t : Term) : Result (Term × Ty) := do
  match ← dataArgs variableName t with
  | [location, .type ty] => .ok (location, ty)
  | _ => .error (.malformedVariable t)

def allocate (params : List Term) : Eval Term := do
  let ty ← ofRule (.effect .allocateVariable) (do type (← arg params 0))
  let location ← useAtom []
  modifyEntities fun s => s.put Entity.store (.map ((storeMap s).put location []))
  return .data variableName (flatten [location, .type ty])

def assignment (params : List Term) (store : Entries) : Result Entries := do
  let (location, ty) ← variableParts (← arg params 0)
  let value ← arg params 1
  if !ty.belongs value then .error (.notOfType value ty)
  else
    match store.get? location with
    | none => .error (.notAllocated location)
    | some _ => .ok (store.put location (flatten [value]))

def contents (params : List Term) (store : Entries) : Result Term := do
  let (location, _) ← variableParts (← arg params 0)
  match store.get? location with
  | none => .error (.notAllocated location)
  | some [] => .error (.uninitialised location)
  | some items => .ok (ofSequence items)

def effect (step advance : Term → Eval Term) (rounds : Nat) (op : Operator.Effect)
    (params : List Term) : Eval Term :=
  match op with
  | .atomic => do atomicWithin advance rounds (← ofRule (.effect .atomic) (arg params 0))
  | .yield => do
    raiseYield
    return .null
  | .yieldOnValue => do
    let value ← ofRule (.effect .yieldOnValue) (arg params 0)
    raiseYield
    return value
  | .give => give step params
  | .given => do
    match (← entities).find? Entity.givenValue with
    | some value => return value
    | none => stuck (.rule (.effect .given) .noGivenValue)
  | .print => do
    let values ← ofRule (.effect .print) (sequenceArg params 0)
    modifyEntities (·.append Entity.standardOut (.seq values))
    return .null
  | .read => do
    match (← entities).popFirst Entity.standardIn with
    | some (value, rest) => do
      modifyEntities fun _ => rest
      return value
    | none => stuck (.rule (.effect .read) .inputExhausted)
  | .useAtomNotIn => do
    useAtom (← ofRule (.effect .useAtomNotIn) (do elements (← arg params 0)))
  | .allocateVariable => allocate params
  | .assign => do
    let store ← ofRule (.effect .assign) (assignment params (storeMap (← entities)))
    modifyEntities (·.put Entity.store (.map store))
    return .null
  | .assigned => do
    ofRule (.effect .assigned) (contents params (storeMap (← entities)))

end TermMachine.Rules
