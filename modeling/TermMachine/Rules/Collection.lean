import TermMachine.Rules.Arguments
import TermMachine.Term.Finite

/-!
# Rules on sets

`some-element` chooses among the elements. `element-not-in` looks for a value of a type outside a
set, among candidates in a fixed order: false and true; zero, one, two and so on, for integers and
natural numbers alike; the letters from a to z; the atoms `@0`, `@1`, and so on. A set of `n`
elements cannot hold the first `n + 1` candidates of an endless row, so looking at those is enough.
-/

namespace TermMachine.Rules

open Term

def union : List Term → List Term → Result (List Term)
  | acc, [] => .ok acc
  | acc, t :: rest => do union (Elements.insertAll (← elements t) acc) rest

/-- The first candidate outside a set, the empty sequence if all are inside. -/
def firstOutside (excluded candidates : List Term) : Term :=
  (candidates.find? fun t => !excluded.contains t).getD .empty

def numberedAtom (n : Nat) : Term := .atom ("@" ++ toString n)

def freshAtom (excluded : List Term) : Term :=
  firstOutside excluded ((List.range (excluded.length + 1)).map numberedAtom)

def integersFromZero (count : Nat) : List Term :=
  (List.range count).map fun n => Term.int (Int.ofNat n)

def letters : List Term := "abcdefghijklmnopqrstuvwxyz".toList.map Term.char

def elementNotIn (ty : Ty) (excluded : List Term) : Result Term :=
  match ty with
  | .booleans => .ok (firstOutside excluded [.bool false, .bool true])
  | .integers | .naturalNumbers =>
    .ok (firstOutside excluded (integersFromZero (excluded.length + 1)))
  | .characters => .ok (firstOutside excluded letters)
  | .atoms => .ok (freshAtom excluded)
  | ty => .error (.cannotEnumerate ty)

/-- The rules on sets draw from the stream of choices and give it back. -/
def collection (op : Operator.Collection) (params : List Term) (choices : ChoiceStream) :
    Result (Term × ChoiceStream) :=
  match op with
  | .set => do return (.set (Elements.ofList (← sequenceArg params 0)), choices)
  | .empty => .ok (.set [], choices)
  | .isIn => do
    let t ← arg params 0
    let set ← elements (← arg params 1)
    return (.bool (set.contains t), choices)
  | .elements => do return (.spread (flatten (← elements (← arg params 0))), choices)
  | .unite => do return (.set (← union [] (← sequenceArg params 0)), choices)
  | .difference => do
    let left ← elements (← arg params 0)
    let right ← elements (← arg params 1)
    return (.set (Elements.without left right), choices)
  | .size => do return (.int (← elements (← arg params 0)).length, choices)
  | .insert => do
    let t ← arg params 0
    let set ← elements (← arg params 1)
    return (.set (Elements.insert t set), choices)
  | .someElement => do
    let set ← elements (← arg params 0)
    return (Sequence.pick (flatten set) choices).getD (.empty, choices)
  | .elementNotIn => do
    let t ← arg params 0
    let set ← elements (← arg params 1)
    let ty ← type t
    return (← elementNotIn ty set, choices)

end TermMachine.Rules
