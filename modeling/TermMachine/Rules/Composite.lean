import TermMachine.Rules.Arguments

/-!
# Rules on sequences, tuples, lists, vectors and constructed values

Building a value collects the arguments under a constructor name; taking one apart gives a spread
of its parts. An index counts from one. What is not there is the empty sequence: an element outside
the sequence, the head and the tail of an empty list.
-/

namespace TermMachine.Rules

open Term

def concatenation : List Term → Result (List Term)
  | [] => .ok []
  | t :: rest => do
    let args ← dataArgs listName t
    return args ++ (← concatenation rest)

def collect (name : String) (params : List Term) : Result Term := do
  return .data name (← sequenceArg params 0)

def takeApart (name : String) (params : List Term) : Result Term := do
  return .spread (← dataArgs name (← arg params 0))

def constructorName? (t : Term) : Option String :=
  match t.asString? with
  | some (c :: cs) => some (String.ofList (c :: cs))
  | _ => none

def composite (op : Operator.Composite) (params : List Term) : Result Term :=
  match op with
  | .length => do return .int (← sequenceArg params 0).length
  | .index => do
    let position ← integerArg params 0
    let items ← sequenceArg params 1
    return if 1 ≤ position then Sequence.get items (position.toNat - 1) else .empty
  | .reverse => do return .spread (← sequenceArg params 0).reverse
  | .tuple => collect tupleName params
  | .tupleElements => takeApart tupleName params
  | .list => collect listName params
  | .listElements => takeApart listName params
  | .listAppend => do return .data listName (← concatenation (← sequenceArg params 0))
  | .listHead => do return Sequence.head (← dataArgs listName (← arg params 0))
  | .listTail => do
    match ← dataArgs listName (← arg params 0) with
    | [] => return .empty
    | _ :: rest => return .data listName rest
  | .vector => collect vectorName params
  | .vectorElements => takeApart vectorName params
  | .datatypeValue => do
    let name ← expect .constructorName constructorName? (← arg params 0)
    return .data name (← sequenceArg params 1)

end TermMachine.Rules
