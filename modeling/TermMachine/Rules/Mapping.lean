import TermMachine.Rules.Arguments
import TermMachine.Term.Finite

/-!
# Rules on maps

A map is built from tuples whose first part is the key. Two tuples with one key, and a union of maps
whose domains overlap, have no value: the result is the empty sequence, as soon as the second
occurrence is met. Overriding lets the earlier map win.
-/

namespace TermMachine.Rules

open Term

/-- The parts of a nonempty tuple: a key and the rest. -/
def keyTuple? (t : Term) : Option (Term × List Term) :=
  match t.dataArgs? tupleName with
  | some (key :: rest) => some (key, rest)
  | _ => none

/-- Add the entry of each tuple, or nothing if a key occurs twice. -/
def addTuples : Entries → List Term → Result (Option Entries)
  | acc, [] => .ok (some acc)
  | acc, t :: rest => do
    let (key, value) ← expect .keyTuple keyTuple? t
    match acc.putNew? key value with
    | some acc => addTuples acc rest
    | none => .ok none

def addEntries? (acc : Entries) (more : Entries) : Option Entries :=
  more.foldlM (fun acc e => acc.putNew? e.1 e.2) acc

def unite : Entries → List Term → Result (Option Entries)
  | acc, [] => .ok (some acc)
  | acc, t :: rest => do
    match addEntries? acc (← entries t) with
    | some acc => unite acc rest
    | none => .ok none

/-- Join maps, the entry of an earlier one counting. -/
def override : Entries → List Term → Result Entries
  | acc, [] => .ok acc
  | acc, t :: rest => do
    let more ← entries t
    override (more.foldl (fun acc e => acc.keepOrPut e.1 e.2) acc) rest

def mapOrEmpty : Option Entries → Term
  | some entries => .map entries
  | none => .empty

def mapping (op : Operator.Mapping) (params : List Term) : Result Term :=
  match op with
  | .map => do return mapOrEmpty (← addTuples [] (← sequenceArg params 0))
  | .empty => .ok (.map [])
  | .lookup => do
    let entries ← entries (← arg params 0)
    let key ← arg params 1
    return ((Entries.get? key entries).map Term.ofSequence).getD .empty
  | .override => do return .map (← override [] (← sequenceArg params 0))
  | .unite => do return mapOrEmpty (← unite [] (← sequenceArg params 0))
  | .domain => do return .set (Entries.keys (← entries (← arg params 0)))
  | .elements => do
    let entries ← entries (← arg params 0)
    return .spread (entries.map fun e => .data tupleName (flatten (e.1 :: e.2)))
  | .delete => do
    let entries ← entries (← arg params 0)
    let keys ← expect .keySet Term.asSet? (← arg params 1)
    return .map (Entries.without entries keys)

end TermMachine.Rules
