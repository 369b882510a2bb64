import TermMachine.Term.Finite

/-!
# Counting shared values

Atoms and values of named constructors can be shared between the terms that contain them, so what
terms hold in memory is measured by the number of distinct ones among all their parts.
-/

namespace TermMachine.Term

mutual
/-- The atoms and constructed values among the parts of a term, the term itself included. -/
def shareable : Term → List Term
  | atom name => [atom name]
  | data constructor args => data constructor args :: shareableInAll args
  | map entries => shareableInEntries entries
  | set elements => shareableInAll elements
  | seq items | spread items => shareableInAll items
  | node _ params => shareableInAll params
  | _ => []

def shareableInAll : List Term → List Term
  | [] => []
  | t :: rest => t.shareable ++ shareableInAll rest

def shareableInEntries : List (Term × List Term) → List Term
  | [] => []
  | (key, value) :: rest => key.shareable ++ shareableInAll value ++ shareableInEntries rest
end

/-- The number of distinct atoms and constructed values that terms hold. -/
def sharedCount (held : List Term) : Nat :=
  (Elements.ofList (shareableInAll held)).length

end TermMachine.Term
