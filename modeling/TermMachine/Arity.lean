/-!
# Argument counts

How many arguments a named construct takes, and the mismatch reported when the count is wrong.
-/

namespace TermMachine

inductive Arity where
  | exactly (count : Nat)
  | atLeast (count : Nat)
  deriving DecidableEq, Repr

namespace Arity

def admits : Arity → Nat → Bool
  | exactly n, found => found == n
  | atLeast n, found => n ≤ found

def text : Arity → String
  | exactly n => "exactly " ++ toString n
  | atLeast n => "at least " ++ toString n

end Arity

/-- A construct was given a number of arguments that it does not admit. -/
structure ArityMismatch where
  operator : String
  expected : Arity
  found : Nat
  deriving DecidableEq, Repr

end TermMachine
