import TermMachine.Construction

/-!
# Stuck terms

No rule applies to a term. The reason is kept as data: what a rule missed, or, where a rule was
never reached because a part of the term is stuck itself, the last such part. The wording is
`Reason.text?` and `Stuck.message`.
-/

namespace TermMachine

inductive Expected where
  | sequence
  | integer
  | boolean
  | type
  | set
  | keySet
  | map
  /-- A value of the constructor `name`. -/
  | data (name : String)
  | keyTuple
  | constructorName
  deriving DecidableEq, Repr

def Expected.text : Expected → String
  | sequence => "a sequence"
  | integer => "an integer"
  | boolean => "a boolean"
  | type => "a type"
  | set => "a set"
  | keySet => "a set of keys"
  | map => "a map"
  | data name => "a " ++ name
  | keyTuple => "a key tuple"
  | constructorName => "a constructor name"

inductive Reason where
  /-- No reason is given: the operator is there to be stuck. -/
  | unexplained
  | failed
  | missingParameter (index : Nat)
  | unexpected (expected : Expected) (found : Term)
  | malformedVariable (found : Term)
  | integerOverflow
  | negativeExponent (exponent : Int)
  | notNatural (n : Int)
  | cannotEnumerate (ty : Ty)
  | nothingToChoose
  | statementValue (found : Term)
  | noGivenValue
  | inputExhausted
  | notOfType (value : Term) (ty : Ty)
  | notAllocated (location : Term)
  | uninitialised (location : Term)
  deriving DecidableEq

namespace Reason

def text? : Reason → Option String
  | unexplained => none
  | failed => some "failed"
  | missingParameter index => some ("missing parameter " ++ toString index)
  | unexpected expected found => some ("expected " ++ expected.text ++ ", found " ++ found.text)
  | malformedVariable found => some ("malformed variable " ++ found.text)
  | integerOverflow => some "integer overflow"
  | negativeExponent exponent => some ("negative exponent " ++ (Term.int exponent).text)
  | notNatural n => some ((Term.int n).text ++ " is not a natural number")
  | cannotEnumerate ty => some ("cannot enumerate " ++ ty.text)
  | nothingToChoose => some "nothing to choose from"
  | statementValue found =>
    some ("statement computed " ++ found.text ++ " instead of null-value")
  | noGivenValue => some "no given value"
  | inputExhausted => some "standard-in is exhausted"
  | notOfType value ty => some (value.text ++ " is not of type " ++ ty.text)
  | notAllocated location => some (location.text ++ " is not allocated")
  | uninitialised location => some (location.text ++ " is uninitialised")

end Reason

inductive Stuck where
  /-- The rule of the operator does not apply. -/
  | rule (op : Operator) (reason : Reason)
  /-- No eager parameter of the operator can be reduced, the last of them because of `cause`. -/
  | parameter (op : Operator) (cause : Stuck)
  /-- A spread in the place of one argument gave the operator a wrong number of them. -/
  | misfit (op : Operator) (mismatch : ArityMismatch)
  /-- No element of a sequence can be reduced, the last of them because of `cause`. -/
  | element (cause : Stuck)
  /-- The step left the term and every entity as they were. -/
  | noProgress (t : Term)
  deriving DecidableEq

namespace Stuck

def operator : Stuck → String
  | rule op _ | parameter op _ | misfit op _ => op.name
  | element _ => "sequence"
  | noProgress t => t.operatorName

def sentence (operator : String) : Option String → String
  | some reason => operator ++ " is stuck: " ++ reason
  | none => operator ++ " is stuck"

def reason? : Stuck → Option String
  | rule _ reason => reason.text?
  | parameter _ cause =>
    some ("no eager parameter can be reduced (" ++ sentence cause.operator cause.reason? ++ ")")
  | misfit _ mismatch =>
    some ("spliced arguments do not fit (" ++ (ConstructionError.arity mismatch).message ++ ")")
  | element cause =>
    some ("no element can be reduced (" ++ sentence cause.operator cause.reason? ++ ")")
  | noProgress _ => some "no progress"

def message (s : Stuck) : String := sentence s.operator s.reason?

end Stuck

end TermMachine
