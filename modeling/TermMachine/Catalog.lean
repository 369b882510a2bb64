import TermMachine.Operator
import TermMachine.Term
import TermMachine.Ty.Constructor

/-!
# The catalog of names

A name in a program refers to an operator, to a value or to a type constructor. Some names have a
shorter spelling, an alias. Apart from its aliases the catalog gives no name two meanings.
-/

namespace TermMachine

inductive ValueName where
  | true | false | null | signal
  deriving DecidableEq, Repr

namespace ValueName

def all : List ValueName := [.true, .false, .null, .signal]

def name : ValueName → String
  | .true => "true"
  | .false => "false"
  | .null => "null-value"
  | .signal => "signal"

def term : ValueName → Term
  | .true => .bool Bool.true
  | .false => .bool Bool.false
  | .null => .null
  | .signal => Term.signal

end ValueName

namespace Catalog

inductive Entry where
  | operator (op : Operator)
  | value (v : ValueName)
  | type (c : TyConstructor)
  deriving DecidableEq, Repr

/-- The aliases and the canonical names that they stand for. -/
def aliases : List (String × String) :=
  [("null", "null-value"),
    ("int-add", "integer-add"),
    ("int-sub", "integer-subtract"),
    ("int-mul", "integer-multiply"),
    ("int-div", "integer-divide"),
    ("int-mod", "integer-modulo"),
    ("int-pow", "integer-power"),
    ("int-abs", "integer-absolute-value"),
    ("int-neg", "integer-negate"),
    ("is-less", "integer-is-less"),
    ("is-greater", "integer-is-greater"),
    ("is-less-or-equal", "integer-is-less-or-equal"),
    ("is-greater-or-equal", "integer-is-greater-or-equal"),
    ("nat-succ", "natural-successor"),
    ("nat-pred", "natural-predecessor"),
    ("l-to-r", "left-to-right"),
    ("r-to-l", "right-to-left"),
    ("is-eq", "is-equal"),
    ("dom", "map-domain"),
    ("union", "union-type"),
    ("intersection", "intersection-type"),
    ("complement", "complement-type")]

def canonical (name : String) : String := (aliases.lookup name).getD name

def operator? (name : String) : Option Operator := Operator.all.find? (·.name == name)

def find? (name : String) : Option Entry :=
  match operator? name with
  | some op => some (.operator op)
  | none =>
    match ValueName.all.find? (·.name == name) with
    | some v => some (.value v)
    | none => (TyConstructor.all.find? (·.name == name)).map .type

/-- What a name or an alias refers to. -/
def lookup (name : String) : Option Entry := find? (canonical name)

end Catalog

end TermMachine
