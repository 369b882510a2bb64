import TermMachine.Arity
import TermMachine.Ty

/-!
# Type constructors

The names that build types. A constructor fixes how many types it takes; `build` applies it to
types or reports the mismatch.

Proved: `mem_all`, that the catalog leaves no constructor out.
-/

namespace TermMachine

inductive TyConstructor where
  | values | valueTypes | groundValues | emptyType | nullType | booleans | integers
  | naturalNumbers | characters | strings | atoms | datatypeValues
  | maps | sets | lists | vectors | tuples | union | intersection | complement
  deriving DecidableEq, Repr

namespace TyConstructor

def all : List TyConstructor :=
  [values, valueTypes, groundValues, emptyType, nullType, booleans, integers, naturalNumbers,
    characters, strings, atoms, datatypeValues, maps, sets, lists, vectors, tuples, union,
    intersection, complement]

def name : TyConstructor → String
  | values => "values"
  | valueTypes => "value-types"
  | groundValues => "ground-values"
  | emptyType => "empty-type"
  | nullType => "null-type"
  | booleans => "booleans"
  | integers => "integers"
  | naturalNumbers => "natural-numbers"
  | characters => "characters"
  | strings => "strings"
  | atoms => "atoms"
  | datatypeValues => "datatype-values"
  | maps => "maps"
  | sets => "sets"
  | lists => "lists"
  | vectors => "vectors"
  | tuples => "tuples"
  | union => "union-type"
  | intersection => "intersection-type"
  | complement => "complement-type"

def arity : TyConstructor → Arity
  | maps => .exactly 2
  | sets | lists | vectors | complement => .exactly 1
  | tuples => .atLeast 0
  | union | intersection => .atLeast 1
  | _ => .exactly 0

def build? : TyConstructor → List Ty → Option Ty
  | values, [] => some .values
  | valueTypes, [] => some .valueTypes
  | groundValues, [] => some .groundValues
  | emptyType, [] => some .empty
  | nullType, [] => some .null
  | booleans, [] => some .booleans
  | integers, [] => some .integers
  | naturalNumbers, [] => some .naturalNumbers
  | characters, [] => some .characters
  | strings, [] => some .strings
  | atoms, [] => some .atoms
  | datatypeValues, [] => some .datatypeValues
  | maps, [key, value] => some (.maps key value)
  | sets, [element] => some (.sets element)
  | lists, [element] => some (.lists element)
  | vectors, [element] => some (.vectors element)
  | tuples, elements => some (.tuples elements)
  | union, first :: rest => some (.union (first :: rest))
  | intersection, first :: rest => some (.intersection (first :: rest))
  | complement, [inner] => some (.complement inner)
  | _, _ => none

def build (c : TyConstructor) (args : List Ty) : Except ArityMismatch Ty :=
  match c.build? args with
  | some ty => .ok ty
  | none => .error ⟨c.name, c.arity, args.length⟩

theorem mem_all (c : TyConstructor) : c ∈ all := by
  cases c <;> decide

end TyConstructor

end TermMachine
