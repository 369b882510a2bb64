import TermMachine.Operator
import TermMachine.Ty

/-!
# Terms

Every program state is a term. A term is a value (null, a boolean, an integer, a character, an
atom, a value of a named constructor, a finite map, a finite set, a type), a sequence of terms, or
an operator applied to its parameters.

* A string is a list of characters: the value of the constructor `list` over them.
* A `spread` is a sequence that asks to be spliced into whatever holds it; operators that take a
  collection apart produce one.
* Sequences do not nest. `Term.flatten` joins terms into one sequence, a sequence among them
  contributing its elements; every sequence is built through it.
* A map lists its entries by increasing key, a set its elements in increasing order; a map gives
  each key a sequence. `TermMachine.Term.Order` defines the order.

A node has one parameter for each that its operator declares, and holds a `seq` where a run of
arguments was absorbed. Nothing enforces that: rules report a node that lacks a parameter.

Proved:
* `flatten_cons` / `flatten_append`: joining terms is joining what each contributes.
* `elements_of_not_isSequence` / `flatten_of_no_sequence`: a term that is no sequence contributes itself,
  so joining terms without sequences among them changes nothing.
* `asString?_string`: the text of a string is the text that it was made of.
-/

namespace TermMachine

/-- Whether an integer fits in 64 bits, as the integers of programs do. -/
def fitsInt64 (n : Int) : Bool := -0x8000000000000000 ≤ n && n ≤ 0x7FFFFFFFFFFFFFFF

inductive Term where
  | null
  | bool (b : Bool)
  | int (n : Int)
  | char (c : Char)
  | atom (name : String)
  | data (constructor : String) (args : List Term)
  | map (entries : List (Term × List Term))
  | set (elements : List Term)
  | type (ty : Ty)
  | seq (items : List Term)
  | spread (items : List Term)
  | node (op : Operator) (params : List Term)

namespace Term

instance : Inhabited Term := ⟨null⟩

/-! ## Named constructors -/

def listName : String := "list"
def tupleName : String := "tuple"
def vectorName : String := "vector"
def variableName : String := "variable"
def signalName : String := "signal"

/-- The empty sequence, which stands for "no value". -/
def empty : Term := seq []

def string (text : List Char) : Term := data listName (text.map char)

def signal : Term := data signalName []

/-! ## Sequences -/

/-- The terms that `t` contributes to a sequence: its elements if it is one, itself otherwise. -/
def elements : Term → List Term
  | seq items | spread items => items
  | t => [t]

def flatten (terms : List Term) : List Term := terms.flatMap elements

/-- A sequence of one element stands for that element. -/
def ofSequence : List Term → Term
  | [t] => t
  | items => seq items

def isSequence : Term → Bool
  | seq _ | spread _ => true
  | _ => false

/-! ## Values -/

mutual
/-- Whether nothing is left to evaluate. What a collection holds counts as evaluated. -/
def isValue : Term → Bool
  | node _ _ => false
  | seq items | spread items => allValues items
  | _ => true

def allValues : List Term → Bool
  | [] => true
  | t :: rest => t.isValue && allValues rest
end

def isReducible (t : Term) : Bool := !t.isValue

/-! ## Views -/

def asInt? : Term → Option Int
  | int n => some n
  | _ => none

def asBool? : Term → Option Bool
  | bool b => some b
  | _ => none

def asType? : Term → Option Ty
  | type ty => some ty
  | _ => none

def asSet? : Term → Option (List Term)
  | set elements => some elements
  | _ => none

def asMap? : Term → Option (List (Term × List Term))
  | map entries => some entries
  | _ => none

def asChar? : Term → Option Char
  | char c => some c
  | _ => none

def dataArgs? (name : String) : Term → Option (List Term)
  | data constructor args => if constructor = name then some args else none
  | _ => none

def asString? (t : Term) : Option (List Char) :=
  (t.dataArgs? listName).bind (·.mapM asChar?)

def operatorName : Term → String
  | node op _ => op.name
  | seq _ | spread _ => "sequence"
  | _ => "value"

/-! ## Small laws -/

@[simp] theorem flatten_nil : flatten [] = [] := rfl

@[simp] theorem flatten_cons (t : Term) (rest : List Term) :
    flatten (t :: rest) = t.elements ++ flatten rest := rfl

@[simp] theorem flatten_append (as bs : List Term) :
    flatten (as ++ bs) = flatten as ++ flatten bs := List.flatMap_append

theorem elements_of_not_isSequence {t : Term} (h : t.isSequence = false) : t.elements = [t] := by
  cases t <;> simp_all [elements, isSequence]

theorem flatten_of_no_sequence {items : List Term} (h : ∀ t ∈ items, t.isSequence = false) :
    flatten items = items := by
  induction items with
  | nil => rfl
  | cons t rest ih =>
    have ht : t.isSequence = false := h t (by simp)
    have hrest := ih fun u hu => h u (List.mem_cons_of_mem _ hu)
    rw [flatten_cons, elements_of_not_isSequence ht, hrest, List.singleton_append]

theorem allValues_eq_all (items : List Term) : allValues items = items.all isValue := by
  induction items with
  | nil => rfl
  | cons t rest ih => simp [allValues, ih]

theorem mapM_asChar?_map (text : List Char) : (text.map char).mapM asChar? = some text := by
  induction text with
  | nil => rfl
  | cons c rest ih => simp [asChar?, ih]

@[simp] theorem asString?_string (text : List Char) : (string text).asString? = some text := by
  simp only [asString?, string, dataArgs?, if_true, Option.bind_some, mapM_asChar?_map]

end Term

end TermMachine
