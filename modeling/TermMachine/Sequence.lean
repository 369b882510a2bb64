import TermMachine.ChoiceStream
import TermMachine.Term

/-!
# Operations on sequences

A sequence is a list of terms without sequences among them. Reading past its end yields the empty
sequence. The operations that put terms into a sequence splice the sequences among them, so that
the result is flat again; the others only select.
-/

namespace TermMachine

structure SliceError where
  start : Nat
  endOffset : Nat
  length : Nat
  deriving DecidableEq, Repr

def SliceError.message (e : SliceError) : String :=
  let length := toString e.length
  "cannot slice [" ++ toString e.start ++ ", " ++ length ++ " - " ++ toString e.endOffset
    ++ ") from a sequence of length " ++ length

namespace Sequence

open Term

def get (items : List Term) (index : Nat) : Term := items.getD index Term.empty

theorem get_of_getElem? {items : List Term} {index : Nat} {t : Term} (h : items[index]? = some t) :
    get items index = t := by
  simp [get, List.getD_eq_getElem?_getD, h]

def head (items : List Term) : Term := get items 0

/-- The elements from `start` up to `endOffset` places before the end. Bounds are not clamped. -/
def slice (items : List Term) (start endOffset : Nat) : Except SliceError (List Term) :=
  if start + endOffset ≤ items.length then
    .ok ((items.take (items.length - endOffset)).drop start)
  else .error ⟨start, endOffset, items.length⟩

/-- The first element and the rest; an empty sequence yields null. -/
def popFirst : List Term → Term × List Term
  | [] => (.null, [])
  | t :: rest => (t, rest)

/-- Put `t` in place of the element at a position, splicing it if it is a sequence. -/
def replace (items : List Term) (index : Nat) (t : Term) : List Term :=
  flatten (items.set index t)

/-- Choose an element. An empty sequence offers none, and nothing is drawn. -/
def pick (items : List Term) (choices : ChoiceStream) : Option (Term × ChoiceStream) :=
  if items.isEmpty then none
  else
    let (index, choices) := choices.nextIndex items.length
    some (get items index, choices)

end Sequence

end TermMachine
