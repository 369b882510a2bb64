import TermMachine.Construction
import TermMachine.Text.Escape

/-!
# Literals

The terms that literals denote. An integer must fit in 64 bits, a character literal must denote
exactly one character, and every string literal is fine.
-/

namespace TermMachine

namespace Literal

/-- The number that a nonempty row of decimal digits writes. -/
def natural? (digits : List Char) : Option Nat :=
  if !digits.isEmpty && digits.all Char.isDigit then some (Nat.ofDigitChars 10 digits 0) else none

/-- The integer that a text writes, a sign being optional. -/
def integerValue? : List Char → Option Int
  | '-' :: digits => (natural? digits).map fun n => -(n : Int)
  | '+' :: digits => (natural? digits).map fun n => (n : Int)
  | digits => (natural? digits).map fun n => (n : Int)

def integer (text : List Char) : Except ConstructionError Term :=
  match (integerValue? text).filter fitsInt64 with
  | some n => .ok (.int n)
  | none => .error (.invalidLiteral (String.ofList text))

def character (text : List Char) : Except ConstructionError Term :=
  match Text.unescape text with
  | [c] => .ok (.char c)
  | _ => .error (.invalidLiteral (String.ofList ('\'' :: text ++ ['\''])))

def string (text : List Char) : Term := Term.string (Text.unescape text)

end Literal

end TermMachine
