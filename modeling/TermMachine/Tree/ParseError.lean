import TermMachine.Token

/-!
# Parse errors

A parse error says what is wrong, what would have been right, what stands there instead and where
that is. With a place it is shown beside an excerpt of the source.
-/

namespace TermMachine

inductive Expectation where
  | literal
  | identifier
  | term
  | symbol (s : Symbol)
  deriving DecidableEq, Repr

def Expectation.text : Expectation → String
  | literal => "literal"
  | identifier => "identifier"
  | term => "term"
  | symbol s => s.quoted

inductive ParseProblem where
  | unexpectedToken
  | unexpectedEnd
  | mixedBraces
  | trailingInput
  deriving DecidableEq, Repr

def ParseProblem.text : ParseProblem → String
  | unexpectedToken => "unexpected token"
  | unexpectedEnd => "unexpected end of input"
  | mixedBraces => "set elements mixed with map entries"
  | trailingInput => "unexpected trailing input"

structure ParseError where
  problem : ParseProblem
  expected : List Expectation
  found : Option Lexeme
  span : Option Span
  deriving DecidableEq, Repr

namespace ParseError

def summary (e : ParseError) : String :=
  let expected :=
    if e.expected.isEmpty then ""
    else ", expected " ++ " or ".intercalate (e.expected.map Expectation.text)
  let found :=
    match e.found with
    | some lexeme => ", found " ++ lexeme.describe
    | none => ""
  e.problem.text ++ expected ++ found

/-- Drop the carriage return that stands before a line feed. The last line has none after it. -/
def withoutReturns : List String → List String
  | line :: next :: rest =>
    let line := if line.endsWith "\r" then (line.dropEnd 1).toString else line
    line :: withoutReturns (next :: rest)
  | lines => lines

def sourceLines (source : String) : List String := withoutReturns (source.splitOn "\n")

def spaces (n : Nat) : String := String.ofList (List.replicate n ' ')

/-- The source around a span with a note under the column where it ends. The line before is shown
above it; both are numbered from one. -/
def excerpt (source : String) (span : Span) (note : String) : String :=
  let lines := sourceLines source
  let line := fun n => lines.getD n ""
  let first := span.start.line
  let last := span.stop.line
  let margin := spaces (toString last).length
  let previous := if first = 0 then "" else line (first - 1)
  let inner := (List.range (last - first)).map fun k => margin ++ " |" ++ line (first + 1 + k)
  "\n".intercalate <|
    [margin ++ " |",
      margin ++ " |" ++ previous ++ " ",
      toString (first + 1) ++ " |" ++ line first] ++
    inner ++
    [toString (last + 2) ++ " |" ++ spaces (span.stop.column - 1) ++ "^--- " ++ note,
      margin ++ " |"]

def message (source : String) (e : ParseError) : String :=
  match e.span with
  | some span => excerpt source span e.summary
  | none => e.summary

end ParseError

end TermMachine
