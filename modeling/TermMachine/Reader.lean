import TermMachine.Token.Lexer
import TermMachine.Tree.Parser

/-!
# Reading terms

From source text to a term: tokens, a syntax tree, and the term that the tree denotes. The first
stage that fails gives the error.
-/

namespace TermMachine

inductive ReadError where
  | lex (err : Token.LexError)
  | parse (err : ParseError)
  | construction (err : ConstructionError)
  deriving DecidableEq

def ReadError.message (source : String) : ReadError → String
  | lex err => "lexing failed: " ++ err.message source
  | parse err => "parsing failed: " ++ err.message source
  | construction err => err.message

def readTerm (source : String) : Except ReadError Term :=
  match Token.lex source with
  | .error err => .error (.lex err)
  | .ok tokens =>
    match Tree.parse tokens with
    | .error err => .error (.parse err)
    | .ok tree =>
      match tree.build with
      | .error err => .error (.construction err)
      | .ok t => .ok t

end TermMachine
