/-!
# Tokens

The pieces of source text that the grammar is about. A token is a lexeme together with the span
of the source that it covers. Lines and columns count from zero, and columns count the bytes of
the text in UTF-8.
-/

namespace TermMachine

structure Pos where
  line : Nat
  column : Nat
  deriving DecidableEq, Repr

structure Span where
  start : Pos
  stop : Pos
  deriving DecidableEq, Repr

def Span.to (first last : Span) : Span := ⟨first.start, last.stop⟩

inductive Symbol where
  | mapsTo | bar | ampersand | tilde | comma
  | openParen | closeParen | openBracket | closeBracket | openBrace | closeBrace
  deriving DecidableEq, Repr

namespace Symbol

def chars : Symbol → List Char
  | mapsTo => ['|', '-', '>']
  | bar => ['|']
  | ampersand => ['&']
  | tilde => ['~']
  | comma => [',']
  | openParen => ['(']
  | closeParen => [')']
  | openBracket => ['[']
  | closeBracket => [']']
  | openBrace => ['{']
  | closeBrace => ['}']

def quoted (s : Symbol) : String := String.ofList ('\'' :: s.chars ++ ['\''])

end Symbol

/-- A lexeme. All but the symbols carry their raw text, quotes and escapes included. -/
inductive Lexeme where
  | identifier (text : String)
  | integer (text : String)
  | string (text : String)
  | character (text : String)
  | symbol (s : Symbol)
  deriving DecidableEq, Repr

namespace Lexeme

def chars : Lexeme → List Char
  | identifier text | integer text | string text | character text => text.toList
  | symbol s => s.chars

def describe : Lexeme → String
  | identifier text => "identifier '" ++ text ++ "'"
  | integer text => "integer '" ++ text ++ "'"
  | string text => "string " ++ text
  | character text => "character " ++ text
  | symbol s => s.quoted

end Lexeme

structure Token where
  lexeme : Lexeme
  span : Span
  deriving DecidableEq, Repr

end TermMachine
