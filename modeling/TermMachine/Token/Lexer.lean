import TermMachine.Token

/-!
# Splitting source into tokens

Blanks between tokens are skipped; only a line feed among them starts a new line. At any other
character the longest lexeme is taken:

* an identifier is an ASCII letter followed by letters, digits and hyphens;
* an integer is a row of decimal digits, perhaps after a hyphen;
* a string stands between double quotes, and a character between single quotes. A backslash takes
  the character after it along, which may be anything but a line feed;
* the symbols, of which only `|` begins a longer one, `|->`.

No two of these begin with the same character, the last two apart, so the first character decides
which lexeme is the longest. Where there is none, lexing fails and reports the rest of the source.

The scanner stands for the lexer that is generated from the patterns of the tokens, which takes the
longest match of any of them. What ties it to these patterns is `Lexeme.scan?_eq_some_iff`: it finds
exactly the longest lexeme with which a text begins.
-/

namespace TermMachine

namespace Lexeme

def isAsciiLetter (c : Char) : Bool := ('a' ≤ c && c ≤ 'z') || ('A' ≤ c && c ≤ 'Z')

def isIdentifierChar (c : Char) : Bool := isAsciiLetter c || c.isDigit || c = '-'

/-- The text of a string literal up to and with its closing quote, from what follows the opening
one. -/
def stringBody? : List Char → Option (List Char × List Char)
  | [] => none
  | '"' :: rest => some (['"'], rest)
  | ['\\'] => none
  | '\\' :: c :: rest =>
    if c = '\n' then none
    else (stringBody? rest).map fun (body, rest) => ('\\' :: c :: body, rest)
  | c :: rest => (stringBody? rest).map fun (body, rest) => (c :: body, rest)

def characterBody? : List Char → Option (List Char × List Char)
  | '\\' :: c :: '\'' :: rest => if c = '\n' then none else some (['\\', c, '\''], rest)
  | c :: '\'' :: rest => if c = '\'' || c = '\\' then none else some ([c, '\''], rest)
  | _ => none

def scanSymbol? : List Char → Option (Symbol × List Char)
  | '|' :: '-' :: '>' :: rest => some (.mapsTo, rest)
  | '|' :: rest => some (.bar, rest)
  | '&' :: rest => some (.ampersand, rest)
  | '~' :: rest => some (.tilde, rest)
  | ',' :: rest => some (.comma, rest)
  | '(' :: rest => some (.openParen, rest)
  | ')' :: rest => some (.closeParen, rest)
  | '[' :: rest => some (.openBracket, rest)
  | ']' :: rest => some (.closeBracket, rest)
  | '{' :: rest => some (.openBrace, rest)
  | '}' :: rest => some (.closeBrace, rest)
  | _ => none

/-- The longest lexeme at the start of a text, and what follows it. -/
def scan? : List Char → Option (Lexeme × List Char)
  | [] => none
  | c :: rest =>
    if isAsciiLetter c then
      some (.identifier (String.ofList (c :: rest.takeWhile isIdentifierChar)),
        rest.dropWhile isIdentifierChar)
    else if c.isDigit then
      some (.integer (String.ofList (c :: rest.takeWhile Char.isDigit)),
        rest.dropWhile Char.isDigit)
    else if c = '-' then
      if rest.head?.any Char.isDigit then
        some (.integer (String.ofList (c :: rest.takeWhile Char.isDigit)),
          rest.dropWhile Char.isDigit)
      else none
    else if c = '"' then
      (stringBody? rest).map fun (body, rest) => (.string (String.ofList (c :: body)), rest)
    else if c = '\'' then
      (characterBody? rest).map fun (body, rest) => (.character (String.ofList (c :: body)), rest)
    else (scanSymbol? (c :: rest)).map fun (s, rest) => (.symbol s, rest)

end Lexeme

namespace Token

def isBlank (c : Char) : Bool :=
  c = ' ' || c = '\t' || c = '\n' || c = '\x0c' || c = '\r'

/-- How far lexing has come: the place, and the number of bytes before it. -/
structure Progress where
  pos : Pos
  offset : Nat
  deriving DecidableEq, Repr

namespace Progress

def start : Progress := ⟨⟨0, 0⟩, 0⟩

/-- Past one blank, which is one byte long. -/
def pastBlank (p : Progress) (c : Char) : Progress :=
  if c = '\n' then ⟨⟨p.pos.line + 1, 0⟩, p.offset + 1⟩
  else ⟨⟨p.pos.line, p.pos.column + 1⟩, p.offset + 1⟩

/-- Past a lexeme. Nothing inside it starts a new line. -/
def pastLexeme (p : Progress) (text : List Char) : Progress :=
  let bytes := text.foldl (fun n c => n + c.utf8Size) 0
  ⟨⟨p.pos.line, p.pos.column + bytes⟩, p.offset + bytes⟩

end Progress

structure LexError where
  offset : Nat
  remaining : List Char
  deriving DecidableEq, Repr

def LexError.message (source : String) (e : LexError) : String :=
  "Failed to lex '" ++ source ++ "' at position " ++ toString e.offset ++ "; remaining '"
    ++ String.ofList e.remaining ++ "'"

/-- The tokens of a text. Every token takes at least one character, so as many rounds as there
are characters are enough. -/
def lexFrom : Nat → Progress → List Char → Except LexError (List Token)
  | rounds, p, text =>
    let p := (text.takeWhile isBlank).foldl Progress.pastBlank p
    match text.dropWhile isBlank, rounds with
    | [], _ => .ok []
    | rest, 0 => .error ⟨p.offset, rest⟩
    | rest, rounds + 1 =>
      match Lexeme.scan? rest with
      | none => .error ⟨p.offset, rest⟩
      | some (lexeme, after) =>
        let q := p.pastLexeme lexeme.chars
        (lexFrom rounds q after).map (⟨lexeme, ⟨p.pos, q.pos⟩⟩ :: ·)

def lex (source : String) : Except LexError (List Token) :=
  lexFrom source.toList.length .start source.toList

end Token

end TermMachine
