import TermMachine.Text.Printable

/-!
# Escapes in literals

A character or string literal writes some characters with a backslash. Reading (`unescape`) knows
`\n`, `\t`, `\r` and `\0`; a backslash before any other character gives that character, and one at
the very end stands for itself. Writing comes in two forms:

* `quoteChar` keeps printable ASCII only and spells every other character by its code point;
* `quoteString` keeps every character that `isPlain` admits, whatever its script.

The two differ also in the quotes: a character literal escapes both kinds of quote, a string
literal only its own.
-/

namespace TermMachine.Text

def escapeMeaning (c : Char) : Char :=
  match c with
  | 'n' => '\n'
  | 't' => '\t'
  | 'r' => '\r'
  | '0' => '\x00'
  | other => other

def unescape : List Char → List Char
  | [] => []
  | ['\\'] => ['\\']
  | '\\' :: c :: rest => escapeMeaning c :: unescape rest
  | c :: rest => c :: unescape rest

/-- The spelling of a character by its code point, in lower-case hexadecimal without padding. -/
def codePointEscape (c : Char) : List Char :=
  ['\\', 'u', '\x7b'] ++ Nat.toDigits 16 c.toNat ++ ['\x7d']

/-- The letter that stands after the backslash for the characters that both forms of literal
write with a short escape. -/
def shortEscape? (c : Char) : Option Char :=
  match c with
  | '\t' => some 't'
  | '\r' => some 'r'
  | '\n' => some 'n'
  | '"' => some '"'
  | '\\' => some '\\'
  | _ => none

def escapeInChar (c : Char) : List Char :=
  match shortEscape? c with
  | some letter => ['\\', letter]
  | none =>
    if c = '\'' then ['\\', '\'']
    else if isPrintableAscii c then [c]
    else codePointEscape c

def escapeInString (c : Char) : List Char :=
  match shortEscape? c with
  | some letter => ['\\', letter]
  | none =>
    if c = '\x00' then ['\\', '0']
    else if isPlain c then [c]
    else codePointEscape c

def quoteChar (c : Char) : List Char := '\'' :: escapeInChar c ++ ['\'']

def quoteString (text : List Char) : List Char := '"' :: text.flatMap escapeInString ++ ['"']

end TermMachine.Text
