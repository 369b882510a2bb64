import TermMachine.Tree
import TermMachine.Tree.ParseError

/-!
# The grammar of terms

    term         := intersection ("|" intersection)*
    intersection := unary ("&" unary)*
    unary        := "~" unary | primary
    primary      := literal | call | group | list | braces
    call         := identifier ["(" args ")"]
    group        := "(" args ")"
    list         := "[" args "]"
    braces       := "{" [entry ("," entry)*] "}"
    entry        := term ["|->" term]
    args         := [term ("," term)*]

The entries of a brace group are all maplets, which makes a map, or all plain terms, which makes a
set.

A parser reads from a cursor and may fail; alternatives and options go back to where they started.
The cursor also keeps the error that was met furthest into the input: of two errors at one place
the first is kept, with the expectations of both. When the whole input cannot be parsed, that
error is the one reported.

Every nested term stands behind at least one token, so the number of tokens bounds the depth of
nesting; that is the fuel of `termWithin`.
-/

namespace TermMachine

/-- The tokens still to read, and the error met furthest into the input, with the number of tokens
that were left there. -/
structure Cursor where
  rest : List Token
  furthest : Option (Nat × ParseError)

namespace Cursor

def mergeExpected (known new : List Expectation) : List Expectation :=
  new.foldl (fun acc e => if acc.contains e then acc else acc ++ [e]) known

def record (c : Cursor) (err : ParseError) : Cursor :=
  let left := c.rest.length
  match c.furthest with
  | none => { c with furthest := some (left, err) }
  | some (place, known) =>
    if place < left then c
    else if place = left then
      let expected := mergeExpected known.expected err.expected
      { c with furthest := some (place, { known with expected }) }
    else { c with furthest := some (left, err) }

end Cursor

/-- A parser. A failure keeps the cursor where it arose. -/
abbrev Parser := EStateM ParseError Cursor

namespace Parser

variable {α : Type}

def fail (err : ParseError) : Parser α := fun c => .error err (c.record err)

def orElse (p q : Parser α) : Parser α := fun c =>
  match p c with
  | .ok a c' => .ok a c'
  | .error _ c' => q { c' with rest := c.rest }

def optional (p : Parser α) : Parser (Option α) := fun c =>
  match p c with
  | .ok a c' => .ok (some a) c'
  | .error _ c' => .ok none { c' with rest := c.rest }

def manyWithin (p : Parser α) : Nat → Parser (List α)
  | 0 => pure []
  | rounds + 1 => do
    match ← optional p with
    | none => pure []
    | some a => do
      let rest ← manyWithin p rounds
      pure (a :: rest)

/-- A parser, which must not succeed without reading, as often as it succeeds. -/
def many (p : Parser α) : Parser (List α) := fun c => manyWithin p (c.rest.length + 1) c

def label (e : Expectation) (p : Parser α) : Parser α := fun c =>
  match p c with
  | .ok a c' => .ok a c'
  | .error err c' => fail { err with expected := [e] } c'

def mismatch (e : Expectation) : List Token → ParseError
  | token :: _ => ⟨.unexpectedToken, [e], some token.lexeme, some token.span⟩
  | [] => ⟨.unexpectedEnd, [e], none, none⟩

def symbol (s : Symbol) : Parser Span := fun c =>
  match c.rest with
  | ⟨.symbol s', span⟩ :: rest =>
    if s' = s then .ok span { c with rest } else fail (mismatch (.symbol s) c.rest) c
  | _ => fail (mismatch (.symbol s) c.rest) c

/-- Read an integer, a string or a character. Also the end of the input counts as an unexpected
token here. -/
def literal : Parser Tree := fun c =>
  match c.rest with
  | ⟨.integer text, span⟩ :: rest => .ok (.integer text span) { c with rest }
  | ⟨.string text, span⟩ :: rest => .ok (.string text span) { c with rest }
  | ⟨.character text, span⟩ :: rest => .ok (.character text span) { c with rest }
  | tokens => fail { mismatch .literal tokens with problem := .unexpectedToken } c

def identifier : Parser (String × Span) := fun c =>
  match c.rest with
  | ⟨.identifier text, span⟩ :: rest => .ok (text, span) { c with rest }
  | tokens => fail (mismatch .identifier tokens) c

def commaSeparated (item : Parser α) : Parser (List α) := do
  match ← optional item with
  | none => pure []
  | some first => do
    let rest ← many do
      let _ ← symbol .comma
      item
    pure (first :: rest)

def delimited (opening closing : Symbol) (item : Parser α) : Parser (List α × Span) := do
  let first ← symbol opening
  let items ← commaSeparated item
  let last ← symbol closing
  pure (items, first.to last)

def call (term : Parser Tree) : Parser Tree := do
  let (name, span) ← identifier
  match ← optional (delimited .openParen .closeParen term) with
  | some (args, argsSpan) => pure (.call name args (span.to argsSpan))
  | none => pure (.name name span)

def group (term : Parser Tree) : Parser Tree := do
  let (items, span) ← delimited .openParen .closeParen term
  pure (.sequence items span)

def list (term : Parser Tree) : Parser Tree := do
  let (items, span) ← delimited .openBracket .closeBracket term
  pure (.list items span)

/-- A term, and the term that it maps to if it is a maplet. -/
def entry (term : Parser Tree) : Parser (Tree × Option Tree) := do
  let key ← term
  let value ← optional do
    let _ ← symbol .mapsTo
    term
  pure (key, value)

/-- The set or the map that entries make, unless they are mixed. -/
def ofEntries? (entries : List (Tree × Option Tree)) (span : Span) : Option Tree :=
  let maplets := entries.filterMap fun (key, value) => value.map (key, ·)
  if maplets.isEmpty then some (.set (entries.map (·.1)) span)
  else if maplets.length = entries.length then some (.map maplets span)
  else none

def braces (term : Parser Tree) : Parser Tree := do
  let (entries, span) ← delimited .openBrace .closeBrace (entry term)
  match ofEntries? entries span with
  | some tree => pure tree
  | none => fail ⟨.mixedBraces, [], none, some span⟩

def primary (term : Parser Tree) : Parser Tree :=
  label .term <|
    orElse (orElse (orElse (orElse literal (call term)) (group term)) (list term)) (braces term)

def unaryWithin (term : Parser Tree) : Nat → Parser Tree
  | 0 => primary term
  | tildes + 1 => do
    match ← optional (symbol .tilde) with
    | some span => do
      let inner ← unaryWithin term tildes
      pure (.complement inner (span.to inner.span))
    | none => primary term

def unary (term : Parser Tree) : Parser Tree := fun c =>
  unaryWithin term (c.rest.length + 1) c

/-- Operands separated by a symbol; a single one stands for itself. -/
def operands (separator : Symbol) (operand : Parser Tree)
    (wrap : List Tree → Span → Tree) : Parser Tree := do
  let first ← operand
  let rest ← many do
    let _ ← symbol separator
    operand
  match rest.getLast? with
  | none => pure first
  | some last => pure (wrap (first :: rest) (first.span.to last.span))

def intersection (term : Parser Tree) : Parser Tree :=
  operands .ampersand (unary term) .intersection

/-- A term in which terms nest at most `depth` deep. -/
def termWithin : Nat → Parser Tree
  | 0 => fail ⟨.unexpectedEnd, [.term], none, none⟩
  | depth + 1 => operands .bar (intersection (termWithin depth)) .union

def term : Parser Tree := fun c => termWithin (c.rest.length + 1) c

end Parser

namespace Tree

/-- The tree of a token list, all of which must be one term. -/
def parse (tokens : List Token) : Except ParseError Tree :=
  match Parser.term ⟨tokens, none⟩ with
  | .ok tree c =>
    match c.rest with
    | [] => .ok tree
    | token :: _ =>
      let err := ⟨.trailingInput, [], some token.lexeme, some token.span⟩
      .error (((c.record err).furthest.map (·.2)).getD err)
  | .error err c => .error ((c.furthest.map (·.2)).getD err)

end Tree

end TermMachine
