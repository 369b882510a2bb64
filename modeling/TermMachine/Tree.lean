import TermMachine.Literal
import TermMachine.Token

/-!
# Syntax trees

What the parser makes of a token list: names and literals as raw text, with the span of the source
that each part covers. `Tree.build` resolves the names through the catalog. Lists, sets, maps and
the operators on types are written forms of the catalog's names: `{1 |-> "a"}` is
`map(tuple(1, "a"))`, and `integers | booleans` is `union-type(integers, booleans)`. The one name
that the catalog does not know is `atom`, which takes a string literal.
-/

namespace TermMachine

inductive Tree where
  | integer (text : String) (span : Span)
  | string (text : String) (span : Span)
  | character (text : String) (span : Span)
  | name (text : String) (span : Span)
  | call (operator : String) (args : List Tree) (span : Span)
  | sequence (items : List Tree) (span : Span)
  | list (items : List Tree) (span : Span)
  | set (items : List Tree) (span : Span)
  | map (entries : List (Tree × Tree)) (span : Span)
  | union (members : List Tree) (span : Span)
  | intersection (members : List Tree) (span : Span)
  | complement (inner : Tree) (span : Span)

namespace Tree

instance : Inhabited Tree := ⟨sequence [] ⟨⟨0, 0⟩, ⟨0, 0⟩⟩⟩

def span : Tree → Span
  | integer _ s | string _ s | character _ s | name _ s | call _ _ s | sequence _ s | list _ s
  | set _ s | map _ s | union _ s | intersection _ s | complement _ s => s

def unquote (text : String) : List Char := text.toList.tail.dropLast

/-- The atom that a string literal names. Its text is taken as it stands. -/
def atomOf : List Tree → Except ConstructionError Term
  | [string text _] => .ok (.atom (String.ofList (unquote text)))
  | _ => .error (.invalidLiteral "atom expects a single string")

mutual
def build : Tree → Except ConstructionError Term
  | integer text _ => Literal.integer text.toList
  | string text _ => .ok (Literal.string (unquote text))
  | character text _ => Literal.character (unquote text)
  | name text _ => Construction.construct text []
  | call operator args _ =>
    if operator = "atom" then atomOf args
    else do Construction.construct operator (← buildAll args)
  | sequence items _ => do return Term.ofSequence (Term.flatten (← buildAll items))
  | list items _ => do Construction.construct "list" (← buildAll items)
  | set items _ => do Construction.construct "set" (← buildAll items)
  | map entries _ => do Construction.construct "map" (← buildEntries entries)
  | union members _ => do Construction.construct "union-type" (← buildAll members)
  | intersection members _ => do Construction.construct "intersection-type" (← buildAll members)
  | complement inner _ => do Construction.construct "complement-type" [← build inner]

def buildAll : List Tree → Except ConstructionError (List Term)
  | [] => .ok []
  | tree :: rest => do
    let t ← build tree
    return t :: (← buildAll rest)

def buildEntries : List (Tree × Tree) → Except ConstructionError (List Term)
  | [] => .ok []
  | (key, value) :: rest => do
    let k ← build key
    let v ← build value
    let entry ← Construction.construct "tuple" [k, v]
    return entry :: (← buildEntries rest)
end

end Tree

end TermMachine
