import TermMachine.Term
import TermMachine.Text.Escape

/-!
# The printed form of terms

A term prints on one line and, where it has a notation, in the notation of the reader:

* an operator with its arguments, a run of absorbed arguments standing inline: `integer-add(1,2)`;
* a sequence, spread or not, in parentheses: `(1,true)`;
* a string in quotes, any other list in brackets: `"abc"`, `[1,2]`, and `[]` when empty;
* any other value of a named constructor like an operator: `tuple(1,2)`;
* a map and a set in braces: `{1|->"a"}` and `{1,2}`, but `map( )` and `{ }` when empty. The value
  at a key stands bare if it is one term, otherwise in parentheses.
-/

namespace TermMachine.Term

def intChars (n : Int) : List Char :=
  if n < 0 then '-' :: Nat.toDigits 10 n.natAbs else Nat.toDigits 10 n.natAbs

def commaSeparated (parts : List (List Char)) : List Char := [','].intercalate parts

mutual
def chars : Term → List Char
  | null => "null-value".toList
  | bool true => "true".toList
  | bool false => "false".toList
  | int n => intChars n
  | char c => Text.quoteChar c
  | atom name => "atom(".toList ++ Text.quoteString name.toList ++ [')']
  | data constructor args =>
    if constructor = listName then
      match args.mapM asChar? with
      | some (c :: cs) => Text.quoteString (c :: cs)
      | _ => '[' :: commaSeparated (charsOfAll args) ++ [']']
    else constructor.toList ++ '(' :: commaSeparated (charsOfAll args) ++ [')']
  | map [] => "map( )".toList
  | map entries => '{' :: commaSeparated (charsOfEntries entries) ++ ['}']
  | set [] => ['{', ' ', '}']
  | set elements => '{' :: commaSeparated (charsOfAll elements) ++ ['}']
  | type ty => ty.chars
  | seq items | spread items => '(' :: commaSeparated (charsOfAll items) ++ [')']
  | node op [] => op.name.toList
  | node op params =>
    op.name.toList ++ '(' :: commaSeparated (charsOfParams op.params params) ++ [')']

def charsOfAll : List Term → List (List Char)
  | [] => []
  | t :: rest => t.chars :: charsOfAll rest

def charsOfEntries : List (Term × List Term) → List (List Char)
  | [] => []
  | (key, [single]) :: rest =>
    (key.chars ++ "|->".toList ++ single.chars) :: charsOfEntries rest
  | (key, items) :: rest =>
    (key.chars ++ "|->".toList ++ '(' :: commaSeparated (charsOfAll items) ++ [')'])
      :: charsOfEntries rest

def charsOfParams : List Param → List Term → List (List Char)
  | _, [] => []
  | shape, seq items :: rest =>
    if shape.head?.any Param.isSequence then charsOfAll items ++ charsOfParams shape.tail rest
    else ('(' :: commaSeparated (charsOfAll items) ++ [')']) :: charsOfParams shape.tail rest
  | shape, t :: rest => t.chars :: charsOfParams shape.tail rest
end

def text (t : Term) : String := String.ofList t.chars

/-! ## Small laws -/

-- As for types, one law for each form, by computation.

theorem chars_data_of_ne {constructor : String} (h : constructor ≠ listName) (args : List Term) :
    (data constructor args).chars = constructor.toList ++ '(' :: commaSeparated (charsOfAll args) ++ [')'] :=
  if_neg h

theorem chars_atom (name : String) :
    (atom name).chars = "atom(".toList ++ Text.quoteString name.toList ++ [')'] := rfl

theorem chars_seq (items : List Term) :
    (seq items).chars = '(' :: commaSeparated (charsOfAll items) ++ [')'] := rfl

theorem chars_map {entries : List (Term × List Term)} (h : entries ≠ []) :
    (map entries).chars = '{' :: commaSeparated (charsOfEntries entries) ++ ['}'] := by
  cases entries with
  | nil => exact absurd rfl h
  | cons => rfl

theorem chars_set {elements : List Term} (h : elements ≠ []) :
    (set elements).chars = '{' :: commaSeparated (charsOfAll elements) ++ ['}'] := by
  cases elements with
  | nil => exact absurd rfl h
  | cons => rfl

theorem chars_node (op : Operator) {params : List Term} (h : params ≠ []) : (node op params).chars
    = op.name.toList ++ '(' :: commaSeparated (charsOfParams op.params params) ++ [')'] := by
  cases params with
  | nil => exact absurd rfl h
  | cons => rfl

theorem charsOfAll_eq_map (terms : List Term) : charsOfAll terms = terms.map chars := by
  induction terms with
  | nil => rfl
  | cons t rest ih => rw [charsOfAll, ih, List.map_cons]

theorem chars_list (args : List Term) : (data listName args).chars =
    match args.mapM asChar? with
    | some (c :: cs) => Text.quoteString (c :: cs)
    | _ => '[' :: commaSeparated (charsOfAll args) ++ [']'] := rfl

theorem chars_string {text : List Char} (h : text ≠ []) : (string text).chars = Text.quoteString text := by
  cases text with
  | nil => exact absurd rfl h
  | cons c rest => rw [string, chars_list, mapM_asChar?_map]

end TermMachine.Term
