import TermMachine.Proofs.LongestMatch
import TermMachine.Text.Escape

/-!
# What a text is split into

`Lexes text ls` says that a text splits into the lexemes `ls`, with blanks anywhere between them. The
lexer finds them (`lex_of_lexes`), whatever the places that it counts.

A text is put together from pieces, and a piece may run into the one after it: a name, a number or the
symbol `|` could go on. `Spells piece ls` says that a piece gives its own lexemes in front of every text
that begins with no character of an identifier. Blanks are no such characters, so lexemes with blanks between
them are found again, whatever they are.

Proved:
* `lex_of_lexes`: the tokens of a text are those of its lexemes.
* `spells_of_formed`: every lexeme is spelled by its text.
* `spaced_lexemes_are_found`: a row of lexemes with blanks between them is split into these lexemes.
-/

namespace TermMachine

namespace Token

open Lexeme

inductive Lexes : List Char → List Lexeme → Prop
  | nil : Lexes [] []
  | blank {c : Char} {text : List Char} {ls : List Lexeme} : isBlank c = true → Lexes text ls →
      Lexes (c :: text) ls
  | lexeme {text rest : List Char} {l : Lexeme} {ls : List Lexeme} : scan? text = some (l, rest) →
      Lexes rest ls → Lexes text (l :: ls)

/-! ## The lexer takes them -/

/-- A lexeme takes at least one character. -/
theorem scan?_length {text rest : List Char} {l : Lexeme} (h : scan? text = some (l, rest)) :
    rest.length < text.length := by
  obtain ⟨hl, rfl, -⟩ := scan?_eq_some_iff.mp h
  have hpos := List.length_pos_iff.mpr hl.chars_ne_nil
  rw [List.length_append]
  omega

/-- No lexeme begins with a blank. -/
theorem isBlank_of_scan? {c : Char} {text rest : List Char} {l : Lexeme} (h : scan? (c :: text) = some (l, rest)) :
    isBlank c = false := by
  rcases hb : isBlank c with _ | _
  · rfl
  · simp only [isBlank, Bool.or_eq_true, decide_eq_true_eq] at hb
    rcases hb with (((rfl | rfl) | rfl) | rfl) | rfl <;> cases h

theorem lexFrom_blank {rounds : Nat} {p : Progress} {c : Char} {text : List Char} (h : isBlank c = true) :
    lexFrom rounds p (c :: text) = lexFrom rounds (p.pastBlank c) text := by
  conv => lhs; unfold lexFrom
  conv => rhs; unfold lexFrom
  simp only [List.takeWhile_cons, List.dropWhile_cons, h, if_true, List.foldl_cons]

theorem lexFrom_of_lexes {text : List Char} {ls : List Lexeme} (h : Lexes text ls) :
    ∀ rounds p, text.length ≤ rounds → ∃ tokens, lexFrom rounds p text = .ok tokens ∧
      tokens.map Token.lexeme = ls := by
  induction h with
  | nil =>
    intro rounds p _
    exact ⟨[], by unfold lexFrom; rfl, rfl⟩
  | blank hc _ ih =>
    intro rounds p hrounds
    rw [lexFrom_blank hc]
    exact ih rounds _ (by simp only [List.length_cons] at hrounds; omega)
  | @lexeme text rest l ls hscan _ ih =>
    intro rounds p hrounds
    have hlen := scan?_length hscan
    obtain ⟨rounds, rfl⟩ : ∃ k, rounds = k + 1 := ⟨rounds - 1, by omega⟩
    cases text with
    | nil => cases hscan
    | cons c text =>
      have hc := isBlank_of_scan? hscan
      obtain ⟨tokens, htokens, hmap⟩ := ih rounds (p.pastLexeme l.chars) (by omega)
      refine ⟨⟨l, ⟨p.pos, (p.pastLexeme l.chars).pos⟩⟩ :: tokens, ?_, by simp [hmap]⟩
      unfold lexFrom
      simp [hc, hscan, htokens, Except.map]

theorem lex_of_lexes {text : List Char} {ls : List Lexeme} (h : Lexes text ls) :
    ∃ tokens, lex (String.ofList text) = .ok tokens ∧ tokens.map Token.lexeme = ls := by
  unfold lex
  rw [String.toList_ofList]
  exact lexFrom_of_lexes h _ _ (Nat.le_refl _)

/-! ## Pieces of text -/

/-- A piece of text that gives its own lexemes, in front of any text at a boundary. -/
def Spells (text : List Char) (ls : List Lexeme) : Prop :=
  ∀ rest more, Boundary rest → Lexes rest more → Lexes (text ++ rest) (ls ++ more)

theorem boundary_nil : Boundary [] := fun _ hc => nomatch hc

theorem boundary_symbol (s : Symbol) (rest : List Char) : Boundary (s.chars ++ rest) := by
  cases s <;> simp [Boundary, Symbol.chars] <;> decide

theorem Spells.lexes {text : List Char} {ls : List Lexeme} (h : Spells text ls) : Lexes text ls := by
  have := h [] [] boundary_nil .nil
  rwa [List.append_nil, List.append_nil] at this

theorem Spells.nil : Spells [] [] := fun _ _ _ h => h

theorem Spells.append {text text' : List Char} {ls ls' : List Lexeme} (h : Spells text ls) (h' : Spells text' ls')
    (hb : ∀ rest, Boundary rest → Boundary (text' ++ rest)) : Spells (text ++ text') (ls ++ ls') := by
  intro rest more hrest hmore
  rw [List.append_assoc, List.append_assoc]
  exact h _ _ (hb rest hrest) (h' rest more hrest hmore)

theorem spells_of_formed {l : Lexeme} (h : l.Formed) : Spells l.chars [l] :=
  fun _ _ hrest hmore => .lexeme (scan?_eq_some_iff.mpr (longest_of_boundary h hrest)) hmore

theorem spells_symbol (s : Symbol) : Spells s.chars [.symbol s] := spells_of_formed (.symbol s)

/-- A symbol in front of any text; only `|` must not stand before a hyphen. -/
theorem lexes_symbol {s : Symbol} {rest : List Char} {more : List Lexeme} (h : Lexes rest more)
    (hs : s ≠ .bar ∨ Boundary rest) : Lexes (s.chars ++ rest) (.symbol s :: more) := by
  rcases hs with hs | hs
  · refine .lexeme ?_ h
    cases s with
    | bar => exact absurd rfl hs
    | _ => rfl
  · exact spells_symbol s rest more hs h

theorem Spells.symbol_append {s : Symbol} {text : List Char} {ls : List Lexeme} (h : Spells text ls)
    (hs : s ≠ .bar) : Spells (s.chars ++ text) (.symbol s :: ls) := by
  intro rest more hrest hmore
  rw [List.append_assoc]
  exact lexes_symbol (h rest more hrest hmore) (Or.inl hs)

theorem Spells.append_symbol {s : Symbol} {text : List Char} {ls : List Lexeme} (h : Spells text ls) :
    Spells (text ++ s.chars) (ls ++ [.symbol s]) :=
  h.append (spells_symbol s) fun rest _ => boundary_symbol s rest

theorem Spells.blank {c : Char} {text : List Char} {ls : List Lexeme} (h : Spells text ls) (hc : isBlank c = true) :
    Spells (c :: text) ls :=
  fun rest more hrest hmore => .blank hc (h rest more hrest hmore)

/-! ## Lexemes with a text of their own -/

def isIdentifier : List Char → Bool
  | [] => false
  | c :: rest => isAsciiLetter c && rest.all isIdentifierChar

theorem spells_identifier {name : String} (h : isIdentifier name.toList = true) :
    Spells name.toList [.identifier name] := by
  refine spells_of_formed (l := .identifier name) ?_
  rcases hname : name.toList with _ | ⟨c, cs⟩
  · rw [hname] at h
    cases h
  · rw [hname, isIdentifier, Bool.and_eq_true, List.all_eq_true] at h
    rw [← String.ofList_toList (s := name), hname]
    exact .identifier h.1 h.2

theorem spells_digits {digits : List Char} (hne : digits ≠ []) (hd : ∀ c ∈ digits, c.isDigit = true) :
    Spells digits [.integer (String.ofList digits)] := by
  cases digits with
  | nil => exact absurd rfl hne
  | cons c cs =>
    obtain ⟨hc, hcs⟩ := List.forall_mem_cons.mp hd
    simpa [chars] using spells_of_formed (.natural hc hcs)

theorem spells_negative {digits : List Char} (hne : digits ≠ []) (hd : ∀ c ∈ digits, c.isDigit = true) :
    Spells ('-' :: digits) [.integer (String.ofList ('-' :: digits))] := by
  cases digits with
  | nil => exact absurd rfl hne
  | cons c cs =>
    obtain ⟨hc, hcs⟩ := List.forall_mem_cons.mp hd
    simpa [chars] using spells_of_formed (.negative hc hcs)

/-- A string literal, if the closing quote is the first quote that ends it. -/
theorem spells_string {body : List Char}
    (h : ∀ rest, stringBody? (body ++ '"' :: rest) = some (body ++ ['"'], rest)) :
    Spells ('"' :: body ++ ['"']) [.string (String.ofList ('"' :: body ++ ['"']))] := by
  obtain ⟨pieces, hpieces, hbody, -⟩ := pieces_of_stringBody? (h [])
  rw [List.cons_append, hbody]
  simpa [chars] using spells_of_formed (.string hpieces)

theorem spells_character {body : List Char}
    (h : ∀ rest, characterBody? (body ++ '\'' :: rest) = some (body ++ ['\''], rest)) :
    Spells ('\'' :: body ++ ['\'']) [.character (String.ofList ('\'' :: body ++ ['\'']))] := by
  obtain ⟨piece, hpiece, hbody, -⟩ := piece_of_characterBody? (h [])
  rw [List.cons_append, hbody]
  simpa [chars] using spells_of_formed (.character hpiece)

/-! ## Lexemes with blanks between them -/

/-- Lexemes in a row, each behind the blanks that it comes with, and blanks at the end. -/
def spaced : List (List Char × Lexeme) → List Char → List Char
  | [], last => last
  | (gap, l) :: row, last => gap ++ (l.chars ++ spaced row last)

/-- The lexemes match their patterns, only blanks stand around them, and at least one of these between two lexemes. -/
structure Spaced (row : List (List Char × Lexeme)) (last : List Char) : Prop where
  formed : ∀ e ∈ row, e.2.Formed
  blank : ∀ e ∈ row, ∀ c ∈ e.1, isBlank c = true
  trailing : ∀ c ∈ last, isBlank c = true
  separated : ∀ e ∈ row.tail, e.1 ≠ []

theorem isIdentifierChar_of_isBlank {c : Char} (h : isBlank c = true) : isIdentifierChar c = false := by
  simp only [isBlank, Bool.or_eq_true, decide_eq_true_eq] at h
  rcases h with (((rfl | rfl) | rfl) | rfl) | rfl <;> decide

theorem lexes_blanks {blanks text : List Char} {ls : List Lexeme} (h : ∀ c ∈ blanks, isBlank c = true)
    (htext : Lexes text ls) : Lexes (blanks ++ text) ls := by
  induction blanks with
  | nil => exact htext
  | cons c blanks ih =>
    obtain ⟨hc, hblanks⟩ := List.forall_mem_cons.mp h
    exact .blank hc (ih hblanks)

namespace Spaced

variable {e : List Char × Lexeme} {row : List (List Char × Lexeme)} {last : List Char}

theorem tail (h : Spaced (e :: row) last) : Spaced row last where
  formed f hf := h.formed f (List.mem_cons_of_mem _ hf)
  blank f hf := h.blank f (List.mem_cons_of_mem _ hf)
  trailing := h.trailing
  separated f hf := h.separated f (List.mem_of_mem_tail hf)

/-- Behind a lexeme comes a blank, or the end. -/
theorem boundary (h : Spaced (e :: row) last) : Boundary (spaced row last) := by
  cases row with
  | nil => exact fun c hc => isIdentifierChar_of_isBlank (h.trailing c (List.mem_of_mem_head? hc))
  | cons f row =>
    obtain ⟨gap, l⟩ := f
    cases gap with
    | nil => exact absurd rfl (h.separated ([], l) List.mem_cons_self)
    | cons c gap =>
      intro d hd
      obtain rfl : c = d := by simpa [spaced] using hd
      exact isIdentifierChar_of_isBlank (h.blank (c :: gap, l) (by simp) c (by simp))

theorem lexes (h : Spaced row last) : Lexes (spaced row last) (row.map Prod.snd) := by
  induction row with
  | nil =>
    have hlast := lexes_blanks h.trailing .nil
    rwa [List.append_nil] at hlast
  | cons e row ih =>
    have hlexeme := spells_of_formed (h.formed e List.mem_cons_self) _ _ h.boundary (ih h.tail)
    exact lexes_blanks (h.blank e List.mem_cons_self) hlexeme

end Spaced

/-- Lexemes of any kinds with blanks between them are found again, in their order: each is the longest where it stands. -/
theorem spaced_lexemes_are_found {row : List (List Char × Lexeme)} {last : List Char} (h : Spaced row last) :
    ∃ tokens, lex (String.ofList (spaced row last)) = .ok tokens ∧ tokens.map Token.lexeme = row.map Prod.snd :=
  lex_of_lexes h.lexes

/-- A name and a negative number, which could be one name; a literal with a quote and a blank in it; `|` and `|->`. -/
theorem spaced_lexemes_are_found_row :
    let name : Lexeme := .identifier (String.ofList ['x', '-'])
    let number : Lexeme := .integer (String.ofList ['-', '7'])
    let literal : Lexeme := .string (String.ofList ['"', '\\', '"', ' ', '"'])
    let row := [([], name), ([' '], number), (['\t', '\n'], literal), (['\x0c'], .symbol .bar), (['\r'], .symbol .mapsTo)]
    Spaced row [' '] ∧ ∃ tokens, lex (String.ofList (spaced row [' '])) = .ok tokens ∧
      tokens.map Token.lexeme = [name, number, literal, .symbol .bar, .symbol .mapsTo] := by
  intro name number literal row
  have hpieces : ∀ p ∈ [['\\', '"'], [' ']], Piece '"' p := by
    simp only [List.forall_mem_cons, List.not_mem_nil, false_implies, implies_true, and_true]
    exact ⟨.escaped (by decide), .plain (by decide) (by decide)⟩
  have hspaced : Spaced row [' '] := by
    refine ⟨?_, by simp [row, isBlank], by simp [isBlank], by simp [row]⟩
    simp only [row, List.forall_mem_cons, List.not_mem_nil, false_implies, implies_true, and_true]
    exact ⟨.identifier (by decide) (by simp [isIdentifierChar]), .negative (by decide) (by simp), .string hpieces,
      .symbol _, .symbol _⟩
  exact ⟨hspaced, spaced_lexemes_are_found hspaced⟩

end Token

end TermMachine
