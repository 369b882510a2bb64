import TermMachine.Proofs.Printing

/-!
# Printed literals

An integer prints as its digits. In a string literal a character stands for itself, behind a backslash
or, if it could not be seen, as its code point; the reader knows the first two but not the third. So
the strings that are read back are those in which nothing is written by its code point, and for atoms,
whose text the reader takes as it stands, those in which nothing is escaped at all.

Proved: `prints_int`, `prints_char`, `prints_string` and `prints_atom`, that each kind of literal is read
back, and `unescape_escaped`, that reading undoes escaping.
-/

namespace TermMachine

open Token Grammar Lexeme

/-! ## Integers -/

theorem digits_ne_nil (n : Nat) : Nat.toDigits 10 n ≠ [] := by
  intro h
  have hlen := Nat.length_toDigits_pos (b := 10) (n := n)
  rw [h] at hlen
  cases hlen

theorem isDigit_digits (n : Nat) : ∀ c ∈ Nat.toDigits 10 n, c.isDigit = true :=
  fun _ hc => Nat.isDigit_of_mem_toDigits (by decide) (by decide) hc

theorem natural?_digits (n : Nat) : Literal.natural? (Nat.toDigits 10 n) = some n := by
  have hall : (Nat.toDigits 10 n).all Char.isDigit = true := List.all_eq_true.mpr (isDigit_digits n)
  simp [Literal.natural?, hall]

theorem integerValue?_intChars (n : Int) : Literal.integerValue? (Term.intChars n) = some n := by
  unfold Term.intChars
  split
  · have hneg : -(n.natAbs : Int) = n := by omega
    simp only [Literal.integerValue?, natural?_digits, Option.pure_def, Option.bind_eq_bind, Option.bind_some,
      Option.map_some, hneg]
  · have hdigits := natural?_digits n.natAbs
    have hd := isDigit_digits n.natAbs
    have hpos : (n.natAbs : Int) = n := by omega
    rcases hcs : Nat.toDigits 10 n.natAbs with _ | ⟨c, cs⟩
    · exact absurd hcs (digits_ne_nil _)
    · rw [hcs] at hdigits hd
      have hc : c.isDigit = true := hd c (by simp)
      have hminus : c ≠ '-' := by rintro rfl; cases hc
      have hplus : c ≠ '+' := by rintro rfl; cases hc
      rw [Literal.integerValue?]
      · simp only [hdigits, Option.pure_def, Option.bind_eq_bind, Option.bind_some, Option.map_some, hpos]
      · simp [hminus]
      · simp [hplus]

theorem spells_intChars (n : Int) : Spells (Term.intChars n) [.integer (String.ofList (Term.intChars n))] := by
  unfold Term.intChars
  split
  · exact spells_negative (digits_ne_nil _) (isDigit_digits _)
  · exact spells_digits (digits_ne_nil _) (isDigit_digits _)

theorem prints_int {n : Int} (h : fitsInt64 n = true) : Prints .primary (Term.intChars n) (.int n) := by
  refine prints_lexeme (spells_intChars n) fun s => ⟨_, .integer, ?_⟩
  simp [Tree.build, Literal.integer, integerValue?_intChars, Option.filter, h]

/-! ## Escapes -/

namespace Text

def isWrittenByCode (c : Char) : Bool := escapeInString c = codePointEscape c

def isShown (c : Char) : Bool := escapeInString c = [c]

/-- A short escape is a letter that stands for the character. -/
theorem shortEscape?_some {c letter : Char} (h : shortEscape? c = some letter) :
    letter ≠ '\n' ∧ escapeMeaning letter = c := by
  unfold shortEscape? at h
  split at h <;> cases h <;> decide

theorem shortEscape?_none {c : Char} (h : shortEscape? c = none) : c ≠ '"' ∧ c ≠ '\\' := by
  constructor <;> rintro rfl <;> cases h

/-- A character that is not written by its code point stands behind a backslash or for itself. -/
theorem escapeInString_cases {c : Char} (h : isWrittenByCode c = false) :
    (∃ letter, escapeInString c = ['\\', letter] ∧ letter ≠ '\n' ∧ escapeMeaning letter = c) ∨
    (escapeInString c = [c] ∧ c ≠ '"' ∧ c ≠ '\\') := by
  simp only [isWrittenByCode, decide_eq_false_iff_not] at h
  unfold escapeInString at h ⊢
  rcases hshort : shortEscape? c with _ | letter
  · simp only [hshort] at h ⊢
    split
    · rename_i hnul
      exact Or.inl ⟨'0', rfl, by decide, by rw [hnul]; rfl⟩
    · rename_i hnul
      rw [if_neg hnul] at h
      split
      · exact Or.inr ⟨rfl, shortEscape?_none hshort⟩
      · rename_i hplain
        rw [if_neg hplain] at h
        exact absurd rfl h
  · exact Or.inl ⟨letter, rfl, shortEscape?_some hshort⟩

theorem mem_hexDigits {n : Nat} {c : Char} (h : c ∈ Nat.toDigits 16 n) : ∃ d < 16, c = Nat.digitChar d := by
  induction n using Nat.strongRecOn with
  | _ n ih =>
    rw [Nat.toDigits_eq_if (by decide)] at h
    split at h
    · exact ⟨n, ‹_›, List.mem_singleton.mp h⟩
    · rcases List.mem_append.mp h with h | h
      · exact ih (n / 16) (by omega) h
      · exact ⟨n % 16, Nat.mod_lt _ (by decide), List.mem_singleton.mp h⟩

/-- A character of a string literal begins with a backslash, behind which no other stands, or it is shown. -/
theorem escapeInString_form (c : Char) :
    (∃ letter cs, escapeInString c = '\\' :: letter :: cs ∧ letter ≠ '\n' ∧ ∀ d ∈ cs, d ≠ '"' ∧ d ≠ '\\') ∨
    (escapeInString c = [c] ∧ c ≠ '"' ∧ c ≠ '\\') := by
  rcases hcode : isWrittenByCode c with _ | _
  · rcases escapeInString_cases hcode with ⟨letter, hc, hline, -⟩ | hshown
    · exact .inl ⟨letter, [], hc, hline, fun _ hd => nomatch hd⟩
    · exact .inr hshown
  · have hdigits : ∀ d < 16, Nat.digitChar d ≠ '"' ∧ Nat.digitChar d ≠ '\\' := by decide
    refine .inl ⟨'u', _, of_decide_eq_true hcode, by decide, fun d hd => ?_⟩
    rcases List.mem_cons.mp hd with rfl | hd
    · decide
    rcases List.mem_append.mp hd with hd | hd
    · obtain ⟨k, hk, rfl⟩ := mem_hexDigits hd
      exact hdigits k hk
    · rw [List.mem_singleton.mp hd]
      decide

theorem unescape_cons {c : Char} (rest : List Char) (h : c ≠ '\\') : unescape (c :: rest) = c :: unescape rest := by
  rw [unescape]
  all_goals simp [h]

/-- Reading undoes escaping. -/
theorem unescape_escaped {text : List Char} (h : ∀ c ∈ text, isWrittenByCode c = false) :
    unescape (text.flatMap escapeInString) = text := by
  induction text with
  | nil => rfl
  | cons c text ih =>
    have ih := ih fun d hd => h d (List.mem_cons_of_mem _ hd)
    rw [List.flatMap_cons]
    rcases escapeInString_cases (h c (by simp)) with ⟨letter, hc, -, hmeaning⟩ | ⟨hc, -, hslash⟩
    · rw [hc, List.cons_append, List.cons_append, List.nil_append, unescape, hmeaning, ih]
    · rw [hc, List.singleton_append, unescape_cons _ hslash, ih]

end Text

theorem stringBody?_append {cs : List Char} (h : ∀ c ∈ cs, c ≠ '"' ∧ c ≠ '\\') (rest : List Char) :
    stringBody? (cs ++ rest) = (stringBody? rest).map fun (body, rest) => (cs ++ body, rest) := by
  induction cs with
  | nil => simp
  | cons c cs ih =>
    have hc := h c (by simp)
    rw [List.cons_append, stringBody?_cons hc.1 hc.2, ih fun d hd => h d (List.mem_cons_of_mem _ hd), Option.map_map]
    rfl

/-- No quote inside an escaped text ends a literal. -/
theorem stringBody?_escaped (text rest : List Char) :
    stringBody? (text.flatMap Text.escapeInString ++ '"' :: rest)
      = some (text.flatMap Text.escapeInString ++ ['"'], rest) := by
  induction text with
  | nil => rfl
  | cons c text ih =>
    rw [List.flatMap_cons, List.append_assoc]
    rcases Text.escapeInString_form c with ⟨letter, cs, hc, hline, hcs⟩ | ⟨hc, hquote, hslash⟩
    · simp [hc, stringBody?, hline, stringBody?_append hcs, ih]
    · simp [hc, stringBody?_cons hquote hslash, ih]

/-! ## Strings, characters and atoms -/

theorem unquote_quoted (q : Char) (body : List Char) :
    Tree.unquote (String.ofList (q :: body ++ [q])) = body := by
  simp [Tree.unquote]

/-- A string literal that is printed denotes what its text denotes. -/
theorem prints_quoteString (text : List Char) :
    Prints .primary (Text.quoteString text) (Literal.string (text.flatMap Text.escapeInString)) := by
  refine prints_lexeme (spells_string (stringBody?_escaped text)) fun s => ⟨_, .string, ?_⟩
  rw [Tree.build, unquote_quoted]

theorem prints_string {text : List Char} (h : ∀ c ∈ text, Text.isWrittenByCode c = false) :
    Prints .primary (Text.quoteString text) (Term.string text) := by
  have hliteral := prints_quoteString text
  rwa [Literal.string, Text.unescape_escaped h] at hliteral

/-- The characters that a character literal does not write by their code points. -/
def isPrintedChar (c : Char) : Bool := Text.isPrintableAscii c || c = '\t' || c = '\r' || c = '\n'

theorem escapeInChar_cases {c : Char} (h : isPrintedChar c = true) :
    (∃ letter, Text.escapeInChar c = ['\\', letter] ∧ letter ≠ '\n' ∧ Text.escapeMeaning letter = c) ∨
    (Text.escapeInChar c = [c] ∧ c ≠ '\'' ∧ c ≠ '\\') := by
  unfold Text.escapeInChar
  rcases hshort : Text.shortEscape? c with _ | letter
  · dsimp only
    split
    · rename_i hquote
      exact Or.inl ⟨'\'', rfl, by decide, hquote.symm⟩
    · rename_i hquote
      have hascii : Text.isPrintableAscii c = true := by
        simp only [isPrintedChar, Bool.or_eq_true, decide_eq_true_eq] at h
        rcases h with ((h | rfl) | rfl) | rfl
        · exact h
        all_goals cases hshort
      rw [if_pos hascii]
      exact Or.inr ⟨rfl, hquote, (Text.shortEscape?_none hshort).2⟩
  · exact Or.inl ⟨letter, rfl, Text.shortEscape?_some hshort⟩

theorem prints_char {c : Char} (h : isPrintedChar c = true) : Prints .primary (Text.quoteChar c) (.char c) := by
  have hbody : ∀ rest, characterBody? (Text.escapeInChar c ++ '\'' :: rest)
      = some (Text.escapeInChar c ++ ['\''], rest) := by
    intro rest
    rcases escapeInChar_cases h with ⟨letter, hc, hline, -⟩ | ⟨hc, hquote, hslash⟩
    · simp [hc, characterBody?, hline]
    · rw [hc, List.singleton_append, characterBody?]
      · simp [hquote, hslash]
      · simp [hslash]
  have hmeaning : Text.unescape (Text.escapeInChar c) = [c] := by
    rcases escapeInChar_cases h with ⟨letter, hc, -, hmeaning⟩ | ⟨hc, -, hslash⟩
    · rw [hc, Text.unescape, hmeaning, Text.unescape]
    · rw [hc, Text.unescape_cons _ hslash, Text.unescape]
  refine prints_lexeme (spells_character hbody) fun s => ⟨_, .character, ?_⟩
  rw [Tree.build, unquote_quoted, Literal.character, hmeaning]

theorem flatMap_escapeInString_of_isShown {text : List Char} (h : ∀ c ∈ text, Text.isShown c = true) :
    text.flatMap Text.escapeInString = text := by
  induction text with
  | nil => rfl
  | cons c text ih =>
    have hc : Text.escapeInString c = [c] := of_decide_eq_true (h c (by simp))
    rw [List.flatMap_cons, hc, ih fun d hd => h d (List.mem_cons_of_mem _ hd), List.singleton_append]

/-- The reader takes the text of an atom as it stands, escapes included. -/
theorem prints_atomText (name : String) :
    Prints .primary (Term.chars (.atom name)) (.atom (String.ofList (name.toList.flatMap Text.escapeInString))) := by
  have hliteral : PrintsAs .args (fun trees (t : Term) => Tree.atomOf trees = .ok t)
      (Text.quoteString name.toList) (.atom (String.ofList (name.toList.flatMap Text.escapeInString))) := by
    refine ⟨_, spells_string (stringBody?_escaped name.toList), fun u hu => ?_⟩
    obtain ⟨s, rfl⟩ := lexemes_single hu
    refine ⟨_, .args (.oneIntersection (.oneUnary (.plain .string))) .noTail, ?_⟩
    show Except.ok (Term.atom (String.ofList (Tree.unquote _))) = _
    rw [unquote_quoted]
  have hid : isIdentifier "atom".toList = true := by decide
  have hcall := hliteral.call hid fun s₁ s₂ s₃ u trees hderives hatom =>
    ⟨.call "atom" trees _, .call hderives, hatom⟩
  have hname : "atom(".toList = "atom".toList ++ ['('] := by decide
  rw [Term.chars_atom, hname]
  simpa using hcall

/-- So nothing in it may be escaped. -/
theorem prints_atom {name : String} (h : ∀ c ∈ name.toList, Text.isShown c = true) :
    Prints .primary (Term.chars (.atom name)) (.atom name) := by
  have htext := prints_atomText name
  rwa [flatMap_escapeInString_of_isShown h, String.ofList_toList] at htext

/-! ## Empty collections -/

-- An empty set and an empty map are printed with a blank between their delimiters.

theorem prints_blank {α : Type} {row : List α → Phrase} (h : Derives [] (row [])) :
    PrintsAs row (fun as (_ : Unit) => as = []) [' '] () := by
  refine ⟨[], Spells.nil.blank rfl, fun u hu => ⟨[], ?_, rfl⟩⟩
  rw [List.map_eq_nil_iff.mp hu]
  exact h

theorem prints_emptySet {t : Term} (ht : Construction.construct "set" [] = .ok t) : Prints .primary "{ }".toList t := by
  refine (prints_blank .noEntries).delimited .openBrace .closeBrace (by decide) ?_
  rintro s s' u es hderives rfl
  exact ⟨.set [] _, .braces hderives rfl, ht⟩

theorem prints_emptyMap {t : Term} (ht : Construction.construct "map" [] = .ok t) :
    Prints .primary "map( )".toList t := by
  have hid : isIdentifier "map".toList = true := by decide
  refine (prints_blank .noArgs).call hid ?_
  rintro s₁ s₂ s₃ u trees hderives rfl
  exact ⟨.call "map" [] _, .call hderives, ht⟩

end TermMachine
