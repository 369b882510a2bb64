import TermMachine.Proofs.PrintedLiterals

/-!
# Which literals are read back

Three ways to write a character meet two ways to read it. A character literal writes all but printable ASCII by the code
point, a string literal only what could not be seen. The reader knows escapes of one letter, so a code point in a character
literal is no lexeme, and in a string it is read as the text of the escape without its backslash. In an atom it reads no
escapes at all.

Proved: `readTerm_char_iff`, `readTerm_string_iff` and `readTerm_atom_iff`, which values are printed so that they are read
back, and with them `literals_read_back_iff`.
-/

namespace TermMachine

open Token Grammar Lexeme

/-! ## Characters -/

/-- What is not shown in a character literal, and has no short escape, is written by its code point. -/
theorem escapeInChar_of_not_printed {c : Char} (h : isPrintedChar c = false) :
    Text.escapeInChar c = Text.codePointEscape c := by
  have hshort : Text.shortEscape? c = none := by
    unfold Text.shortEscape?
    split <;> first | rfl | exact absurd h (by decide)
  have hquote : c ≠ '\'' := by
    rintro rfl
    exact absurd h (by decide)
  have hascii : Text.isPrintableAscii c = false := by
    simp only [isPrintedChar, Bool.or_eq_false_iff] at h
    exact h.1.1.1
  simp [Text.escapeInChar, hshort, hquote, hascii]

/-- A text that begins with no lexeme is not read. -/
theorem readTerm_of_scan?_none {c : Char} {text : List Char} (hc : isBlank c = false) (h : scan? (c :: text) = none)
    (t : Term) : readTerm (String.ofList (c :: text)) ≠ .ok t := by
  have hlex : lex (String.ofList (c :: text)) = .error ⟨0, c :: text⟩ := by
    rw [lex, String.toList_ofList, List.length_cons]
    unfold lexFrom
    simp [hc, h, Progress.start]
  intro h
  rw [readTerm, hlex] at h
  cases h

theorem readTerm_char_iff (c : Char) : readTerm (Term.char c).text = .ok (.char c) ↔ isPrintedChar c = true := by
  constructor
  · intro h
    rcases hc : isPrintedChar c with _ | _
    · -- between the quotes there is neither one character nor an escape of one letter
      have hscan : scan? (Text.quoteChar c) = none := by
        rw [Text.quoteChar, escapeInChar_of_not_printed hc]
        rfl
      exact absurd h (readTerm_of_scan?_none (by decide) hscan _)
    · rfl
  · exact fun h => readTerm_of_prints (prints_char h).of_primary

/-! ## Strings -/

/-- A list whose members are replaced by lists is left as it is only if each of them is, since no replacement is empty. -/
theorem flatMap_eq_self_iff {α : Type} {f : α → List α} (hf : ∀ a, f a = [a] ∨ 1 < (f a).length) {l : List α} :
    l.flatMap f = l ↔ ∀ a ∈ l, f a = [a] := by
  have hle : ∀ l : List α, l.length ≤ (l.flatMap f).length := by
    intro l
    induction l with
    | nil => exact Nat.le_refl _
    | cons a l ih =>
      rw [List.flatMap_cons, List.length_append, List.length_cons]
      rcases hf a with ha | ha
      · rw [ha, List.length_singleton]
        omega
      · omega
  induction l with
  | nil => simp
  | cons a l ih =>
    rw [List.flatMap_cons, List.forall_mem_cons]
    constructor
    · intro h
      have ha : f a = [a] := by
        refine (hf a).resolve_right fun hlt => ?_
        have hlen := congrArg List.length h
        have hrest := hle l
        rw [List.length_append, List.length_cons] at hlen
        omega
      rw [ha] at h
      exact ⟨ha, ih.mp (List.cons.inj h).2⟩
    · rintro ⟨ha, hl⟩
      rw [ha, ih.mpr hl]
      rfl

namespace Text

def reread (c : Char) : List Char := unescape (escapeInString c)

theorem unescape_append {cs : List Char} (h : ∀ c ∈ cs, c ≠ '"' ∧ c ≠ '\\') (rest : List Char) :
    unescape (cs ++ rest) = cs ++ unescape rest := by
  induction cs with
  | nil => rfl
  | cons c cs ih =>
    rw [List.cons_append, unescape_cons _ (h c (by simp)).2, ih fun d hd => h d (List.mem_cons_of_mem _ hd), List.cons_append]

/-- Text without quotes and backslashes stands for itself. -/
theorem unescape_of_plain {cs : List Char} (h : ∀ c ∈ cs, c ≠ '"' ∧ c ≠ '\\') : unescape cs = cs := by
  simpa [unescape] using unescape_append h []

/-- Characters are read one by one. -/
theorem unescape_flatMap (text : List Char) : unescape (text.flatMap escapeInString) = text.flatMap reread := by
  induction text with
  | nil => rfl
  | cons c text ih =>
    rw [List.flatMap_cons, List.flatMap_cons, reread]
    rcases escapeInString_form c with ⟨letter, cs, hc, -, hcs⟩ | ⟨hc, -, hslash⟩
    · rw [hc, List.cons_append, List.cons_append, unescape, unescape, unescape_append hcs, unescape_of_plain hcs, ih]
      rfl
    · rw [hc, List.singleton_append, unescape_cons _ hslash, unescape_cons _ hslash, ih]
      rfl

/-- The text of a code point is read without its backslash. -/
theorem reread_of_isWrittenByCode {c : Char} (h : isWrittenByCode c = true) : 1 < (reread c).length := by
  have hcode : escapeInString c = codePointEscape c := of_decide_eq_true h
  have hlen : 2 < (codePointEscape c).length := by simp [codePointEscape]
  rcases escapeInString_form c with ⟨letter, cs, hc, -, hcs⟩ | ⟨hc, -⟩
  · rw [← hcode, hc] at hlen
    rw [reread, hc, unescape, unescape_of_plain hcs]
    simpa using hlen
  · rw [← hcode, hc] at hlen
    simp at hlen

theorem reread_of_not_isWrittenByCode {c : Char} (h : isWrittenByCode c = false) : reread c = [c] := by
  have hone : ∀ d ∈ [c], isWrittenByCode d = false := by simpa using h
  simpa [reread] using unescape_escaped hone

theorem reread_eq_iff (c : Char) : reread c = [c] ↔ isWrittenByCode c = false := by
  refine ⟨fun h => ?_, reread_of_not_isWrittenByCode⟩
  rcases hc : isWrittenByCode c with _ | _
  · rfl
  · have hlen := reread_of_isWrittenByCode hc
    rw [h] at hlen
    simp at hlen

end Text

theorem Term.string_injective {a b : List Char} (h : Term.string a = Term.string b) : a = b := by
  have hread := congrArg Term.asString? h
  rwa [Term.asString?_string, Term.asString?_string, Option.some.injEq] at hread

theorem readTerm_string_iff {text : List Char} (hne : text ≠ []) :
    readTerm (Term.string text).text = .ok (Term.string text) ↔ ∀ c ∈ text, Text.isWrittenByCode c = false := by
  have hread : readTerm (Term.string text).text = .ok (Term.string (text.flatMap Text.reread)) := by
    rw [Term.text, Term.chars_string hne, ← Text.unescape_flatMap]
    exact readTerm_of_prints (prints_quoteString text).of_primary
  have hreread : ∀ c, Text.reread c = [c] ∨ 1 < (Text.reread c).length := by
    intro c
    rcases hc : Text.isWrittenByCode c with _ | _
    · exact .inl (Text.reread_of_not_isWrittenByCode hc)
    · exact .inr (Text.reread_of_isWrittenByCode hc)
  rw [hread, Except.ok.injEq]
  calc Term.string (text.flatMap Text.reread) = Term.string text
      ↔ text.flatMap Text.reread = text := ⟨Term.string_injective, fun h => by rw [h]⟩
    _ ↔ ∀ c ∈ text, Text.reread c = [c] := flatMap_eq_self_iff hreread
    _ ↔ ∀ c ∈ text, Text.isWrittenByCode c = false := by simp only [Text.reread_eq_iff]

/-! ## Atoms -/

theorem readTerm_atom_iff (name : String) :
    readTerm (Term.atom name).text = .ok (.atom name) ↔ ∀ c ∈ name.toList, Text.isShown c = true := by
  have hread : readTerm (Term.atom name).text =
      .ok (.atom (String.ofList (name.toList.flatMap Text.escapeInString))) :=
    readTerm_of_prints (prints_atomText name).of_primary
  have hescape : ∀ c, Text.escapeInString c = [c] ∨ 1 < (Text.escapeInString c).length := by
    intro c
    rcases Text.escapeInString_form c with ⟨letter, cs, hc, -⟩ | ⟨hc, -⟩
    · exact .inr (by simp [hc])
    · exact .inl hc
  rw [hread, Except.ok.injEq, Term.atom.injEq]
  calc String.ofList (name.toList.flatMap Text.escapeInString) = name
      ↔ name.toList.flatMap Text.escapeInString = name.toList := by
        rw [← String.toList_inj, String.toList_ofList]
    _ ↔ ∀ c ∈ name.toList, Text.escapeInString c = [c] := flatMap_eq_self_iff hescape
    _ ↔ ∀ c ∈ name.toList, Text.isShown c = true := by simp only [Text.isShown, decide_eq_true_eq]

/-! ## All literals -/

/-- The values that are written between quotes. The empty string is not among them, since it is the empty list. -/
inductive Quoted
  | char (c : Char)
  | string (text : List Char) (nonempty : text ≠ [])
  | atom (name : String)

namespace Quoted

def term : Quoted → Term
  | .char c => .char c
  | .string text _ => Term.string text
  | .atom name => .atom name

/-- Nothing is written by its code point, and in an atom nothing is escaped. -/
def isReadable : Quoted → Bool
  | .char c => isPrintedChar c
  | .string text _ => text.all fun c => !Text.isWrittenByCode c
  | .atom name => name.toList.all Text.isShown

end Quoted

/-- A character, a string or an atom is printed so that it is read back exactly if nothing is written by its code point in
it, and in an atom nothing is escaped. -/
theorem literals_read_back_iff (x : Quoted) : readTerm x.term.text = .ok x.term ↔ x.isReadable = true := by
  cases x with
  | char c => exact readTerm_char_iff c
  | string text hne =>
    simp only [Quoted.isReadable, List.all_eq_true, Bool.not_eq_true']
    exact readTerm_string_iff hne
  | atom name =>
    rw [Quoted.isReadable, List.all_eq_true]
    exact readTerm_atom_iff name

/-- The string `"é"` is read back, but the atom `\n` is not, whose text begins with a backslash. -/
theorem literals_read_back_iff_accent :
    readTerm (Term.string ['é']).text = .ok (Term.string ['é']) ∧ readTerm (Term.atom "\\n").text ≠ .ok (.atom "\\n") := by
  refine ⟨(literals_read_back_iff (.string ['é'] (List.cons_ne_nil _ _))).mpr (by decide), fun h => ?_⟩
  exact absurd ((literals_read_back_iff (.atom "\\n")).mp h) (by decide)

/-- The character `é` is written between quotes and printed by its code point, which is not read. -/
theorem accented_character_is_not_read_back :
    readTerm "'é'" = .ok (.char 'é') ∧ (Term.char 'é').text = "'\\u\x7be9\x7d'" ∧
      readTerm (Term.char 'é').text ≠ .ok (.char 'é') := by
  have hwritten : Prints .primary ['\'', 'é', '\''] (.char 'é') :=
    prints_lexeme (@spells_character ['é'] fun _ => rfl) fun s => ⟨_, .character, rfl⟩
  refine ⟨readTerm_of_prints hwritten.of_primary, by decide, fun h => ?_⟩
  exact absurd ((readTerm_char_iff 'é').mp h) (by decide)

end TermMachine
