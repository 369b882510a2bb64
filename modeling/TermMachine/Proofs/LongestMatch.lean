import TermMachine.Token.Lexer

/-!
# The longest lexeme

Each kind of lexeme has a pattern for its text: `Formed` says that the text of a lexeme matches the pattern of its kind. Of
the lexemes with which a text begins, the lexer takes the longest. It does not try the patterns one by one but goes by the
first character, so what it finds has to be compared with everything else that would match.

Where a lexeme is followed by a character that is in no identifier, nothing longer than it can be taken: a name, a number and
the symbol `|` only go on with such characters, and no literal goes on behind its closing quote.

Proved:
* `scan?_eq_some_iff`: what is scanned is the longest lexeme at the start of a text.
* `longest_of_boundary`: a lexeme in front of a boundary is the longest one there.
-/

namespace TermMachine

/-- A text with which no identifier and no number goes on. -/
def Token.Boundary (rest : List Char) : Prop := ∀ c ∈ rest.head?, Lexeme.isIdentifierChar c = false

namespace Lexeme

open Token

/-! ## Patterns -/

/-- One character of a literal: any but the quote and the backslash, or a backslash and any but a line feed. -/
inductive Piece (quote : Char) : List Char → Prop
  | plain {c : Char} : c ≠ quote → c ≠ '\\' → Piece quote [c]
  | escaped {c : Char} : c ≠ '\n' → Piece quote ['\\', c]

/-- The text of a lexeme matches the pattern of its kind. -/
inductive Formed : Lexeme → Prop
  | identifier {c : Char} {cs : List Char} : isAsciiLetter c = true → (∀ d ∈ cs, isIdentifierChar d = true) →
      Formed (.identifier (String.ofList (c :: cs)))
  | natural {c : Char} {cs : List Char} : c.isDigit = true → (∀ d ∈ cs, d.isDigit = true) →
      Formed (.integer (String.ofList (c :: cs)))
  | negative {c : Char} {cs : List Char} : c.isDigit = true → (∀ d ∈ cs, d.isDigit = true) →
      Formed (.integer (String.ofList ('-' :: c :: cs)))
  | string {pieces : List (List Char)} : (∀ p ∈ pieces, Piece '"' p) →
      Formed (.string (String.ofList ('"' :: (pieces.flatten ++ ['"']))))
  | character {piece : List Char} : Piece '\'' piece → Formed (.character (String.ofList ('\'' :: (piece ++ ['\'']))))
  | symbol (s : Symbol) : Formed (.symbol s)

/-- Of all lexemes with which a text begins, `l` is the longest. No two have the same text, so that there is one at most
(`scan?_eq_some_iff`). -/
structure Longest (text : List Char) (l : Lexeme) (rest : List Char) : Prop where
  formed : l.Formed
  split : text = l.chars ++ rest
  longest : ∀ l' rest', Formed l' → text = l'.chars ++ rest' → l'.chars.length ≤ l.chars.length

theorem Formed.chars_ne_nil {l : Lexeme} (h : l.Formed) : l.chars ≠ [] := by
  cases h with
  | symbol s => cases s <;> simp [chars, Symbol.chars]
  | _ => simp [chars]

theorem isAsciiLetter_of_isDigit {c : Char} (h : c.isDigit = true) : isAsciiLetter c = false := by
  simp only [Char.isDigit, Bool.and_eq_true, decide_eq_true_eq, UInt32.le_iff_toNat_le] at h
  have h9 : c.val.toNat ≤ 57 := h.2
  simp only [isAsciiLetter, Bool.or_eq_false_iff, Bool.and_eq_false_iff, decide_eq_false_iff_not, Char.le_def,
    UInt32.le_iff_toNat_le]
  have ha : 'a'.val.toNat = 97 := rfl
  have hA : 'A'.val.toNat = 65 := rfl
  omega

theorem isIdentifierChar_of_isDigit {c : Char} (h : c.isDigit = true) : isIdentifierChar c = true := by
  simp [isIdentifierChar, h]

/-! ## Literals -/

theorem stringBody?_cons {c : Char} {rest : List Char} (hquote : c ≠ '"') (hslash : c ≠ '\\') :
    stringBody? (c :: rest) = (stringBody? rest).map fun (body, rest) => (c :: body, rest) := by
  rw [stringBody?]
  all_goals simp [hquote, hslash]

/-- A string literal ends at the first quote that is no part of a piece. -/
theorem stringBody?_pieces {pieces : List (List Char)} (h : ∀ p ∈ pieces, Piece '"' p) (rest : List Char) :
    stringBody? (pieces.flatten ++ '"' :: rest) = some (pieces.flatten ++ ['"'], rest) := by
  induction pieces with
  | nil => rfl
  | cons p pieces ih =>
    have ih := ih fun q hq => h q (List.mem_cons_of_mem _ hq)
    rw [List.flatten_cons, List.append_assoc]
    cases h p (by simp) with
    | plain hquote hslash => simp [stringBody?_cons hquote hslash, ih]
    | escaped hline => simp [stringBody?, hline, ih]

theorem pieces_of_stringBody? {text body rest : List Char} (h : stringBody? text = some (body, rest)) :
    ∃ pieces : List (List Char), (∀ p ∈ pieces, Piece '"' p) ∧ body = pieces.flatten ++ ['"'] ∧
      text = body ++ rest := by
  induction text using stringBody?.induct generalizing body rest with
  | case1 => simp [stringBody?] at h
  | case2 more =>
    simp only [stringBody?, Option.some.injEq, Prod.mk.injEq] at h
    obtain ⟨rfl, rfl⟩ := h
    exact ⟨[], by simp, rfl, rfl⟩
  | case3 => simp [stringBody?] at h
  | case4 more => simp [stringBody?] at h
  | case5 c more hc ih =>
    simp only [stringBody?, hc, if_false, Option.map_eq_some_iff, Prod.exists, Prod.mk.injEq] at h
    obtain ⟨body', rest', hmore, rfl, rfl⟩ := h
    obtain ⟨pieces, hpieces, rfl, rfl⟩ := ih hmore
    exact ⟨['\\', c] :: pieces, List.forall_mem_cons.mpr ⟨.escaped hc, hpieces⟩, rfl, rfl⟩
  | case6 c more hquote hlast hslash ih =>
    have hc : c ≠ '\\' := by
      rintro rfl
      cases more with
      | nil => exact hlast rfl rfl
      | cons d more => exact hslash d more rfl rfl
    rw [stringBody?_cons hquote hc] at h
    simp only [Option.map_eq_some_iff, Prod.exists, Prod.mk.injEq] at h
    obtain ⟨body', rest', hmore, rfl, rfl⟩ := h
    obtain ⟨pieces, hpieces, rfl, rfl⟩ := ih hmore
    exact ⟨[c] :: pieces, List.forall_mem_cons.mpr ⟨.plain hquote hc, hpieces⟩, rfl, rfl⟩

theorem characterBody?_piece {piece : List Char} (h : Piece '\'' piece) (rest : List Char) :
    characterBody? (piece ++ '\'' :: rest) = some (piece ++ ['\''], rest) := by
  cases h with
  | plain hquote hslash =>
    rw [List.singleton_append, characterBody?]
    · simp [hquote, hslash]
    · simp [hslash]
  | escaped hline => simp [characterBody?, hline]

theorem piece_of_characterBody? {text body rest : List Char} (h : characterBody? text = some (body, rest)) :
    ∃ piece, Piece '\'' piece ∧ body = piece ++ ['\''] ∧ text = body ++ rest := by
  unfold characterBody? at h
  split at h
  · split at h
    · cases h
    · rename_i hline
      cases h
      exact ⟨_, .escaped hline, rfl, rfl⟩
  · split at h
    · cases h
    · rename_i hplain
      cases h
      simp only [Bool.or_eq_true, decide_eq_true_eq, not_or] at hplain
      exact ⟨_, .plain hplain.1 hplain.2, rfl, rfl⟩
  · cases h

/-! ## What is scanned is a lexeme -/

theorem chars_of_scanSymbol? {text rest : List Char} {s : Symbol} (h : scanSymbol? text = some (s, rest)) :
    text = s.chars ++ rest := by
  unfold scanSymbol? at h
  split at h <;> cases h <;> rfl

theorem formed_of_scan? {text rest : List Char} {l : Lexeme} (h : scan? text = some (l, rest)) :
    l.Formed ∧ text = l.chars ++ rest := by
  have hrun : ∀ (p : Char → Bool) (cs : List Char), ∀ d ∈ cs.takeWhile p, p d = true := fun p cs =>
    List.all_eq_true.mp List.all_takeWhile
  cases text with
  | nil => cases h
  | cons c text =>
    simp only [scan?] at h
    split at h
    · rename_i hletter
      cases h
      exact ⟨.identifier hletter (hrun _ _), by simp [chars]⟩
    split at h
    · rename_i hdigit
      cases h
      exact ⟨.natural hdigit (hrun _ _), by simp [chars]⟩
    split at h
    · rename_i hminus
      subst hminus
      split at h
      · rename_i hdigit
        cases h
        cases text with
        | nil => cases hdigit
        | cons d text =>
          have hd : d.isDigit = true := by simpa using hdigit
          rw [List.takeWhile_cons_of_pos hd, List.dropWhile_cons_of_pos hd]
          exact ⟨.negative hd (hrun _ _), by simp [chars]⟩
      · cases h
    split at h
    · rename_i hquote
      obtain ⟨⟨body, more⟩, hbody, h⟩ := Option.map_eq_some_iff.mp h
      cases h
      obtain ⟨pieces, hpieces, rfl, rfl⟩ := pieces_of_stringBody? hbody
      rw [hquote]
      exact ⟨.string hpieces, by simp [chars]⟩
    split at h
    · rename_i hquote
      obtain ⟨⟨body, more⟩, hbody, h⟩ := Option.map_eq_some_iff.mp h
      cases h
      obtain ⟨piece, hpiece, rfl, rfl⟩ := piece_of_characterBody? hbody
      rw [hquote]
      exact ⟨.character hpiece, by simp [chars]⟩
    · obtain ⟨⟨s, more⟩, hs, h⟩ := Option.map_eq_some_iff.mp h
      cases h
      exact ⟨.symbol s, chars_of_scanSymbol? hs⟩

/-! ## Every lexeme is scanned, or a longer one -/

/-- The lexeme is scanned in front of `rest`, unless a longer one is that goes on behind it. -/
def Scans (l : Lexeme) (rest : List Char) : Prop :=
  scan? (l.chars ++ rest) = some (l, rest) ∨
    ¬ Boundary rest ∧ ∃ l' rest', scan? (l.chars ++ rest) = some (l', rest') ∧ l.chars.length < l'.chars.length

/-- A run of characters of a class ends where it seems to, or the next character is of that class too. -/
theorem run_cases {p : Char → Bool} {run : List Char} (hrun : ∀ c ∈ run, p c = true) (rest : List Char) :
    (run ++ rest).takeWhile p = run ∧ (run ++ rest).dropWhile p = rest ∨
      (∃ c ∈ rest.head?, p c = true) ∧ run.length < ((run ++ rest).takeWhile p).length := by
  rw [List.takeWhile_append_of_pos hrun, List.dropWhile_append_of_pos hrun]
  cases rest with
  | nil => simp
  | cons c rest =>
    by_cases hc : p c = true
    · exact .inr ⟨⟨c, rfl, hc⟩, by simp [hc]⟩
    · exact .inl (by simp [hc])

/-- Names and numbers: behind their first part they are a run of characters of one class, which is taken to its end. -/
theorem scans_run {p : Char → Bool} {kind : String → Lexeme} (first : List Char) {run rest : List Char}
    (hkind : ∀ cs, (kind (String.ofList cs)).chars = cs) (hp : ∀ c, p c = true → isIdentifierChar c = true)
    (hrun : ∀ c ∈ run, p c = true)
    (hscan : scan? (first ++ run ++ rest) =
      some (kind (String.ofList (first ++ (run ++ rest).takeWhile p)), (run ++ rest).dropWhile p)) :
    Scans (kind (String.ofList (first ++ run))) rest := by
  unfold Scans
  rw [hkind, hscan]
  rcases run_cases hrun rest with ⟨htake, hdrop⟩ | ⟨⟨c, hc, hpc⟩, hlonger⟩
  · exact .inl (by rw [htake, hdrop])
  · refine .inr ⟨fun hboundary => ?_, _, _, rfl, ?_⟩
    · have hnot := hboundary c hc
      rw [hp c hpc] at hnot
      cases hnot
    · rw [hkind, List.length_append, List.length_append]
      omega

theorem scans_symbol (s : Symbol) (rest : List Char) : Scans (.symbol s) rest := by
  cases s with
  | bar =>
    by_cases harrow : ∃ more, rest = '-' :: '>' :: more
    · obtain ⟨more, rfl⟩ := harrow
      exact .inr ⟨fun hboundary => absurd (hboundary '-' rfl) (by decide), .symbol .mapsTo, more, rfl, by decide⟩
    · have hbar : scanSymbol? ('|' :: rest) = some (.bar, rest) := by
        rw [scanSymbol?]
        exact fun more hmore => harrow ⟨more, hmore⟩
      refine .inl ?_
      have hletter : isAsciiLetter '|' = false := by decide
      have hdigit : '|'.isDigit = false := by decide
      simp [chars, Symbol.chars, scan?, hletter, hdigit, hbar]
  | _ => exact .inl rfl

theorem Formed.scans {l : Lexeme} (h : l.Formed) (rest : List Char) : Scans l rest := by
  cases h with
  | @identifier c cs hc hcs =>
    refine scans_run (p := isIdentifierChar) [c] (fun cs => by simp [chars]) (fun _ h => h) hcs ?_
    simp [scan?, hc]
  | @natural c cs hc hcs =>
    refine scans_run (p := Char.isDigit) [c] (fun cs => by simp [chars]) (fun _ => isIdentifierChar_of_isDigit) hcs ?_
    simp [scan?, isAsciiLetter_of_isDigit hc, hc]
  | @negative c cs hc hcs =>
    refine scans_run (p := Char.isDigit) ['-', c] (fun cs => by simp [chars]) (fun _ => isIdentifierChar_of_isDigit)
      hcs ?_
    have hletter : isAsciiLetter '-' = false := by decide
    have hdigit : '-'.isDigit = false := by decide
    simp [scan?, hletter, hdigit, hc]
  | @string pieces hpieces =>
    refine .inl ?_
    have hbody := stringBody?_pieces hpieces rest
    have hletter : isAsciiLetter '"' = false := by decide
    have hdigit : '"'.isDigit = false := by decide
    simp [chars, scan?, hletter, hdigit, hbody]
  | @character piece hpiece =>
    refine .inl ?_
    have hbody := characterBody?_piece hpiece rest
    have hletter : isAsciiLetter '\'' = false := by decide
    have hdigit : '\''.isDigit = false := by decide
    simp [chars, scan?, hletter, hdigit, hbody]
  | symbol s => exact scans_symbol s rest

/-! ## The longest lexeme -/

/-- The lexer takes the longest lexeme at the start of a text. -/
theorem scan?_eq_some_iff {text rest : List Char} {l : Lexeme} : scan? text = some (l, rest) ↔ Longest text l rest := by
  constructor
  · intro hscan
    obtain ⟨hl, hsplit⟩ := formed_of_scan? hscan
    refine ⟨hl, hsplit, fun l' rest' hl' hsplit' => ?_⟩
    subst hsplit'
    rcases hl'.scans rest' with hsame | ⟨-, l₂, rest₂, hlonger, hlt⟩
    · cases hscan.symm.trans hsame
      exact Nat.le_refl _
    · cases hscan.symm.trans hlonger
      exact Nat.le_of_lt hlt
  · rintro ⟨hl, rfl, hlongest⟩
    rcases hl.scans rest with hsame | ⟨-, l₂, rest₂, hlonger, hlt⟩
    · exact hsame
    · obtain ⟨hl₂, hsplit⟩ := formed_of_scan? hlonger
      have hle := hlongest l₂ rest₂ hl₂ hsplit
      omega

theorem longest_of_boundary {l : Lexeme} (hl : l.Formed) {rest : List Char} (hrest : Boundary rest) :
    Longest (l.chars ++ rest) l rest := by
  rcases hl.scans rest with hscan | ⟨hnot, -⟩
  · exact scan?_eq_some_iff.mp hscan
  · exact absurd hrest hnot

end Lexeme

end TermMachine
