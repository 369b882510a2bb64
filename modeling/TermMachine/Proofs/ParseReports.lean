import TermMachine.Proofs.FirstOffence

/-!
# What a rejected input is told

When a token list is no term, the error reported is the one furthest into the input of all that were recorded. It goes no
further than a term can begin (`RecordedErrors`) and not less far (`FirstOffence`), so it is about the first token that no
term can go on with.

Proved, for inputs in which no whole brace group mixes maplets and plain terms:
* `error_at_longest_viable_prefix`: the error shows the token behind the longest beginning of a term, or that the input has
  ended there.
* `expectations_continue_iff`: everything it expects can come there, but for a term. A term cannot come behind an entry of a
  brace group, where it is expected all the same unless a name stands last (`braces_expect_a_term`).
-/

namespace TermMachine.Grammar

open TermMachine.Parser

/-! ## The error at the offence -/

theorem Offends.not_viable {u more x : List Token} {token : Token} (h : Offends u (token :: more)) :
    ¬ Viable (u ++ token :: x) := by
  intro hviable
  obtain ⟨p, hp⟩ := hviable.follow
  rw [List.append_cons] at hp
  obtain ⟨q, hq, -⟩ := Place.follow_of_append hp
  rw [h token rfl] at hq
  cases hq

/-- An error that goes far enough and not too far is about the offence. -/
theorem justified_at_offence {w : List Token} {f : Option (Nat × ParseError)} (hjustified : KeepsJustified w f)
    (hreached : Reached w f) : ∃ left err, f = some (left, err) ∧ ∃ u rest, w = u ++ rest ∧ Justified u rest err ∧
      Offends u rest ∧ (InBraces u → .term ∈ err.expected) := by
  obtain ⟨u, rest, xs, hw, hoffends, hterm, left, err, hf, hleft⟩ := hreached
  obtain ⟨u', rest', hw', rfl, herr⟩ := hjustified left err hf
  refine ⟨_, err, hf, u, rest, hw, ?_⟩
  have hle : rest'.length ≤ rest.length := by omega
  -- the error is behind the offence, or at it
  obtain ⟨x, rfl, rfl⟩ : ∃ x, u' = u ++ x ∧ rest = x ++ rest' := by
    rcases List.append_eq_append_iff.mp (hw.symm.trans hw') with h | ⟨x, rfl, rfl⟩
    · exact h
    · rw [List.length_append] at hle
      obtain rfl : x = [] := List.eq_nil_of_length_eq_zero (by omega)
      exact ⟨[], by simp, by simp⟩
  cases x with
  | cons token x => exact absurd herr.viable hoffends.not_viable
  | nil =>
    rw [List.append_nil] at herr
    refine ⟨herr, hoffends, fun hbraces => ?_⟩
    rcases hleft with hlt | ⟨-, hexpected⟩
    · exact absurd hlt (Nat.lt_irrefl _)
    · exact hexpected _ (hterm hbraces)

/-- Behind a whole term any token offends that it could not have gone on with. -/
theorem Behind.offends {u rest : List Token} (h : Behind .term [] u rest) : Offends u rest := by
  obtain ⟨name, hu, hnext⟩ := h
  refine offends_behind hu fun s hs => ?_
  by_cases hcontinues : continues .term s = true
  · exact hnext s hs hcontinues
  · cases s with
    | openParen | ampersand | bar => exact absurd rfl hcontinues
    | _ => rfl

def trailing (token : Token) : ParseError := ⟨.trailingInput, [], some token.lexeme, some token.span⟩

/-- An input is rejected because a term is missing, or for what is behind the term. -/
theorem parse_error_cases {w : List Token} {e : ParseError} (h : Tree.parse w = .error e) :
    (∃ e' c, Parser.term ⟨w, none⟩ = .error e' c ∧ (c.furthest.map (·.2)).getD e' = e) ∨
      ∃ tree c token more, Parser.term ⟨w, none⟩ = .ok tree c ∧ c.rest = token :: more ∧
        ((c.record (trailing token)).furthest.map (·.2)).getD (trailing token) = e := by
  unfold Tree.parse at h
  split at h
  · split at h
    · cases h
    · exact .inr ⟨_, _, _, _, ‹_›, ‹_›, Except.error.inj h⟩
  · exact .inl ⟨_, _, ‹_›, Except.error.inj h⟩

/-- The error that is reported is right about an offence. -/
theorem first_offence {w : List Token} {e : ParseError} (h : Tree.parse w = .error e)
    (hw : ∀ m, m <:+: w → ¬ MixedGroup m) : ∃ u rest, w = u ++ rest ∧ Justified u rest e ∧ Offends u rest ∧
      (InBraces u → .term ∈ e.expected) := by
  have hready : Ready (w.length + 1) (Matches (.tree .term)) [] w :=
    ⟨hw, fun v hv => ⟨[], by simpa using hv⟩, Nat.lt_succ_self _⟩
  have hrecords : KeepsJustified w (cursorAfter (termWithin (w.length + 1)) ⟨w, none⟩).furthest :=
    (records_term (w.length + 1) [] ⟨w, none⟩).justified hready fun _ _ hf => nomatch hf
  have hfinds := finds_term hw (w.length + 1) []
  have hstart : Before [] [] w := ⟨false, rfl⟩
  obtain ⟨e', c, hc, he⟩ | ⟨tree, c, token, more, hc, hrest, he⟩ := parse_error_cases h
  · have hc : termWithin (w.length + 1) ⟨w, none⟩ = .error e' c := hc
    rw [cursorAfter_error hc] at hrecords
    have hreached : Reached w c.furthest := by
      rcases hfinds.error (u := []) rfl (Nat.lt_succ_self _) hstart hc with hreached | ⟨hplace, -⟩
      · exact hreached
      · cases hplace
    obtain ⟨left, known, hknown, hoffence⟩ := justified_at_offence hrecords hreached
    rw [hknown] at he
    exact he ▸ hoffence
  · have hc : termWithin (w.length + 1) ⟨w, none⟩ = .ok tree c := hc
    rw [cursorAfter_ok hc] at hrecords
    obtain ⟨v, hv, hderives⟩ := reads_term _ hc
    have hviable : Viable v := ⟨[], by simpa [Phrase.part] using hderives.matches⟩
    have htrailing : Justified v c.rest (trailing token) := by
      refine ⟨hviable, ?_, ?_, fun x hx => nomatch hx⟩ <;> rw [hrest] <;> rfl
    have hreached : Reached w (c.record (trailing token)).furthest := by
      rcases hfinds.ok (u := []) rfl (Nat.lt_succ_self _) hstart hc with hreached | ⟨v', hv', hbehind⟩
      · exact hreached.mono (noFurther_record _ _)
      · refine ⟨v', c.rest, _, hv', hbehind.offends, ?_, noted_record _ _⟩
        rintro ⟨name, g, gs, hgroups, -⟩
        obtain ⟨name', hplace, -⟩ := hbehind
        rw [List.nil_append, hgroups] at hplace
        cases hplace
    obtain ⟨left, known, hknown, hoffence⟩ := justified_at_offence (hrecords.record hv htrailing) hreached
    have hknown : (c.record (trailing token)).furthest = some (left, known) := hknown
    rw [hknown] at he
    exact he ▸ hoffence

/-! ## Where the error is -/

/-- The first `k` tokens can be completed to a term, and no more of them. -/
structure LongestViable (w : List Token) (k : Nat) : Prop where
  le : k ≤ w.length
  viable : Viable (w.take k)
  longest : ∀ j ≤ w.length, Viable (w.take j) → j ≤ k

theorem longestViable_of_offends {u rest : List Token} (hviable : Viable u) (hoffends : Offends u rest) :
    LongestViable (u ++ rest) u.length where
  le := by simp
  viable := by simpa using hviable
  longest j hj hlonger := by
    refine Nat.le_of_not_lt fun hlt => ?_
    obtain ⟨i, rfl⟩ : ∃ i, j = u.length + (i + 1) := ⟨j - u.length - 1, by omega⟩
    cases rest with
    | nil =>
      rw [List.append_nil] at hj
      omega
    | cons token more =>
      rw [List.take_length_add_append, List.take_succ_cons] at hlonger
      exact hoffends.not_viable hlonger

/-- A mixed brace group has an arrow in it. -/
theorem Matches.arrow_mem {part : Part} {u : List Token} (h : Matches part u) :
    match part with
    | .entry isMaplet => isMaplet = true → ∃ s, ⟨.symbol .mapsTo, s⟩ ∈ u
    | .entryTail maplets | .entries maplets => true ∈ maplets → ∃ s, ⟨.symbol .mapsTo, s⟩ ∈ u
    | _ => True := by
  induction h with
  | maplet => exact fun _ => ⟨_, List.mem_append_right _ (.head _)⟩
  | element => exact fun htrue => nomatch htrue
  | noEntryTail | noEntries => exact fun htrue => nomatch htrue
  | entryTail _ _ ih ihv | entries _ _ ih ihv =>
    intro htrue
    rcases List.mem_cons.mp htrue with htrue | htrue
    · obtain ⟨s, hs⟩ := ih htrue.symm
      exact ⟨s, by simp [hs]⟩
    · obtain ⟨s, hs⟩ := ihv htrue
      exact ⟨s, by simp [hs]⟩
  | _ => trivial

theorem not_mixed_of_no_arrow {w : List Token} (h : ∀ token ∈ w, token.lexeme ≠ .symbol .mapsTo) :
    ∀ m, m <:+: w → ¬ MixedGroup m := by
  rintro m hm ⟨a, b, v, maplets, rfl, hentries, htrue, -⟩
  obtain ⟨s, hs⟩ := hentries.arrow_mem htrue
  exact h ⟨.symbol .mapsTo, s⟩ (hm.subset (by simp [hs])) rfl

/-- The error is right about the place behind the longest beginning of a term. -/
theorem reported_at_longest {w : List Token} {e : ParseError} (h : Tree.parse w = .error e)
    (hw : ∀ m, m <:+: w → ¬ MixedGroup m) : ∃ k, LongestViable w k ∧ e.span = w[k]?.map Token.span ∧
      e.found = w[k]?.map Token.lexeme ∧ Justified (w.take k) (w.drop k) e ∧
      (InBraces (w.take k) → .term ∈ e.expected) := by
  obtain ⟨u, rest, rfl, herr, hoffends, hterm⟩ := first_offence h hw
  have hnext : (u ++ rest)[u.length]? = rest.head? := by
    rw [List.getElem?_append_right (Nat.le_refl _), Nat.sub_self, List.head?_eq_getElem?]
  refine ⟨u.length, longestViable_of_offends herr.viable hoffends, ?_, ?_, ?_⟩
  · rw [hnext, herr.span]
  · rw [hnext, herr.found]
  · rw [List.take_left, List.drop_left]
    exact ⟨herr, hterm⟩

/-- If a token list is rejected and no whole brace group in it mixes maplets and plain terms, then the error shows the
token behind the longest beginning of a term that it has, with its place, and no token and no place if that is all of it. -/
theorem error_at_longest_viable_prefix {w : List Token} {e : ParseError} (h : Tree.parse w = .error e)
    (hw : ∀ m, m <:+: w → ¬ MixedGroup m) :
    ∃ k, LongestViable w k ∧ e.span = w[k]?.map Token.span ∧ e.found = w[k]?.map Token.lexeme := by
  obtain ⟨k, hk, hspan, hfound, -⟩ := reported_at_longest h hw
  exact ⟨k, hk, hspan, hfound⟩

/-- The tokens of `f(1 2)`, for which the error shows the second number. -/
theorem error_at_longest_viable_prefix_call :
    let place := fun n : Nat => (⟨⟨0, n⟩, ⟨0, n + 1⟩⟩ : Span)
    let w : List Token := [⟨.identifier "f", place 0⟩, ⟨.symbol .openParen, place 1⟩, ⟨.integer "1", place 2⟩,
      ⟨.integer "2", place 4⟩, ⟨.symbol .closeParen, place 5⟩]
    let e : ParseError := ⟨.unexpectedToken, [.symbol .ampersand, .symbol .bar, .symbol .comma, .symbol .closeParen],
      some (.integer "2"), some (place 4)⟩
    Tree.parse w = .error e ∧ (∀ m, m <:+: w → ¬ MixedGroup m) ∧
      ∃ k, LongestViable w k ∧ e.span = w[k]?.map Token.span ∧ e.found = w[k]?.map Token.lexeme := by
  intro place w e
  have hparse : Tree.parse w = .error e := by rfl
  have hw : ∀ m, m <:+: w → ¬ MixedGroup m := not_mixed_of_no_arrow (by decide)
  exact ⟨hparse, hw, error_at_longest_viable_prefix hparse hw⟩

/-! ## What is expected there -/

/-- Behind an operand that is no name, no term can begin. -/
theorem not_continues_term {u : List Token} {gs : List Group} (hu : Place.start.follow u = some ⟨.behind false, gs⟩) :
    ¬ Continues u .term := by
  intro h
  obtain ⟨x, q, ⟨s, v, hterm⟩, hq⟩ := h.next hu
  obtain ⟨name, hfollow⟩ := hterm.leads false []
  obtain ⟨p, hp, -⟩ := Option.bind_eq_some_iff.mp hfollow
  cases x with
  | symbol s =>
    cases s with
    | openParen => cases hq
    | tilde | openBracket | openBrace =>
      obtain ⟨g, _, -, hg, -⟩ := Place.close_eq_some.mp hq
      cases g <;> cases hg
    | _ => cases hp
  | _ => cases hq

/-- If a token list is rejected and no whole brace group in it mixes maplets and plain terms, then the error points behind the
longest beginning of a term, and all that it expects but a term can come there. A term can come there too, or is not
expected, unless the beginning ends with an entry of a brace group that is still open and its last token is no name. -/
theorem expectations_continue_iff {w : List Token} {e : ParseError} (h : Tree.parse w = .error e)
    (hw : ∀ m, m <:+: w → ¬ MixedGroup m) :
    ∃ k, LongestViable w k ∧ e.span = w[k]?.map Token.span ∧ e.found = w[k]?.map Token.lexeme ∧
      (∀ x ∈ e.expected, x ≠ .term → Continues (w.take k) x) ∧
      ((∀ x ∈ e.expected, Continues (w.take k) x) ↔ ¬ (BehindEntry (w.take k) ∧ endsInName (w.take k) = false)) := by
  obtain ⟨k, hk, hspan, hfound, herr, hterm⟩ := reported_at_longest h hw
  refine ⟨k, hk, hspan, hfound, fun x hx hne => ?_, fun hall hexception => ?_, fun hexception x hx => ?_⟩
  · exact (herr.expected x hx).resolve_right fun ⟨heq, _⟩ => hne heq
  · -- a term is expected in the brace group
    obtain ⟨hentry, hname⟩ := hexception
    obtain ⟨name, g, gs, hu, hg⟩ := hentry.follow hk.viable
    cases name with
    | true =>
      rw [endsInName_of_follow hu] at hname
      cases hname
    | false => exact not_continues_term hu (hall _ (hterm ⟨false, g, gs, hu, hg⟩))
  · exact (herr.expected x hx).resolve_right fun ⟨_, hexpected⟩ => hexception hexpected

/-- The tokens of `[1 2]`: behind the first number there can be an operator, a comma or the bracket, and that is what the
error expects. -/
theorem expectations_continue_iff_list :
    let place := fun n : Nat => (⟨⟨0, n⟩, ⟨0, n + 1⟩⟩ : Span)
    let w : List Token := [⟨.symbol .openBracket, place 0⟩, ⟨.integer "1", place 1⟩, ⟨.integer "2", place 3⟩,
      ⟨.symbol .closeBracket, place 4⟩]
    let e : ParseError := ⟨.unexpectedToken, [.symbol .ampersand, .symbol .bar, .symbol .comma, .symbol .closeBracket],
      some (.integer "2"), some (place 3)⟩
    Tree.parse w = .error e ∧ (∀ m, m <:+: w → ¬ MixedGroup m) ∧
      ∃ k, LongestViable w k ∧ e.span = w[k]?.map Token.span ∧ e.found = w[k]?.map Token.lexeme ∧
        (∀ x ∈ e.expected, x ≠ .term → Continues (w.take k) x) ∧
        ((∀ x ∈ e.expected, Continues (w.take k) x) ↔
          ¬ (BehindEntry (w.take k) ∧ endsInName (w.take k) = false)) := by
  intro place w e
  have hparse : Tree.parse w = .error e := by rfl
  have hw : ∀ m, m <:+: w → ¬ MixedGroup m := not_mixed_of_no_arrow (by decide)
  exact ⟨hparse, hw, expectations_continue_iff hparse hw⟩

/-- The tokens of `{1 2}`: behind the first number, a term is expected that cannot come. -/
theorem braces_expect_a_term :
    let place := fun n : Nat => (⟨⟨0, n⟩, ⟨0, n + 1⟩⟩ : Span)
    let w : List Token := [⟨.symbol .openBrace, place 0⟩, ⟨.integer "1", place 1⟩, ⟨.integer "2", place 3⟩,
      ⟨.symbol .closeBrace, place 4⟩]
    let e : ParseError := ⟨.unexpectedToken,
      [.symbol .ampersand, .symbol .bar, .symbol .mapsTo, .symbol .comma, .symbol .closeBrace, .term],
      some (.integer "2"), some (place 3)⟩
    Tree.parse w = .error e ∧ (∀ m, m <:+: w → ¬ MixedGroup m) ∧ e.span = w[2]?.map Token.span ∧
      .term ∈ e.expected ∧ ¬ Continues (w.take 2) .term := by
  intro place w e
  exact ⟨by rfl, not_mixed_of_no_arrow (by decide), rfl, by decide, not_continues_term rfl⟩

end TermMachine.Grammar
