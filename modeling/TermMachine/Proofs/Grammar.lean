import TermMachine.Tree.Parser

/-!
# The parser finds what the grammar derives

`Derives u p` says that the tokens `u` are read as the phrase `p` by the rules of the grammar. There is
one constructor for a rule, so that a union or an intersection arises from two or more operands only.

A parser commits itself: it never returns to a choice that has led to a result. What it has read is
right nevertheless as long as the next token could not have been read too, which is what `Follow` asks
for. The parser's own bounds, on the depth of nesting and on the rounds of its loops, are numbers of
tokens and so never in the way.

Proved: `parse_of_derives`. If all of a token list is derived as a term then `Tree.parse` gives that term.
-/

namespace TermMachine

inductive Level where
  | primary | unary | intersection | term
  deriving DecidableEq

namespace Grammar

open TermMachine.Parser

inductive Phrase where
  | tree (l : Level) (t : Tree)
  /-- Trees of a level, each behind a separator. -/
  | tail (separator : Symbol) (l : Level) (ts : List Tree)
  | args (ts : List Tree)
  | entry (e : Tree × Option Tree)
  /-- Entries, each behind a comma. -/
  | entryTail (es : List (Tree × Option Tree))
  | entries (es : List (Tree × Option Tree))

inductive Derives : List Token → Phrase → Prop
  | integer {text : String} {s : Span} : Derives [⟨.integer text, s⟩] (.tree .primary (.integer text s))
  | string {text : String} {s : Span} : Derives [⟨.string text, s⟩] (.tree .primary (.string text s))
  | character {text : String} {s : Span} : Derives [⟨.character text, s⟩] (.tree .primary (.character text s))
  | name {text : String} {s : Span} : Derives [⟨.identifier text, s⟩] (.tree .primary (.name text s))
  | call {text : String} {s a b : Span} {u : List Token} {ts : List Tree} : Derives u (.args ts) →
      Derives (⟨.identifier text, s⟩ :: ⟨.symbol .openParen, a⟩ :: (u ++ [⟨.symbol .closeParen, b⟩]))
        (.tree .primary (.call text ts (s.to (a.to b))))
  | group {a b : Span} {u : List Token} {ts : List Tree} : Derives u (.args ts) →
      Derives (⟨.symbol .openParen, a⟩ :: (u ++ [⟨.symbol .closeParen, b⟩]))
        (.tree .primary (.sequence ts (a.to b)))
  | list {a b : Span} {u : List Token} {ts : List Tree} : Derives u (.args ts) →
      Derives (⟨.symbol .openBracket, a⟩ :: (u ++ [⟨.symbol .closeBracket, b⟩]))
        (.tree .primary (.list ts (a.to b)))
  | braces {a b : Span} {u : List Token} {es : List (Tree × Option Tree)} {t : Tree} : Derives u (.entries es) →
      ofEntries? es (a.to b) = some t →
      Derives (⟨.symbol .openBrace, a⟩ :: (u ++ [⟨.symbol .closeBrace, b⟩])) (.tree .primary t)
  | plain {u : List Token} {t : Tree} : Derives u (.tree .primary t) → Derives u (.tree .unary t)
  | complement {s : Span} {u : List Token} {t : Tree} : Derives u (.tree .unary t) →
      Derives (⟨.symbol .tilde, s⟩ :: u) (.tree .unary (.complement t (s.to t.span)))
  | oneUnary {u : List Token} {t : Tree} : Derives u (.tree .unary t) → Derives u (.tree .intersection t)
  | intersection {u v : List Token} {t last : Tree} {ts : List Tree} : Derives u (.tree .unary t) →
      Derives v (.tail .ampersand .unary ts) → ts.getLast? = some last →
      Derives (u ++ v) (.tree .intersection (.intersection (t :: ts) (t.span.to last.span)))
  | oneIntersection {u : List Token} {t : Tree} : Derives u (.tree .intersection t) → Derives u (.tree .term t)
  | union {u v : List Token} {t last : Tree} {ts : List Tree} : Derives u (.tree .intersection t) →
      Derives v (.tail .bar .intersection ts) → ts.getLast? = some last →
      Derives (u ++ v) (.tree .term (.union (t :: ts) (t.span.to last.span)))
  | noTail {separator : Symbol} {l : Level} : Derives [] (.tail separator l [])
  | tail {separator : Symbol} {l : Level} {s : Span} {u v : List Token} {t : Tree} {ts : List Tree} :
      Derives u (.tree l t) → Derives v (.tail separator l ts) →
      Derives (⟨.symbol separator, s⟩ :: (u ++ v)) (.tail separator l (t :: ts))
  | noArgs : Derives [] (.args [])
  | args {u v : List Token} {t : Tree} {ts : List Tree} : Derives u (.tree .term t) →
      Derives v (.tail .comma .term ts) → Derives (u ++ v) (.args (t :: ts))
  | element {u : List Token} {t : Tree} : Derives u (.tree .term t) → Derives u (.entry (t, none))
  | maplet {s : Span} {u v : List Token} {key value : Tree} : Derives u (.tree .term key) →
      Derives v (.tree .term value) →
      Derives (u ++ ⟨.symbol .mapsTo, s⟩ :: v) (.entry (key, some value))
  | noEntryTail : Derives [] (.entryTail [])
  | entryTail {s : Span} {u v : List Token} {e : Tree × Option Tree} {es : List (Tree × Option Tree)} :
      Derives u (.entry e) → Derives v (.entryTail es) →
      Derives (⟨.symbol .comma, s⟩ :: (u ++ v)) (.entryTail (e :: es))
  | noEntries : Derives [] (.entries [])
  | entries {u v : List Token} {e : Tree × Option Tree} {es : List (Tree × Option Tree)} :
      Derives u (.entry e) → Derives v (.entryTail es) → Derives (u ++ v) (.entries (e :: es))

/-! ## What may follow -/

def lead : List Token → Option Symbol
  | ⟨.symbol s, _⟩ :: _ => some s
  | _ => none

/-- The symbols with which a tree of a level could go on. -/
def continues : Level → Symbol → Bool
  | .primary, s | .unary, s => s == .openParen
  | .intersection, s => s == .openParen || s == .ampersand
  | .term, s => s == .openParen || s == .ampersand || s == .bar

/-- No tree of the level could take the next token. -/
def Follow (l : Level) (rest : List Token) : Prop := ∀ s, lead rest = some s → continues l s = false

def isClosing (s : Symbol) : Bool := s == .closeParen || s == .closeBracket || s == .closeBrace

def Closed (rest : List Token) : Prop := ∃ s, lead rest = some s ∧ isClosing s = true

theorem Follow.cons {l : Level} {s : Symbol} {span : Span} {rest : List Token} (h : continues l s = false) :
    Follow l (⟨.symbol s, span⟩ :: rest) := by
  intro s' hs'
  cases hs'
  exact h

theorem Closed.follow {rest : List Token} (h : Closed rest) (l : Level) : Follow l rest := by
  obtain ⟨s, hlead, hs⟩ := h
  intro s' hs'
  rw [hlead] at hs'
  cases hs'
  cases s <;> simp [isClosing] at hs <;> cases l <;> rfl

theorem Closed.lead_ne {rest : List Token} (h : Closed rest) {s : Symbol} (hs : isClosing s = false) :
    lead rest ≠ some s := by
  obtain ⟨s', hlead, hs'⟩ := h
  rw [hlead]
  rintro ⟨⟩
  rw [hs] at hs'
  cases hs'

theorem Follow.mono {l l' : Level} {rest : List Token} (h : Follow l rest)
    (hle : ∀ s, continues l' s = true → continues l s = true) : Follow l' rest := by
  intro s hs
  have hl := h s hs
  rcases hc : continues l' s with _ | _
  · rfl
  · rw [hle s hc] at hl
    cases hl

theorem Follow.intersection {rest : List Token} (h : Follow .term rest) : Follow .intersection rest :=
  h.mono fun s hs => by cases s <;> simp_all [continues]

theorem Follow.unary {rest : List Token} (h : Follow .intersection rest) : Follow .unary rest :=
  h.mono fun s hs => by cases s <;> simp_all [continues]

theorem Follow.lead_ne {l : Level} {rest : List Token} (h : Follow l rest) {s : Symbol}
    (hs : continues l s = true) : lead rest ≠ some s := by
  intro hlead
  rw [h s hlead] at hs
  cases hs

/-! ## Parsers on a known input -/

variable {α β : Type}

/-- The parser reads `u` as `a` and stops at `rest`, whatever error was met before. -/
def Parses (p : Parser α) (u : List Token) (a : α) (rest : List Token) : Prop :=
  ∀ f, ∃ f', p ⟨u ++ rest, f⟩ = .ok a ⟨rest, f'⟩

/-- The parser does not accept what is next. -/
def Fails (p : Parser α) (rest : List Token) : Prop := ∀ f, ∃ e c, p ⟨rest, f⟩ = .error e c

theorem bind_ok {p : Parser α} {q : α → Parser β} {c c' : Cursor} {a : α} (h : p c = .ok a c') :
    (p >>= q) c = q a c' := by
  show EStateM.bind p q c = _
  simp only [EStateM.bind, h]

theorem bind_error {p : Parser α} {q : α → Parser β} {c c' : Cursor} {e : ParseError} (h : p c = .error e c') :
    (p >>= q) c = .error e c' := by
  show EStateM.bind p q c = _
  simp only [EStateM.bind, h]

theorem Parses.pure (a : α) (rest : List Token) : Parses (pure a) [] a rest := fun f => ⟨f, rfl⟩

theorem Parses.bind {p : Parser α} {q : α → Parser β} {u v rest : List Token} {a : α} {b : β}
    (hp : Parses p u a (v ++ rest)) (hq : Parses (q a) v b rest) : Parses (p >>= q) (u ++ v) b rest := by
  intro f
  obtain ⟨f₁, h₁⟩ := hp f
  obtain ⟨f₂, h₂⟩ := hq f₁
  refine ⟨f₂, ?_⟩
  rw [List.append_assoc, bind_ok h₁]
  exact h₂

theorem Parses.bind_nil {p : Parser α} {q : α → Parser β} {u rest : List Token} {a : α} {b : β}
    (hp : Parses p u a rest) (hq : Parses (q a) [] b rest) : Parses (p >>= q) u b rest := by
  have := Parses.bind (v := []) hp hq
  rwa [List.append_nil] at this

theorem Parses.nil_bind {p : Parser α} {q : α → Parser β} {u rest : List Token} {a : α} {b : β}
    (hp : Parses p [] a (u ++ rest)) (hq : Parses (q a) u b rest) : Parses (p >>= q) u b rest := by
  have := Parses.bind (u := []) hp hq
  rwa [List.nil_append] at this

theorem Fails.bind {p : Parser α} {q : α → Parser β} {rest : List Token} (hp : Fails p rest) :
    Fails (p >>= q) rest := by
  intro f
  obtain ⟨e, c, h⟩ := hp f
  exact ⟨e, c, bind_error h⟩

theorem Parses.orElse_left {p q : Parser α} {u rest : List Token} {a : α} (hp : Parses p u a rest) :
    Parses (orElse p q) u a rest := by
  intro f
  obtain ⟨f', h⟩ := hp f
  exact ⟨f', by simp only [orElse, h]⟩

theorem Parses.orElse_right {p q : Parser α} {u rest : List Token} {a : α} (hp : Fails p (u ++ rest))
    (hq : Parses q u a rest) : Parses (orElse p q) u a rest := by
  intro f
  obtain ⟨e, c, h⟩ := hp f
  obtain ⟨f', h'⟩ := hq c.furthest
  exact ⟨f', by simpa only [orElse, h] using h'⟩

theorem Fails.orElse {p q : Parser α} {rest : List Token} (hp : Fails p rest) (hq : Fails q rest) :
    Fails (orElse p q) rest := by
  intro f
  obtain ⟨e, c, h⟩ := hp f
  obtain ⟨e', c', h'⟩ := hq c.furthest
  exact ⟨e', c', by simpa only [Parser.orElse, h] using h'⟩

theorem Parses.optional {p : Parser α} {u rest : List Token} {a : α} (hp : Parses p u a rest) :
    Parses (optional p) u (some a) rest := by
  intro f
  obtain ⟨f', h⟩ := hp f
  exact ⟨f', by simp only [Parser.optional, h]⟩

theorem Fails.optional {p : Parser α} {rest : List Token} (hp : Fails p rest) :
    Parses (optional p) [] none rest := by
  intro f
  obtain ⟨e, c, h⟩ := hp f
  refine ⟨c.furthest, ?_⟩
  simp only [Parser.optional, List.nil_append, h]

theorem Parses.label {p : Parser α} {x : Expectation} {u rest : List Token} {a : α} (hp : Parses p u a rest) :
    Parses (label x p) u a rest := by
  intro f
  obtain ⟨f', h⟩ := hp f
  exact ⟨f', by simp only [Parser.label, h]⟩

theorem Fails.label {p : Parser α} {x : Expectation} {rest : List Token} (hp : Fails p rest) :
    Fails (label x p) rest := by
  intro f
  obtain ⟨e, c, h⟩ := hp f
  exact ⟨_, _, by simp only [Parser.label, h]; rfl⟩

theorem parses_symbol (s : Symbol) (span : Span) (rest : List Token) :
    Parses (symbol s) [⟨.symbol s, span⟩] span rest := by
  intro f
  exact ⟨f, by simp [symbol]⟩

theorem fails_symbol {s : Symbol} {rest : List Token} (h : lead rest ≠ some s) : Fails (symbol s) rest := by
  intro f
  unfold symbol
  split
  · rename_i s' span rest' heq
    have hne : s' ≠ s := by
      rintro rfl
      simp only at heq
      rw [heq] at h
      exact h rfl
    simp only [hne, if_false]
    exact ⟨_, _, rfl⟩
  · exact ⟨_, _, rfl⟩

/-- Items behind a separator, as many as there are. -/
theorem Parses.manyWithin_cons {p : Parser α} {u v rest : List Token} {a : α} {as : List α} {rounds : Nat}
    (hp : Parses p u a (v ++ rest)) (hmore : Parses (manyWithin p rounds) v as rest) :
    Parses (manyWithin p (rounds + 1)) (u ++ v) (a :: as) rest := by
  simp only [manyWithin]
  exact hp.optional.bind (hmore.bind_nil (.pure _ _))

theorem Fails.manyWithin {p : Parser α} {rest : List Token} (hp : Fails p rest) (rounds : Nat) :
    Parses (manyWithin p rounds) [] [] rest := by
  cases rounds with
  | zero => exact .pure _ _
  | succ rounds =>
    simp only [Parser.manyWithin]
    exact hp.optional.bind_nil (.pure _ _)

theorem Parses.many {p : Parser α} {u rest : List Token} {as : List α}
    (h : ∀ rounds, u.length < rounds → Parses (manyWithin p rounds) u as rest) : Parses (many p) u as rest := by
  intro f
  exact h ((u ++ rest).length + 1) (by rw [List.length_append]; omega) f

theorem Parses.delimited {item : Parser α} {opening closing : Symbol} {a b : Span} {u rest : List Token}
    {as : List α} (h : Parses (commaSeparated item) u as (⟨.symbol closing, b⟩ :: rest)) :
    Parses (delimited opening closing item) (⟨.symbol opening, a⟩ :: (u ++ [⟨.symbol closing, b⟩]))
      (as, a.to b) rest := by
  refine (parses_symbol opening a _).bind ?_
  refine h.bind ?_
  exact (parses_symbol closing b rest).bind_nil (.pure _ _)

theorem Fails.delimited {item : Parser α} {opening closing : Symbol} {rest : List Token}
    (h : lead rest ≠ some opening) : Fails (delimited opening closing item) rest :=
  Fails.bind (fails_symbol h)

theorem fails_literal {s : Symbol} {span : Span} {rest : List Token} :
    Fails literal (⟨.symbol s, span⟩ :: rest) := fun _ => ⟨_, _, rfl⟩

theorem fails_literal_name {text : String} {span : Span} {rest : List Token} :
    Fails literal (⟨.identifier text, span⟩ :: rest) := fun _ => ⟨_, _, rfl⟩

theorem fails_identifier {s : Symbol} {span : Span} {rest : List Token} :
    Fails identifier (⟨.symbol s, span⟩ :: rest) := fun _ => ⟨_, _, rfl⟩

/-! ## Levels -/

def startsNothing (s : Symbol) : Bool :=
  s != .openParen && s != .openBracket && s != .openBrace && s != .tilde

section
variable {term : Parser Tree} {s : Symbol} {span : Span} {rest : List Token}

theorem fails_primary (hs : startsNothing s = true) : Fails (primary term) (⟨.symbol s, span⟩ :: rest) := by
  simp only [startsNothing, bne_iff_ne, Bool.and_eq_true] at hs
  obtain ⟨⟨⟨hparen, hbracket⟩, hbrace⟩, -⟩ := hs
  have hlead : ∀ s', s ≠ s' → lead (⟨.symbol s, span⟩ :: rest) ≠ some s' := by
    intro s' hne h
    cases h
    exact hne rfl
  refine Fails.label (Fails.orElse (Fails.orElse (Fails.orElse (Fails.orElse ?_ ?_) ?_) ?_) ?_)
  · exact fails_literal
  · exact Fails.bind fails_identifier
  · exact Fails.bind (Fails.delimited (hlead _ hparen))
  · exact Fails.bind (Fails.delimited (hlead _ hbracket))
  · exact Fails.bind (Fails.delimited (hlead _ hbrace))

theorem fails_unary (hs : startsNothing s = true) : Fails (unary term) (⟨.symbol s, span⟩ :: rest) := by
  have htilde : lead (⟨.symbol s, span⟩ :: rest) ≠ some .tilde := by
    rintro ⟨⟩
    cases hs
  intro f
  obtain ⟨f', h⟩ := (fails_symbol htilde).optional f
  obtain ⟨e, c, hprimary⟩ : ∃ e c, primary term ⟨⟨.symbol s, span⟩ :: rest, f'⟩ = .error e c := fails_primary hs f'
  refine ⟨e, c, ?_⟩
  simp only [unary, unaryWithin, List.length_cons]
  rw [List.nil_append] at h
  rw [bind_ok h]
  exact hprimary

theorem fails_term (hs : startsNothing s = true) (depth : Nat) :
    Fails (termWithin (depth + 1)) (⟨.symbol s, span⟩ :: rest) :=
  Fails.bind (Fails.bind (fails_unary hs))

end

theorem fails_term_closed {rest : List Token} (h : Closed rest) (depth : Nat) :
    Fails (termWithin (depth + 1)) rest := by
  obtain ⟨s, hlead, hs⟩ := h
  match rest, hlead with
  | ⟨.symbol s', span⟩ :: rest, hlead =>
    cases hlead
    refine fails_term ?_ depth
    cases s <;> simp [isClosing] at hs <;> rfl

/-! ## Completeness -/

def parserAt (depth : Nat) : Level → Parser Tree
  | .primary => primary (termWithin depth)
  | .unary => unary (termWithin depth)
  | .intersection => Parser.intersection (termWithin depth)
  | .term => termWithin (depth + 1)

/-- What the parser makes of the tokens of a phrase. The depth that it is given need not exceed their number. -/
def Parsed (u : List Token) : Phrase → Prop
  | .tree .unary t => ∀ depth rounds rest, u.length ≤ depth → u.length < rounds → Follow .unary rest →
      Parses (unaryWithin (termWithin depth) rounds) u t rest
  | .tree l t => ∀ depth rest, u.length ≤ depth → Follow l rest → Parses (parserAt depth l) u t rest
  | .tail separator l ts => ∀ depth rounds rest, u.length ≤ depth → u.length < rounds →
      continues l separator = false → Follow l rest → lead rest ≠ some separator →
      Parses (manyWithin (do let _ ← symbol separator; parserAt depth l) rounds) u ts rest
  | .args ts => ∀ depth rest, u.length ≤ depth → Closed rest →
      Parses (commaSeparated (termWithin (depth + 1))) u ts rest
  | .entry e => ∀ depth rest, u.length ≤ depth → Follow .term rest → lead rest ≠ some .mapsTo →
      Parses (entry (termWithin (depth + 1))) u e rest
  | .entryTail es => ∀ depth rounds rest, u.length ≤ depth → u.length < rounds → Closed rest →
      Parses (manyWithin (do let _ ← symbol .comma; entry (termWithin (depth + 1))) rounds) u es rest
  | .entries es => ∀ depth rest, u.length ≤ depth → Closed rest →
      Parses (commaSeparated (entry (termWithin (depth + 1)))) u es rest

theorem Parsed.at {u : List Token} {l : Level} {t : Tree} (h : Parsed u (.tree l t)) {depth : Nat}
    {rest : List Token} (hdepth : u.length ≤ depth) (hrest : Follow l rest) :
    Parses (parserAt depth l) u t rest := by
  cases l with
  | unary =>
    intro f
    exact h depth ((u ++ rest).length + 1) rest hdepth (by rw [List.length_append]; omega) hrest f
  | primary => exact h depth rest hdepth hrest
  | intersection => exact h depth rest hdepth hrest
  | term => exact h depth rest hdepth hrest

/-- No primary begins with a tilde. -/
theorem lead_primary {u rest : List Token} {t : Tree} (h : Derives u (.tree .primary t)) :
    lead (u ++ rest) ≠ some .tilde := by
  cases h <;> simp [lead]

section
variable {depth : Nat} {u rest : List Token} {a b : Span}

/-- Arguments between delimiters. -/
theorem Parsed.delimited {opening closing : Symbol} {ts : List Tree} (h : Parsed u (.args ts))
    (hu : u.length < depth) (hclosing : isClosing closing = true) :
    Parses (delimited opening closing (termWithin depth))
      (⟨.symbol opening, a⟩ :: (u ++ [⟨.symbol closing, b⟩])) (ts, a.to b) rest := by
  obtain ⟨depth, rfl⟩ : ∃ k, depth = k + 1 := ⟨depth - 1, by omega⟩
  exact Parses.delimited (h depth _ (by omega) ⟨_, rfl, hclosing⟩)

theorem parses_name {text : String} {s : Span} (hrest : Follow .primary rest) :
    Parses (primary (termWithin depth)) [⟨.identifier text, s⟩] (.name text s) rest := by
  refine .label (.orElse_left (.orElse_left (.orElse_left (.orElse_right fails_literal_name ?_))))
  have hname : Parses identifier [⟨.identifier text, s⟩] (text, s) rest := fun f => ⟨f, rfl⟩
  have hnone : lead rest ≠ some .openParen := hrest.lead_ne rfl
  refine hname.bind_nil ?_
  exact (Fails.optional (Fails.delimited hnone)).bind_nil (.pure _ _)

theorem parses_call {text : String} {s : Span} {ts : List Tree} (h : Parsed u (.args ts)) (hu : u.length < depth) :
    Parses (primary (termWithin depth))
      (⟨.identifier text, s⟩ :: ⟨.symbol .openParen, a⟩ :: (u ++ [⟨.symbol .closeParen, b⟩]))
      (.call text ts (s.to (a.to b))) rest := by
  refine .label (.orElse_left (.orElse_left (.orElse_left (.orElse_right fails_literal_name ?_))))
  have hname : Parses identifier [⟨.identifier text, s⟩] (text, s)
      (⟨.symbol .openParen, a⟩ :: (u ++ [⟨.symbol .closeParen, b⟩]) ++ rest) := fun f => ⟨f, rfl⟩
  refine hname.bind ?_
  exact (h.delimited hu rfl).optional.bind_nil (.pure _ _)

theorem parses_group {ts : List Tree} (h : Parsed u (.args ts)) (hu : u.length < depth) :
    Parses (primary (termWithin depth)) (⟨.symbol .openParen, a⟩ :: (u ++ [⟨.symbol .closeParen, b⟩]))
      (.sequence ts (a.to b)) rest := by
  refine .label (.orElse_left (.orElse_left (.orElse_right (.orElse fails_literal (.bind fails_identifier)) ?_)))
  exact (h.delimited hu rfl).bind_nil (.pure _ _)

theorem parses_list {ts : List Tree} (h : Parsed u (.args ts)) (hu : u.length < depth) :
    Parses (primary (termWithin depth)) (⟨.symbol .openBracket, a⟩ :: (u ++ [⟨.symbol .closeBracket, b⟩]))
      (.list ts (a.to b)) rest := by
  refine .label (.orElse_left (.orElse_right (.orElse (.orElse fails_literal (.bind fails_identifier)) ?_) ?_))
  · exact Fails.bind (Fails.delimited (by simp [lead]))
  · exact (h.delimited hu rfl).bind_nil (.pure _ _)

theorem parses_braces {es : List (Tree × Option Tree)} {t : Tree} (h : Parsed u (.entries es))
    (hu : u.length < depth) (ht : ofEntries? es (a.to b) = some t) :
    Parses (primary (termWithin depth)) (⟨.symbol .openBrace, a⟩ :: (u ++ [⟨.symbol .closeBrace, b⟩])) t rest := by
  obtain ⟨depth, rfl⟩ : ∃ k, depth = k + 1 := ⟨depth - 1, by omega⟩
  refine .label (.orElse_right (.orElse (.orElse (.orElse fails_literal (.bind fails_identifier)) ?_) ?_) ?_)
  · exact Fails.bind (Fails.delimited (by simp [lead]))
  · exact Fails.bind (Fails.delimited (by simp [lead]))
  · have hentries : Parses (commaSeparated (entry (termWithin (depth + 1)))) u es
        (⟨.symbol .closeBrace, b⟩ :: rest) := h depth _ (by omega) ⟨_, rfl, rfl⟩
    refine (Parses.delimited hentries).bind_nil ?_
    simp only [ht]
    exact .pure _ _

/-- Operands of which there is only one. -/
theorem parses_one_operand {separator : Symbol} {operand : Parser Tree} {wrap : List Tree → Span → Tree}
    {t : Tree} (h : Parses operand u t rest) (hrest : lead rest ≠ some separator) :
    Parses (operands separator operand wrap) u t rest := by
  refine h.bind_nil ?_
  have hmany : Parses (many (do let _ ← symbol separator; operand)) [] [] rest :=
    .many fun rounds _ => Fails.manyWithin (Fails.bind (fails_symbol hrest)) rounds
  exact hmany.bind_nil (.pure _ _)

/-- What is behind separators begins with one, or there is nothing. -/
theorem follow_tail {separator : Symbol} {l : Level} {v : List Token} {ts : List Tree}
    (h : Derives v (.tail separator l ts)) (hl : continues l separator = false) (hrest : Follow l rest) :
    Follow l (v ++ rest) := by
  cases h with
  | noTail => exact hrest
  | tail _ _ => exact .cons hl

theorem follow_entryTail {v : List Token} {es : List (Tree × Option Tree)} (h : Derives v (.entryTail es))
    (hrest : Closed rest) : Follow .term (v ++ rest) ∧ lead (v ++ rest) ≠ some .mapsTo := by
  cases h with
  | noEntryTail => exact ⟨hrest.follow .term, hrest.lead_ne rfl⟩
  | entryTail _ _ => exact ⟨.cons rfl, by simp [lead]⟩

/-- Operands of which there are more. -/
theorem parses_operands {separator : Symbol} {l : Level} {wrap : List Tree → Span → Tree} {v : List Token}
    {t last : Tree} {ts : List Tree} (ht : Parsed u (.tree l t)) (hts : Parsed v (.tail separator l ts))
    (hv : Derives v (.tail separator l ts)) (hlast : ts.getLast? = some last) (hu : (u ++ v).length ≤ depth)
    (hl : continues l separator = false) (hrest : Follow l rest) (hne : lead rest ≠ some separator) :
    Parses (operands separator (parserAt depth l) wrap) (u ++ v) (wrap (t :: ts) (t.span.to last.span)) rest := by
  rw [List.length_append] at hu
  refine (ht.at (by omega) (follow_tail hv hl hrest)).bind ?_
  have hmany : Parses (many (do let _ ← symbol separator; parserAt depth l)) v ts rest :=
    .many fun rounds hrounds => hts depth rounds rest (by omega) hrounds hl hrest hne
  refine hmany.bind_nil ?_
  simp only [hlast]
  exact .pure _ _

/-- Items behind a comma, after the first. -/
theorem parses_commaSeparated {α : Type} {item : Parser α} {v : List Token} {x : α} {xs : List α}
    (hx : Parses item u x (v ++ rest))
    (hxs : ∀ rounds, v.length < rounds → Parses (manyWithin (do let _ ← symbol .comma; item) rounds) v xs rest) :
    Parses (commaSeparated item) (u ++ v) (x :: xs) rest := by
  refine hx.optional.bind ?_
  exact (Parses.many hxs).bind_nil (.pure _ _)

end

/-- The parser reads every phrase that the grammar derives. -/
theorem Derives.parsed {u : List Token} {p : Phrase} (h : Derives u p) : Parsed u p := by
  induction h with
  | integer => exact fun depth rest _ _ => .label (.orElse_left (.orElse_left (.orElse_left (.orElse_left
      fun f => ⟨f, rfl⟩))))
  | string => exact fun depth rest _ _ => .label (.orElse_left (.orElse_left (.orElse_left (.orElse_left
      fun f => ⟨f, rfl⟩))))
  | character => exact fun depth rest _ _ => .label (.orElse_left (.orElse_left (.orElse_left (.orElse_left
      fun f => ⟨f, rfl⟩))))
  | name => exact fun depth rest _ hrest => parses_name hrest
  | call _ ih => exact fun depth rest hu _ => parses_call ih (by simp at hu; omega)
  | group _ ih => exact fun depth rest hu _ => parses_group ih (by simp at hu; omega)
  | list _ ih => exact fun depth rest hu _ => parses_list ih (by simp at hu; omega)
  | braces _ ht ih => exact fun depth rest hu _ => parses_braces ih (by simp at hu; omega) ht
  | plain h ih =>
    intro depth rounds rest hu hrounds hrest
    obtain ⟨rounds, rfl⟩ : ∃ k, rounds = k + 1 := ⟨rounds - 1, by omega⟩
    simp only [unaryWithin]
    exact (Fails.optional (fails_symbol (lead_primary h))).nil_bind (ih depth rest hu (hrest.mono fun _ hs => hs))
  | @complement s u t h ih =>
    intro depth rounds rest hu hrounds hrest
    simp only [List.length_cons] at hu hrounds
    obtain ⟨rounds, rfl⟩ : ∃ k, rounds = k + 1 := ⟨rounds - 1, by omega⟩
    have htilde := (parses_symbol .tilde s (u ++ rest)).optional
    simp only [unaryWithin]
    refine htilde.bind ?_
    exact (ih depth rounds rest (by omega) (by omega) hrest).bind_nil (.pure _ _)
  | oneUnary h ih =>
    intro depth rest hu hrest
    exact parses_one_operand (ih.at hu hrest.unary) (hrest.lead_ne rfl)
  | intersection h hv hlast ih ihv =>
    intro depth rest hu hrest
    exact parses_operands ih ihv hv hlast hu rfl hrest.unary (hrest.lead_ne rfl)
  | oneIntersection h ih =>
    intro depth rest hu hrest
    exact parses_one_operand (ih.at hu hrest.intersection) (hrest.lead_ne rfl)
  | union h hv hlast ih ihv =>
    intro depth rest hu hrest
    exact parses_operands ih ihv hv hlast hu rfl hrest.intersection (hrest.lead_ne rfl)
  | noTail =>
    intro depth rounds rest _ _ _ _ hne
    exact Fails.manyWithin (Fails.bind (fails_symbol hne)) rounds
  | @tail separator l s u v t ts h hv ih ihv =>
    intro depth rounds rest hu hrounds hl hrest hne
    simp only [List.length_cons, List.length_append] at hu hrounds
    obtain ⟨rounds, rfl⟩ : ∃ k, rounds = k + 1 := ⟨rounds - 1, by omega⟩
    have hfirst : Parses (do let _ ← symbol separator; parserAt depth l) (⟨.symbol separator, s⟩ :: u) t (v ++ rest) :=
      (parses_symbol separator s _).bind (ih.at (by omega) (follow_tail hv hl hrest))
    exact hfirst.manyWithin_cons (ihv depth rounds rest (by omega) (by omega) hl hrest hne)
  | noArgs =>
    intro depth rest _ hrest
    exact (Fails.optional (fails_term_closed hrest depth)).bind_nil (.pure _ _)
  | args h hv ih ihv =>
    intro depth rest hu hrest
    simp only [List.length_append] at hu
    have hfollow := follow_tail hv rfl (hrest.follow .term)
    refine parses_commaSeparated (ih depth _ (by omega) hfollow) fun rounds hrounds => ?_
    exact ihv depth rounds rest (by omega) hrounds rfl (hrest.follow .term) (hrest.lead_ne rfl)
  | element h ih =>
    intro depth rest hu hrest hne
    refine (ih depth rest hu hrest).bind_nil ?_
    exact (Fails.optional (Fails.bind (fails_symbol hne))).bind_nil (.pure _ _)
  | @maplet s u v key value h hv ih ihv =>
    intro depth rest hu hrest hne
    simp only [List.length_append, List.length_cons] at hu
    have hvalue : Parses (do let _ ← symbol .mapsTo; termWithin (depth + 1)) (⟨.symbol .mapsTo, s⟩ :: v) value rest :=
      (parses_symbol .mapsTo s _).bind (ihv depth rest (by omega) hrest)
    refine (ih depth _ (by omega) (.cons rfl)).bind ?_
    exact hvalue.optional.bind_nil (.pure _ _)
  | noEntryTail =>
    intro depth rounds rest _ _ hrest
    exact Fails.manyWithin (Fails.bind (fails_symbol (hrest.lead_ne rfl))) rounds
  | @entryTail s u v e es h hv ih ihv =>
    intro depth rounds rest hu hrounds hrest
    simp only [List.length_cons, List.length_append] at hu hrounds
    obtain ⟨rounds, rfl⟩ : ∃ k, rounds = k + 1 := ⟨rounds - 1, by omega⟩
    obtain ⟨hfollow, hne⟩ := follow_entryTail hv hrest
    have hfirst : Parses (do let _ ← symbol .comma; entry (termWithin (depth + 1))) (⟨.symbol .comma, s⟩ :: u) e
        (v ++ rest) := (parses_symbol .comma s _).bind (ih depth _ (by omega) hfollow hne)
    exact hfirst.manyWithin_cons (ihv depth rounds rest (by omega) (by omega) hrest)
  | noEntries =>
    intro depth rest _ hrest
    exact (Fails.optional (Fails.bind (fails_term_closed hrest depth))).bind_nil (.pure _ _)
  | entries h hv ih ihv =>
    intro depth rest hu hrest
    simp only [List.length_append] at hu
    obtain ⟨hfollow, hne⟩ := follow_entryTail hv hrest
    refine parses_commaSeparated (ih depth _ (by omega) hfollow hne) fun rounds hrounds => ?_
    exact ihv depth rounds rest (by omega) hrounds hrest

/-- A token list that is derived as a term is parsed as it. -/
theorem parse_of_derives {u : List Token} {t : Tree} (h : Derives u (.tree .term t)) : Tree.parse u = .ok t := by
  have hend : Follow .term [] := fun s hs => nomatch hs
  obtain ⟨f, hf⟩ := h.parsed u.length [] (Nat.le_refl _) hend none
  rw [List.append_nil] at hf
  have hterm : Parser.term ⟨u, none⟩ = .ok t ⟨[], f⟩ := hf
  simp only [Tree.parse, hterm]

end Grammar

end TermMachine
