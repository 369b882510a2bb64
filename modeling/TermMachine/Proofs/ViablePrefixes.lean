import TermMachine.Proofs.Recognition

/-!
# How a term can begin

`Matches part u` reads the rules of the grammar as they are written, for whole token lists and without trees: a brace group
may hold maplets beside plain terms, which the parser refuses. A token list is viable if it can be completed to a term, and
`Continues u x` says that a token of the kind `x` can come next.

A beginning of a term leads to a place: the groups that are open, from the innermost outwards, and whether an operand has to
come or has just been read. A place knows which tokens can come next, and what is no beginning of a term leads nowhere, so
places show what cannot come next.

Proved:
* `Derives.matches`: whatever the grammar derives is matched.
* `Viable.follow`: every viable token list leads to a place.
* `BehindEntry.follow`: behind an entry of a brace group that is still open, an operand has been read in that group.
* `Matches.with_arguments`: a phrase that ends with a name can take arguments there.
-/

namespace TermMachine

def Lexeme.isLiteral : Lexeme → Bool
  | integer _ | string _ | character _ => true
  | identifier _ | symbol _ => false

def Lexeme.isName : Lexeme → Bool
  | identifier _ => true
  | _ => false

namespace Grammar

open TermMachine.Parser

/-! ## The rules as they are written -/

/-- The parts of the grammar. Entries are known by whether they are maplets. -/
inductive Part where
  | tree (l : Level)
  /-- Trees of a level, each behind a separator. -/
  | tail (separator : Symbol) (l : Level)
  | args
  | entry (maplet : Bool)
  /-- Entries, each behind a comma. -/
  | entryTail (maplets : List Bool)
  | entries (maplets : List Bool)

inductive Matches : Part → List Token → Prop
  | literal {x : Lexeme} {s : Span} : x.isLiteral = true → Matches (.tree .primary) [⟨x, s⟩]
  | name {text : String} {s : Span} : Matches (.tree .primary) [⟨.identifier text, s⟩]
  | call {text : String} {s a b : Span} {u : List Token} : Matches .args u →
      Matches (.tree .primary) (⟨.identifier text, s⟩ :: ⟨.symbol .openParen, a⟩ :: (u ++ [⟨.symbol .closeParen, b⟩]))
  | group {a b : Span} {u : List Token} : Matches .args u →
      Matches (.tree .primary) (⟨.symbol .openParen, a⟩ :: (u ++ [⟨.symbol .closeParen, b⟩]))
  | list {a b : Span} {u : List Token} : Matches .args u →
      Matches (.tree .primary) (⟨.symbol .openBracket, a⟩ :: (u ++ [⟨.symbol .closeBracket, b⟩]))
  | braces {a b : Span} {u : List Token} {maplets : List Bool} : Matches (.entries maplets) u →
      Matches (.tree .primary) (⟨.symbol .openBrace, a⟩ :: (u ++ [⟨.symbol .closeBrace, b⟩]))
  | plain {u : List Token} : Matches (.tree .primary) u → Matches (.tree .unary) u
  | complement {s : Span} {u : List Token} : Matches (.tree .unary) u →
      Matches (.tree .unary) (⟨.symbol .tilde, s⟩ :: u)
  | intersection {u v : List Token} : Matches (.tree .unary) u → Matches (.tail .ampersand .unary) v →
      Matches (.tree .intersection) (u ++ v)
  | union {u v : List Token} : Matches (.tree .intersection) u → Matches (.tail .bar .intersection) v →
      Matches (.tree .term) (u ++ v)
  | noTail {separator : Symbol} {l : Level} : Matches (.tail separator l) []
  | tail {separator : Symbol} {l : Level} {s : Span} {u v : List Token} : Matches (.tree l) u →
      Matches (.tail separator l) v → Matches (.tail separator l) (⟨.symbol separator, s⟩ :: (u ++ v))
  | noArgs : Matches .args []
  | args {u v : List Token} : Matches (.tree .term) u → Matches (.tail .comma .term) v → Matches .args (u ++ v)
  | element {u : List Token} : Matches (.tree .term) u → Matches (.entry false) u
  | maplet {s : Span} {u v : List Token} : Matches (.tree .term) u → Matches (.tree .term) v →
      Matches (.entry true) (u ++ ⟨.symbol .mapsTo, s⟩ :: v)
  | noEntryTail : Matches (.entryTail []) []
  | entryTail {s : Span} {u v : List Token} {maplet : Bool} {maplets : List Bool} : Matches (.entry maplet) u →
      Matches (.entryTail maplets) v →
      Matches (.entryTail (maplet :: maplets)) (⟨.symbol .comma, s⟩ :: (u ++ v))
  | noEntries : Matches (.entries []) []
  | entries {u v : List Token} {maplet : Bool} {maplets : List Bool} : Matches (.entry maplet) u →
      Matches (.entryTail maplets) v → Matches (.entries (maplet :: maplets)) (u ++ v)

def Phrase.part : Phrase → Part
  | .tree l _ => .tree l
  | .tail separator l _ => .tail separator l
  | .args _ => .args
  | .entry e => .entry e.2.isSome
  | .entryTail es => .entryTail (es.map (·.2.isSome))
  | .entries es => .entries (es.map (·.2.isSome))

theorem Matches.one_unary {u : List Token} (h : Matches (.tree .unary) u) : Matches (.tree .intersection) u := by
  simpa using h.intersection .noTail

theorem Matches.one_intersection {u : List Token} (h : Matches (.tree .intersection) u) : Matches (.tree .term) u := by
  simpa using h.union .noTail

theorem Derives.matches {u : List Token} {p : Phrase} (h : Derives u p) : Matches p.part u := by
  induction h with
  | integer => exact .literal rfl
  | string => exact .literal rfl
  | character => exact .literal rfl
  | name => exact .name
  | call _ ih => exact .call ih
  | group _ ih => exact .group ih
  | list _ ih => exact .list ih
  | braces _ _ ih => exact .braces ih
  | plain _ ih => exact .plain ih
  | complement _ ih => exact .complement ih
  | oneUnary _ ih => exact Matches.one_unary ih
  | intersection _ _ _ ih ihv => exact .intersection ih ihv
  | oneIntersection _ ih => exact Matches.one_intersection ih
  | union _ _ _ ih ihv => exact .union ih ihv
  | noTail => exact .noTail
  | tail _ _ ih ihv => exact .tail ih ihv
  | noArgs => exact .noArgs
  | args _ _ ih ihv => exact .args ih ihv
  | element _ ih => exact .element ih
  | maplet _ _ ih ihv => exact .maplet ih ihv
  | noEntryTail => exact .noEntryTail
  | entryTail _ _ ih ihv => exact .entryTail ih ihv
  | noEntries => exact .noEntries
  | entries _ _ ih ihv => exact .entries ih ihv

/-- A primary stands at every level. -/
theorem Matches.of_primary {u : List Token} (h : Matches (.tree .primary) u) (l : Level) : Matches (.tree l) u := by
  have hunary : Matches (.tree .unary) u := .plain h
  cases l with
  | primary => exact h
  | unary => exact hunary
  | intersection => exact hunary.one_unary
  | term => exact hunary.one_unary.one_intersection

/-! ## Completing a token list -/

/-- The token list can be completed to a term. -/
def Viable (u : List Token) : Prop := ∃ v, Matches (.tree .term) (u ++ v)

/-- The lexemes that an expectation speaks of. A term is expected where any lexeme could stand with which a term begins. -/
def Fits : Expectation → Lexeme → Prop
  | .literal, x => x.isLiteral = true
  | .identifier, x => x.isName = true
  | .term, x => ∃ s v, Matches (.tree .term) (⟨x, s⟩ :: v)
  | .symbol s, x => x = .symbol s

/-- Behind these tokens, a lexeme that is expected can come next in a term. -/
def Continues (u : List Token) (x : Expectation) : Prop :=
  ∃ token v, Fits x token.lexeme ∧ Matches (.tree .term) (u ++ token :: v)

theorem Continues.viable {u : List Token} {x : Expectation} (h : Continues u x) : Viable u := by
  obtain ⟨token, v, -, hmatches⟩ := h
  exact ⟨token :: v, hmatches⟩

/-- A whole brace group in which maplets and plain terms are mixed. -/
def MixedGroup (u : List Token) : Prop :=
  ∃ a b v maplets, u = ⟨.symbol .openBrace, a⟩ :: (v ++ [⟨.symbol .closeBrace, b⟩]) ∧
    Matches (.entries maplets) v ∧ true ∈ maplets ∧ false ∈ maplets

/-- The tokens end with entries, at least one, of a brace group that is still open. -/
def BehindEntry (u : List Token) : Prop :=
  ∃ v a es maplets, u = v ++ ⟨.symbol .openBrace, a⟩ :: es ∧ Matches (.entries maplets) es ∧ maplets ≠ []

/-- The last token is a name, which could still be given arguments. -/
def endsInName (u : List Token) : Bool := u.getLast?.any (·.lexeme.isName)

/-! ## Places -/

/-- An open group. Of a brace group it matters whether the arrow of the current entry has been read. -/
inductive Group where
  | paren | bracket | key | value
  deriving DecidableEq

def Group.closing : Group → Symbol
  | paren => .closeParen
  | bracket => .closeBracket
  | key | value => .closeBrace

def Group.nextItem : Group → Group
  | value => key
  | g => g

inductive Mode where
  /-- An operand has to come. In a group that has just been opened, its end may come instead. -/
  | before (opened : Bool)
  /-- An operand is complete. A name can still be given arguments. -/
  | behind (name : Bool)
  deriving DecidableEq

structure Place where
  mode : Mode
  /-- The open groups, the innermost first. -/
  groups : List Group
  deriving DecidableEq

namespace Place

def start : Place := ⟨.before false, []⟩

def close (s : Symbol) : List Group → Option Place
  | g :: gs => if g.closing = s then some ⟨.behind false, gs⟩ else none
  | [] => none

def pastComma : List Group → Option Place
  | g :: gs => some ⟨.before false, g.nextItem :: gs⟩
  | [] => none

/-- Behind an arrow, of which an entry has one at most. -/
def pastArrow : List Group → Option Place
  | .key :: gs => some ⟨.before false, .value :: gs⟩
  | _ => none

def pastFirst (opened : Bool) (gs : List Group) : Symbol → Option Place
  | .tilde => some ⟨.before false, gs⟩
  | .openParen => some ⟨.before true, .paren :: gs⟩
  | .openBracket => some ⟨.before true, .bracket :: gs⟩
  | .openBrace => some ⟨.before true, .key :: gs⟩
  | s => if opened then close s gs else none

def pastNext (name : Bool) (gs : List Group) : Symbol → Option Place
  | .ampersand | .bar => some ⟨.before false, gs⟩
  | .openParen => if name then some ⟨.before true, .paren :: gs⟩ else none
  | .comma => pastComma gs
  | .mapsTo => pastArrow gs
  | s => close s gs

def next : Place → Lexeme → Option Place
  | ⟨.before opened, gs⟩, .symbol s => pastFirst opened gs s
  | ⟨.before _, gs⟩, x => some ⟨.behind x.isName, gs⟩
  | ⟨.behind name, gs⟩, .symbol s => pastNext name gs s
  | ⟨.behind _, _⟩, _ => none

def follow : Place → List Token → Option Place
  | p, [] => some p
  | p, token :: u => (p.next token.lexeme).bind (·.follow u)

theorem follow_append (p : Place) (u v : List Token) : p.follow (u ++ v) = (p.follow u).bind (·.follow v) := by
  induction u generalizing p with
  | nil => rfl
  | cons token u ih =>
    rw [List.cons_append, follow, follow, Option.bind_assoc]
    exact Option.bind_congr fun q _ => ih q

theorem follow_append_of {p q : Place} {u v : List Token} (h : p.follow u = some q) :
    p.follow (u ++ v) = q.follow v := by
  rw [follow_append, h, Option.bind_some]

theorem follow_concat {p q : Place} {u : List Token} {token : Token} (h : p.follow u = some q) :
    p.follow (u ++ [token]) = q.next token.lexeme := by
  rw [follow_append_of h, follow]
  exact Option.bind_fun_some _

theorem follow_cons {p q : Place} {u : List Token} {token : Token} (h : p.next token.lexeme = some q) :
    p.follow (token :: u) = q.follow u := by
  rw [follow, h, Option.bind_some]

/-- Whatever stands behind tokens that lead nowhere leads nowhere. -/
theorem follow_of_append {p q : Place} {u v : List Token} (h : p.follow (u ++ v) = some q) :
    ∃ r, p.follow u = some r ∧ r.follow v = some q := by
  rw [follow_append] at h
  exact Option.bind_eq_some_iff.mp h

theorem close_eq_some {s : Symbol} {gs : List Group} {p : Place} :
    close s gs = some p ↔ ∃ g gs', gs = g :: gs' ∧ g.closing = s ∧ p = ⟨.behind false, gs'⟩ := by
  cases gs with
  | nil => simp [close]
  | cons g gs =>
    simp only [close, Option.ite_none_right_eq_some, Option.some.injEq]
    constructor
    · rintro ⟨hg, rfl⟩
      exact ⟨g, gs, rfl, hg, rfl⟩
    · rintro ⟨_, _, ⟨⟩, hg, rfl⟩
      exact ⟨hg, rfl⟩

theorem pastComma_eq_some {gs : List Group} {p : Place} :
    pastComma gs = some p ↔ ∃ g gs', gs = g :: gs' ∧ p = ⟨.before false, g.nextItem :: gs'⟩ := by
  cases gs with
  | nil => simp [pastComma]
  | cons g gs =>
    constructor
    · rintro ⟨⟩
      exact ⟨g, gs, rfl, rfl⟩
    · rintro ⟨_, _, ⟨⟩, rfl⟩
      rfl

theorem pastArrow_eq_some {gs : List Group} {p : Place} :
    pastArrow gs = some p ↔ ∃ gs', gs = .key :: gs' ∧ p = ⟨.before false, .value :: gs'⟩ := by
  rcases gs with _ | ⟨_ | _ | _ | _, gs⟩ <;> simp [pastArrow, eq_comm]

/-- Only a name leads to where arguments can come. -/
theorem isName_of_next {p : Place} {x : Lexeme} {gs : List Group} (h : p.next x = some ⟨.behind true, gs⟩) :
    x.isName = true := by
  obtain ⟨mode, groups⟩ := p
  cases mode with
  | before opened =>
    cases x with
    | symbol s => cases s <;> simp [next, pastFirst, close_eq_some] at h
    | identifier text => rfl
    | _ => cases h
  | behind name =>
    cases x with
    | symbol s => cases s <;> simp [next, pastNext, close_eq_some, pastComma_eq_some, pastArrow_eq_some] at h
    | _ => cases h

/-- A group that is not in the middle of an item can end. -/
theorem next_closing {m : Mode} {g : Group} {gs : List Group} (h : m ≠ .before false) :
    (Place.mk m (g :: gs)).next (.symbol g.closing) = some ⟨.behind false, gs⟩ := by
  match m, h with
  | .before true, _ => cases g <;> rfl
  | .behind _, _ => cases g <;> rfl

end Place

/-! ## Parts lead from place to place -/

def Leads (u : List Token) : Part → Prop
  | .tree _ => ∀ opened gs, ∃ name, (Place.mk (.before opened) gs).follow u = some ⟨.behind name, gs⟩
  | .tail separator _ => ∀ gs, (∀ name, (Place.mk (.behind name) gs).next (.symbol separator) = some ⟨.before false, gs⟩) →
      ∀ name, ∃ name', (Place.mk (.behind name) gs).follow u = some ⟨.behind name', gs⟩
  | .args => ∀ g gs, g.nextItem = g →
      ∃ m, m ≠ .before false ∧ (Place.mk (.before true) (g :: gs)).follow u = some ⟨m, g :: gs⟩
  | .entry _ => ∀ opened gs, ∃ name g, g.closing = .closeBrace ∧
      (Place.mk (.before opened) (.key :: gs)).follow u = some ⟨.behind name, g :: gs⟩
  | .entryTail _ => ∀ name g gs, g.closing = .closeBrace → ∃ name' g', g'.closing = .closeBrace ∧
      (Place.mk (.behind name) (g :: gs)).follow u = some ⟨.behind name', g' :: gs⟩
  | .entries maplets => ∀ gs, ∃ m g, m ≠ .before false ∧ g.closing = .closeBrace ∧
      (maplets ≠ [] → ∃ name, m = .behind name) ∧
      (Place.mk (.before true) (.key :: gs)).follow u = some ⟨m, g :: gs⟩

/-- From behind an opening delimiter to behind the closing one. -/
theorem leads_delimited {p : Place} {m : Mode} {g g' : Group} {gs : List Group} {u : List Token} {a b : Token}
    (hopen : p.next a.lexeme = some ⟨.before true, g :: gs⟩)
    (hinner : (Place.mk (.before true) (g :: gs)).follow u = some ⟨m, g' :: gs⟩) (hm : m ≠ .before false)
    (hclose : b.lexeme = .symbol g'.closing) : p.follow (a :: (u ++ [b])) = some ⟨.behind false, gs⟩ := by
  rw [Place.follow_cons hopen, Place.follow_concat hinner, hclose]
  exact Place.next_closing hm

theorem Matches.leads {part : Part} {u : List Token} (h : Matches part u) : Leads u part := by
  induction h with
  | @literal x s hx =>
    intro opened gs
    refine ⟨false, ?_⟩
    cases x <;> first | rfl | cases hx
  | name => exact fun opened gs => ⟨true, rfl⟩
  | call _ ih =>
    intro opened gs
    obtain ⟨m, hm, hfollow⟩ := ih .paren gs rfl
    refine ⟨false, ?_⟩
    rw [Place.follow_cons (q := ⟨.behind true, gs⟩) rfl]
    exact leads_delimited rfl hfollow hm rfl
  | group _ ih =>
    intro opened gs
    obtain ⟨m, hm, hfollow⟩ := ih .paren gs rfl
    exact ⟨false, leads_delimited rfl hfollow hm rfl⟩
  | list _ ih =>
    intro opened gs
    obtain ⟨m, hm, hfollow⟩ := ih .bracket gs rfl
    exact ⟨false, leads_delimited rfl hfollow hm rfl⟩
  | braces _ ih =>
    intro opened gs
    obtain ⟨m, g, hm, hg, -, hfollow⟩ := ih gs
    exact ⟨false, leads_delimited rfl hfollow hm (by rw [hg])⟩
  | plain _ ih => exact ih
  | complement _ ih =>
    intro opened gs
    obtain ⟨name, hfollow⟩ := ih false gs
    exact ⟨name, hfollow⟩
  | intersection _ _ ih ihv | union _ _ ih ihv =>
    intro opened gs
    obtain ⟨name, hfollow⟩ := ih opened gs
    obtain ⟨name', hfollow'⟩ := ihv gs (fun _ => rfl) name
    exact ⟨name', by rw [Place.follow_append_of hfollow, hfollow']⟩
  | noTail => exact fun gs _ name => ⟨name, rfl⟩
  | tail _ _ ih ihv =>
    intro gs hsep name
    obtain ⟨name₁, hfollow⟩ := ih false gs
    obtain ⟨name₂, hfollow'⟩ := ihv gs hsep name₁
    exact ⟨name₂, by rw [Place.follow_cons (hsep name), Place.follow_append_of hfollow, hfollow']⟩
  | noArgs => exact fun g gs _ => ⟨.before true, by decide, rfl⟩
  | args _ _ ih ihv =>
    intro g gs hg
    obtain ⟨name, hfollow⟩ := ih true (g :: gs)
    have hcomma : ∀ name, (Place.mk (.behind name) (g :: gs)).next (.symbol .comma) = some ⟨.before false, g :: gs⟩ := by
      intro name
      show some (Place.mk (.before false) (g.nextItem :: gs)) = _
      rw [hg]
    obtain ⟨name', hfollow'⟩ := ihv (g :: gs) hcomma name
    exact ⟨.behind name', by simp, by rw [Place.follow_append_of hfollow, hfollow']⟩
  | element _ ih =>
    intro opened gs
    obtain ⟨name, hfollow⟩ := ih opened (.key :: gs)
    exact ⟨name, .key, rfl, hfollow⟩
  | maplet _ _ ih ihv =>
    intro opened gs
    obtain ⟨name, hfollow⟩ := ih opened (.key :: gs)
    obtain ⟨name', hfollow'⟩ := ihv false (.value :: gs)
    refine ⟨name', .value, rfl, ?_⟩
    rw [Place.follow_append_of hfollow, Place.follow_cons rfl]
    exact hfollow'
  | noEntryTail => exact fun name g gs hg => ⟨name, g, hg, rfl⟩
  | entryTail _ _ ih ihv =>
    intro name g gs hg
    have hcomma : (Place.mk (.behind name) (g :: gs)).next (.symbol .comma) = some ⟨.before false, .key :: gs⟩ := by
      cases g <;> first | rfl | cases hg
    obtain ⟨name₁, g₁, hg₁, hfollow⟩ := ih false gs
    obtain ⟨name₂, g₂, hg₂, hfollow'⟩ := ihv name₁ g₁ gs hg₁
    exact ⟨name₂, g₂, hg₂, by rw [Place.follow_cons hcomma, Place.follow_append_of hfollow, hfollow']⟩
  | noEntries => exact fun gs => ⟨.before true, .key, by decide, rfl, fun h => absurd rfl h, rfl⟩
  | entries _ _ ih ihv =>
    intro gs
    obtain ⟨name, g, hg, hfollow⟩ := ih true gs
    obtain ⟨name', g', hg', hfollow'⟩ := ihv name g gs hg
    exact ⟨.behind name', g', by simp, hg', fun _ => ⟨name', rfl⟩, by rw [Place.follow_append_of hfollow, hfollow']⟩

/-- A beginning of a term leads somewhere. -/
theorem Viable.follow {u : List Token} (h : Viable u) : ∃ p, Place.start.follow u = some p := by
  obtain ⟨v, hmatches⟩ := h
  obtain ⟨name, hfollow⟩ := hmatches.leads false []
  obtain ⟨p, hp, -⟩ := Place.follow_of_append hfollow
  exact ⟨p, hp⟩

/-- A lexeme that can come next leads on. -/
theorem Continues.next {u : List Token} {x : Expectation} {p : Place} (h : Continues u x)
    (hu : Place.start.follow u = some p) : ∃ y q, Fits x y ∧ p.next y = some q := by
  obtain ⟨token, v, hfits, hmatches⟩ := h
  obtain ⟨q, hq⟩ : ∃ q, Place.start.follow (u ++ [token]) = some q := Viable.follow ⟨v, by simpa using hmatches⟩
  rw [Place.follow_concat hu] at hq
  exact ⟨token.lexeme, q, hfits, hq⟩

/-! ## Behind an entry -/

theorem BehindEntry.follow {u : List Token} (h : BehindEntry u) (hviable : Viable u) :
    ∃ name g gs, Place.start.follow u = some ⟨.behind name, g :: gs⟩ ∧ g.closing = .closeBrace := by
  obtain ⟨v, a, es, maplets, rfl, hes, hne⟩ := h
  obtain ⟨q, hq⟩ := hviable.follow
  obtain ⟨⟨mode, gs⟩, hp, hbrace⟩ := Place.follow_of_append hq
  -- the brace is read, so it opens a group
  have hopen : (Place.mk mode gs).next (.symbol .openBrace) = some ⟨.before true, .key :: gs⟩ := by
    cases mode with
    | before opened => rfl
    | behind name =>
      obtain ⟨p, hp, -⟩ := Option.bind_eq_some_iff.mp hbrace
      obtain ⟨g, _, -, hg, -⟩ := Place.close_eq_some.mp hp
      cases g <;> cases hg
  obtain ⟨m, g, -, hg, hm, hfollow⟩ := hes.leads gs
  obtain ⟨name, rfl⟩ := hm hne
  refine ⟨name, g, gs, ?_, hg⟩
  rw [Place.follow_append_of hp, Place.follow_cons hopen, hfollow]

/-! ## Names at the end -/

theorem endsInName_concat (u : List Token) (token : Token) : endsInName (u ++ [token]) = token.lexeme.isName := by
  simp [endsInName]

theorem endsInName_append {u v : List Token} (h : endsInName (u ++ v) = true) :
    v = [] ∧ endsInName u = true ∨ endsInName v = true := by
  rcases List.eq_nil_or_concat v with rfl | ⟨v, token, rfl⟩
  · rw [List.append_nil] at h
    exact .inl ⟨rfl, h⟩
  · rw [List.concat_eq_append] at h ⊢
    rw [← List.append_assoc, endsInName_concat] at h
    rw [endsInName_concat]
    exact .inr h

theorem endsInName_cons {token : Token} {u : List Token} (htoken : token.lexeme.isName = false)
    (h : endsInName (token :: u) = true) : endsInName u = true := by
  rcases endsInName_append (u := [token]) h with ⟨rfl, h⟩ | h
  · rw [endsInName, List.getLast?_singleton, Option.any_some, htoken] at h
    cases h
  · exact h

/-- A name at the end can take arguments, of which there may be none. -/
theorem Matches.with_arguments {part : Part} {u : List Token} (a b : Span) (h : Matches part u)
    (hname : endsInName u = true) : Matches part (u ++ [⟨.symbol .openParen, a⟩, ⟨.symbol .closeParen, b⟩]) := by
  have hdelimited : ∀ (v : List Token) {s : Symbol} {span : Span},
      endsInName (v ++ [⟨.symbol s, span⟩]) = true → False := by
    intro v s span hname
    rw [endsInName_concat] at hname
    cases hname
  induction h with
  | @literal x s hx =>
    cases x <;> cases hx <;> cases hname
  | name => exact .call .noArgs
  | call _ _ => exact (hdelimited (_ :: _ :: _) hname).elim
  | group _ _ | list _ _ | braces _ _ => exact (hdelimited (_ :: _) hname).elim
  | plain _ ih => exact .plain (ih hname)
  | complement _ ih => exact .complement (ih (endsInName_cons rfl hname))
  | intersection hu hv ih ihv =>
    rcases endsInName_append hname with ⟨rfl, hfirst⟩ | hlast
    · simpa using (ih hfirst).intersection hv
    · simpa using hu.intersection (ihv hlast)
  | union hu hv ih ihv =>
    rcases endsInName_append hname with ⟨rfl, hfirst⟩ | hlast
    · simpa using (ih hfirst).union hv
    · simpa using hu.union (ihv hlast)
  | noTail | noArgs | noEntryTail | noEntries => cases hname
  | @tail separator l s u v hu hv ih ihv =>
    rcases endsInName_append (endsInName_cons rfl hname) with ⟨rfl, hfirst⟩ | hlast
    · simpa using Matches.tail (s := s) (ih hfirst) hv
    · simpa using Matches.tail (s := s) hu (ihv hlast)
  | args hu hv ih ihv =>
    rcases endsInName_append hname with ⟨rfl, hfirst⟩ | hlast
    · simpa using (ih hfirst).args hv
    · simpa using hu.args (ihv hlast)
  | element _ ih => exact .element (ih hname)
  | @maplet s u v hu hv ih ihv =>
    rcases endsInName_append hname with ⟨hnil, -⟩ | hlast
    · cases hnil
    · simpa using Matches.maplet (s := s) hu (ihv (endsInName_cons rfl hlast))
  | @entryTail s u v maplet maplets hu hv ih ihv =>
    rcases endsInName_append (endsInName_cons rfl hname) with ⟨rfl, hfirst⟩ | hlast
    · simpa using Matches.entryTail (s := s) (ih hfirst) hv
    · simpa using Matches.entryTail (s := s) hu (ihv hlast)
  | entries hu hv ih ihv =>
    rcases endsInName_append hname with ⟨rfl, hfirst⟩ | hlast
    · simpa using (ih hfirst).entries hv
    · simpa using hu.entries (ihv hlast)

/-- Only a name is an operand that can be given arguments. -/
theorem endsInName_of_follow {u : List Token} {gs : List Group} (h : Place.start.follow u = some ⟨.behind true, gs⟩) :
    endsInName u = true := by
  rcases List.eq_nil_or_concat u with rfl | ⟨v, token, rfl⟩
  · cases h
  · rw [List.concat_eq_append] at h ⊢
    obtain ⟨p, hp, -⟩ := Place.follow_of_append h
    rw [Place.follow_concat hp] at h
    rw [endsInName_concat]
    exact Place.isName_of_next h

end Grammar

end TermMachine
