import TermMachine.Proofs.Grammar

/-!
# The parser reads nothing but its grammar

`Grammar` shows that the parser finds what the grammar derives. Here is the way back. `Accepts p R` says that
whatever `p` reads stands at the front of its input and is related to the result by `R`; there is a law for
every combinator, and with the laws each parser is followed rule by rule down to the tokens. What the parser
fails at on its way (an argument list, another operand, another entry) it gives back whole, so a failed
attempt never shows in what it has read.

A parser is a function, so the two directions together leave a token list one tree at most.

The bounds on nesting and on the rounds of a loop stand for recursion without a bound. No parser nests or goes
round again without having read a token, so a greater bound than the number of tokens changes no answer, not
even the error of an answer that is none.

Proved:
* `derives_of_parse`: a tree that the parser gives is derived from the whole token list.
* `termWithin_eq_of_lt`, `manyWithin_eq_of_lt`, `unaryWithin_eq_of_lt`: the bounds are never reached.
* `parse_exactly_grammar`: all of it.
-/

namespace TermMachine.Grammar

open TermMachine.Parser

variable {α β : Type}

/-! ## What parsers accept -/

/-- What the parser reads is a front part of the input that `R` relates to the result. -/
def Accepts (p : Parser α) (R : List Token → α → Prop) : Prop :=
  ∀ ⦃c : Cursor⦄ ⦃a : α⦄ ⦃c' : Cursor⦄, p c = .ok a c' → ∃ u, c.rest = u ++ c'.rest ∧ R u a

theorem bind_ok_cases {p : Parser α} {q : α → Parser β} {c c' : Cursor} {b : β} (h : (p >>= q) c = .ok b c') :
    ∃ a c₁, p c = .ok a c₁ ∧ q a c₁ = .ok b c' := by
  rcases hp : p c with ⟨a, c₁⟩ | ⟨e, c₁⟩
  · exact ⟨a, c₁, rfl, by rwa [bind_ok hp] at h⟩
  · rw [bind_error hp] at h
    cases h

theorem Accepts.mono {p : Parser α} {R S : List Token → α → Prop} (hp : Accepts p R)
    (h : ∀ u a, R u a → S u a) : Accepts p S := by
  intro c a c' hc
  obtain ⟨u, hu, hR⟩ := hp hc
  exact ⟨u, hu, h u a hR⟩

theorem Accepts.pure {R : List Token → α → Prop} {a : α} (h : R [] a) : Accepts (pure a) R := by
  intro c b c' hc
  cases hc
  exact ⟨[], rfl, h⟩

theorem Accepts.fail {R : List Token → α → Prop} {e : ParseError} : Accepts (fail e) R := by
  intro c a c' hc
  cases hc

theorem Accepts.bind {p : Parser α} {q : α → Parser β} {R : List Token → α → Prop} {S : List Token → β → Prop}
    (hp : Accepts p R) (hq : ∀ u a, R u a → Accepts (q a) fun v b => S (u ++ v) b) : Accepts (p >>= q) S := by
  intro c b c' hc
  obtain ⟨a, c₁, h₁, h₂⟩ := bind_ok_cases hc
  obtain ⟨u, hu, hR⟩ := hp h₁
  obtain ⟨v, hv, hS⟩ := hq u a hR h₂
  exact ⟨u ++ v, by rw [hu, hv, List.append_assoc], hS⟩

theorem Accepts.orElse {p q : Parser α} {R : List Token → α → Prop} (hp : Accepts p R) (hq : Accepts q R) :
    Accepts (orElse p q) R := by
  intro c a c' hc
  unfold Parser.orElse at hc
  split at hc
  · cases hc
    exact hp ‹_›
  · obtain ⟨u, hu, hR⟩ := hq hc
    exact ⟨u, hu, hR⟩

theorem Accepts.label {p : Parser α} {x : Expectation} {R : List Token → α → Prop} (hp : Accepts p R) :
    Accepts (label x p) R := by
  intro c a c' hc
  unfold Parser.label at hc
  split at hc
  · cases hc
    exact hp ‹_›
  · cases hc

/-- An option reads what its parser reads, or nothing. -/
theorem Accepts.optional {p : Parser α} {R : List Token → α → Prop} (hp : Accepts p R) :
    Accepts (optional p) fun u r => r.elim (u = []) (R u) := by
  intro c r c' hc
  unfold Parser.optional at hc
  split at hc
  · cases hc
    exact hp ‹_›
  · cases hc
    exact ⟨[], rfl, rfl⟩

theorem Accepts.manyWithin {p : Parser α} {R : List Token → α → Prop} {S : List Token → List α → Prop}
    (hp : Accepts p R) (hnil : S [] []) (hcons : ∀ u v a as, R u a → S v as → S (u ++ v) (a :: as))
    (rounds : Nat) : Accepts (manyWithin p rounds) S := by
  induction rounds with
  | zero => exact .pure hnil
  | succ rounds ih =>
    refine hp.optional.bind fun u r hr => ?_
    cases r with
    | none =>
      obtain rfl : u = [] := hr
      exact .pure hnil
    | some a =>
      refine ih.bind fun v as has => .pure ?_
      rw [List.append_nil]
      exact hcons u v a as hr has

theorem Accepts.many {p : Parser α} {R : List Token → α → Prop} {S : List Token → List α → Prop}
    (hp : Accepts p R) (hnil : S [] []) (hcons : ∀ u v a as, R u a → S v as → S (u ++ v) (a :: as)) :
    Accepts (many p) S :=
  fun _ _ _ hc => hp.manyWithin hnil hcons _ hc

theorem accepts_symbol (s : Symbol) : Accepts (symbol s) fun u span => u = [⟨.symbol s, span⟩] := by
  rintro ⟨rest, f⟩ span c' hc
  unfold symbol at hc
  split at hc
  · rename_i s' span' rest' hrest
    split at hc
    · rename_i hs
      cases hc
      cases hs
      exact ⟨_, hrest, rfl⟩
    · cases hc
  · cases hc

/-- A symbol and then an item, of which the item counts. -/
theorem Accepts.behind {item : Parser α} {R : List Token → α → Prop} (hitem : Accepts item R) (s : Symbol) :
    Accepts (do let _ ← symbol s; item) fun u a => ∃ span v, u = ⟨.symbol s, span⟩ :: v ∧ R v a := by
  refine (accepts_symbol s).bind fun u span hu => ?_
  subst hu
  exact hitem.mono fun v a hv => ⟨span, v, rfl, hv⟩

/-- Items separated by commas: `T` is what those behind the first are, `S` what all of them are. -/
theorem Accepts.commaSeparated {item : Parser α} {R : List Token → α → Prop} {S T : List Token → List α → Prop}
    (hitem : Accepts item R) (hnone : S [] []) (hend : T [] [])
    (hmore : ∀ span u v a as, R u a → T v as → T (⟨.symbol .comma, span⟩ :: (u ++ v)) (a :: as))
    (hfirst : ∀ u v a as, R u a → T v as → S (u ++ v) (a :: as)) : Accepts (commaSeparated item) S := by
  have htail : Accepts (Parser.many (do let _ ← symbol .comma; item)) T := by
    refine (hitem.behind .comma).many hend ?_
    rintro u v a as ⟨span, w, rfl, ha⟩ has
    exact hmore span w v a as ha has
  refine hitem.optional.bind fun u r hr => ?_
  cases r with
  | none =>
    obtain rfl : u = [] := hr
    exact .pure hnone
  | some a =>
    refine htail.bind fun v as has => .pure ?_
    rw [List.append_nil]
    exact hfirst u v a as hr has

theorem Accepts.delimited {item : Parser α} {S : List Token → List α → Prop}
    (hitems : Accepts (Parser.commaSeparated item) S) (opening closing : Symbol) :
    Accepts (Parser.delimited opening closing item) fun u r => ∃ a b v,
      u = ⟨.symbol opening, a⟩ :: (v ++ [⟨.symbol closing, b⟩]) ∧ r.2 = a.to b ∧ S v r.1 := by
  refine (accepts_symbol opening).bind fun u a hu => ?_
  refine hitems.bind fun v as has => ?_
  refine (accepts_symbol closing).bind fun w b hw => .pure ?_
  subst hu hw
  exact ⟨a, b, v, by simp, rfl, has⟩

/-! ## Rule by rule -/

def Reads (l : Level) (p : Parser Tree) : Prop := Accepts p fun u t => Derives u (.tree l t)

theorem reads_literal : Reads .primary literal := by
  rintro ⟨rest, f⟩ t c' hc
  unfold literal at hc
  split at hc <;> cases hc
  · exact ⟨_, by assumption, .integer⟩
  · exact ⟨_, by assumption, .string⟩
  · exact ⟨_, by assumption, .character⟩

theorem accepts_identifier :
    Accepts identifier fun u r => u = [⟨.identifier r.1, r.2⟩] := by
  rintro ⟨rest, f⟩ r c' hc
  unfold identifier at hc
  split at hc <;> cases hc
  exact ⟨_, by assumption, rfl⟩

section
variable {term : Parser Tree} (hterm : Reads .term term)
include hterm

theorem accepts_arguments (opening closing : Symbol) :
    Accepts (delimited opening closing term) fun u r => ∃ a b v,
      u = ⟨.symbol opening, a⟩ :: (v ++ [⟨.symbol closing, b⟩]) ∧ r.2 = a.to b ∧ Derives v (.args r.1) := by
  have hitems : Accepts (commaSeparated term) fun u ts => Derives u (.args ts) :=
    Accepts.commaSeparated (T := fun u ts => Derives u (.tail .comma .term ts)) hterm .noArgs .noTail
      (fun _ _ _ _ _ ht hts => .tail ht hts) (fun _ _ _ _ ht hts => .args ht hts)
  exact hitems.delimited opening closing

theorem reads_call : Reads .primary (call term) := by
  refine accepts_identifier.bind fun u r hu => ?_
  obtain ⟨text, s⟩ := r
  subst hu
  refine (accepts_arguments hterm .openParen .closeParen).optional.bind fun v r hr => ?_
  cases r with
  | none =>
    obtain rfl : v = [] := hr
    exact .pure .name
  | some r =>
    obtain ⟨ts, span⟩ := r
    obtain ⟨a, b, w, rfl, rfl, hts⟩ := hr
    refine .pure ?_
    rw [List.append_nil]
    exact .call hts

theorem reads_group : Reads .primary (group term) := by
  refine (accepts_arguments hterm .openParen .closeParen).bind fun u r hr => .pure ?_
  obtain ⟨ts, span⟩ := r
  obtain ⟨a, b, v, rfl, rfl, hts⟩ := hr
  rw [List.append_nil]
  exact .group hts

theorem reads_list : Reads .primary (Parser.list term) := by
  refine (accepts_arguments hterm .openBracket .closeBracket).bind fun u r hr => .pure ?_
  obtain ⟨ts, span⟩ := r
  obtain ⟨a, b, v, rfl, rfl, hts⟩ := hr
  rw [List.append_nil]
  exact .list hts

theorem accepts_entry : Accepts (entry term) fun u e => Derives u (.entry e) := by
  refine Accepts.bind hterm fun u key hkey => ?_
  refine (Accepts.behind hterm .mapsTo).optional.bind fun v r hr => .pure ?_
  rw [List.append_nil]
  cases r with
  | none =>
    obtain rfl : v = [] := hr
    rw [List.append_nil]
    exact .element hkey
  | some value =>
    obtain ⟨span, w, rfl, hw⟩ := hr
    exact .maplet hkey hw

theorem accepts_entries : Accepts (commaSeparated (entry term)) fun u es => Derives u (.entries es) :=
  Accepts.commaSeparated (T := fun u es => Derives u (.entryTail es)) (accepts_entry hterm) .noEntries .noEntryTail
    (fun _ _ _ _ _ he hes => .entryTail he hes) (fun _ _ _ _ he hes => .entries he hes)

theorem reads_braces : Reads .primary (braces term) := by
  refine ((accepts_entries hterm).delimited .openBrace .closeBrace).bind fun u r hr => ?_
  obtain ⟨es, span⟩ := r
  obtain ⟨a, b, v, rfl, rfl, hes⟩ := hr
  rcases ht : ofEntries? es (a.to b) with _ | t
  · simp only [ht]
    exact .fail
  · simp only [ht]
    refine .pure ?_
    rw [List.append_nil]
    exact .braces hes ht

theorem reads_primary : Reads .primary (primary term) := by
  refine Accepts.label (.orElse (.orElse (.orElse (.orElse ?_ ?_) ?_) ?_) ?_)
  · exact reads_literal
  · exact reads_call hterm
  · exact reads_group hterm
  · exact reads_list hterm
  · exact reads_braces hterm

theorem reads_unaryWithin (rounds : Nat) : Reads .unary (unaryWithin term rounds) := by
  have hprimary : Reads .unary (primary term) := (reads_primary hterm).mono fun _ _ h => .plain h
  induction rounds with
  | zero => exact hprimary
  | succ rounds ih =>
    refine (accepts_symbol .tilde).optional.bind fun u r hr => ?_
    cases r with
    | none =>
      obtain rfl : u = [] := hr
      exact hprimary
    | some span =>
      obtain rfl : u = [⟨.symbol .tilde, span⟩] := hr
      refine Accepts.bind ih fun v t ht => .pure ?_
      rw [List.append_nil]
      exact .complement ht

theorem reads_unary : Reads .unary (unary term) := fun _ _ _ hc => reads_unaryWithin hterm _ hc

end

/-- Operands behind separators make a wider level, one by itself or several wrapped up. -/
theorem reads_operands {l l' : Level} {separator : Symbol} {operand : Parser Tree} {wrap : List Tree → Span → Tree}
    (hoperand : Reads l operand) (hone : ∀ u t, Derives u (.tree l t) → Derives u (.tree l' t))
    (hwrap : ∀ u v t ts last, Derives u (.tree l t) → Derives v (.tail separator l ts) → ts.getLast? = some last →
      Derives (u ++ v) (.tree l' (wrap (t :: ts) (t.span.to last.span)))) :
    Reads l' (operands separator operand wrap) := by
  have htail : Accepts (Parser.many (do let _ ← symbol separator; operand))
      fun u ts => Derives u (.tail separator l ts) := by
    refine (Accepts.behind hoperand separator).many .noTail ?_
    rintro u v t ts ⟨span, w, rfl, ht⟩ hts
    exact .tail ht hts
  refine Accepts.bind hoperand fun u t ht => ?_
  refine htail.bind fun v ts hts => ?_
  rcases hlast : ts.getLast? with _ | last
  · -- no operand but the first, so nothing was read for others
    obtain rfl := List.getLast?_eq_none_iff.mp hlast
    cases hts
    refine .pure ?_
    rw [List.append_nil, List.append_nil]
    exact hone u t ht
  · refine .pure ?_
    rw [List.append_nil]
    exact hwrap u v t ts last ht hts hlast

theorem reads_intersection {term : Parser Tree} (hterm : Reads .term term) :
    Reads .intersection (Parser.intersection term) :=
  reads_operands (reads_unary hterm) (fun _ _ h => .oneUnary h) fun _ _ _ _ _ ht hts hlast => .intersection ht hts hlast

theorem reads_term (depth : Nat) : Reads .term (termWithin depth) := by
  induction depth with
  | zero => exact .fail
  | succ depth ih =>
    exact reads_operands (reads_intersection ih) (fun _ _ h => .oneIntersection h)
      fun _ _ _ _ _ ht hts hlast => .union ht hts hlast

theorem reads_parserAt (depth : Nat) (l : Level) : Reads l (parserAt depth l) := by
  cases l with
  | primary => exact reads_primary (reads_term depth)
  | unary => exact reads_unary (reads_term depth)
  | intersection => exact reads_intersection (reads_term depth)
  | term => exact reads_term (depth + 1)

/-- A tree that the parser gives is derived from the whole token list. -/
theorem derives_of_parse {w : List Token} {t : Tree} (h : Tree.parse w = .ok t) : Derives w (.tree .term t) := by
  unfold Tree.parse at h
  split at h
  · rename_i tree c hc
    split at h
    · rename_i hrest
      cases h
      obtain ⟨u, hu, hderives⟩ := reads_term _ hc
      rw [hrest, List.append_nil] at hu
      obtain rfl : w = u := hu
      exact hderives
    · cases h
  · cases h

/-! ## The bounds are never reached -/

/-- The parser never has more left than it was given. -/
theorem Accepts.length_le {p : Parser α} {R : List Token → α → Prop} (hp : Accepts p R) {c c' : Cursor} {a : α}
    (h : p c = .ok a c') : c'.rest.length ≤ c.rest.length := by
  obtain ⟨u, hu, -⟩ := hp h
  rw [hu, List.length_append]
  omega

def Consumes (p : Parser α) : Prop :=
  ∀ ⦃c : Cursor⦄ ⦃a : α⦄ ⦃c' : Cursor⦄, p c = .ok a c' → c'.rest.length < c.rest.length

theorem consumes_symbol (s : Symbol) : Consumes (symbol s) := by
  intro c span c' hc
  obtain ⟨u, hu, rfl⟩ := accepts_symbol s hc
  rw [hu]
  simp

theorem Accepts.consumes_behind {item : Parser α} {R : List Token → α → Prop} (hitem : Accepts item R) (s : Symbol) :
    Consumes (do let _ ← symbol s; item) := by
  intro c a c' hc
  obtain ⟨span, c₁, h₁, h₂⟩ := bind_ok_cases hc
  have hlt := consumes_symbol s h₁
  have hle := hitem.length_le h₂
  omega

/-- A loop over items that read something ends before its rounds do. -/
theorem manyWithin_eq_of_lt {p : Parser α} (hp : Consumes p) {rounds rounds' : Nat} {c : Cursor}
    (h : c.rest.length < rounds) (h' : c.rest.length < rounds') : manyWithin p rounds c = manyWithin p rounds' c := by
  induction rounds generalizing rounds' c with
  | zero => omega
  | succ rounds ih =>
    obtain ⟨rounds', rfl⟩ : ∃ k, rounds' = k + 1 := ⟨rounds' - 1, by omega⟩
    unfold manyWithin
    rcases hc : Parser.optional p c with ⟨r, c₁⟩ | ⟨e, c₁⟩
    · rw [bind_ok hc, bind_ok hc]
      cases r with
      | none => rfl
      | some a =>
        have hlt : c₁.rest.length < c.rest.length := by
          unfold Parser.optional at hc
          split at hc <;> cases hc
          exact hp ‹_›
        have hrest := @ih rounds' c₁ (by omega) (by omega)
        show EStateM.bind _ _ c₁ = EStateM.bind _ _ c₁
        simp only [EStateM.bind, hrest]
    · rw [bind_error hc, bind_error hc]

/-- So does the recursion over leading tildes. -/
theorem unaryWithin_eq_of_lt {term : Parser Tree} {rounds rounds' : Nat} {c : Cursor} (h : c.rest.length < rounds)
    (h' : c.rest.length < rounds') : unaryWithin term rounds c = unaryWithin term rounds' c := by
  induction rounds generalizing rounds' c with
  | zero => omega
  | succ rounds ih =>
    obtain ⟨rounds', rfl⟩ : ∃ k, rounds' = k + 1 := ⟨rounds' - 1, by omega⟩
    unfold unaryWithin
    rcases hc : Parser.optional (symbol .tilde) c with ⟨r, c₁⟩ | ⟨e, c₁⟩
    · rw [bind_ok hc, bind_ok hc]
      cases r with
      | none => rfl
      | some span =>
        have hlt : c₁.rest.length < c.rest.length := by
          unfold Parser.optional at hc
          split at hc <;> cases hc
          exact consumes_symbol .tilde ‹_›
        have hrest := @ih rounds' c₁ (by omega) (by omega)
        show EStateM.bind _ _ c₁ = EStateM.bind _ _ c₁
        simp only [EStateM.bind, hrest]
    · rw [bind_error hc, bind_error hc]

def AgreeBelow (n : Nat) (p q : Parser α) : Prop := ∀ c : Cursor, c.rest.length < n → p c = q c

namespace AgreeBelow

variable {n : Nat}

theorem refl (p : Parser α) : AgreeBelow n p p := fun _ _ => rfl

theorem mono {p q : Parser α} {k : Nat} (h : AgreeBelow n p q) (hk : k ≤ n) : AgreeBelow k p q :=
  fun c hc => h c (by omega)

theorem bind {p q : Parser α} {R : List Token → α → Prop} {f g : α → Parser β} (h : AgreeBelow n p q)
    (hp : Accepts p R) (hf : ∀ a, AgreeBelow n (f a) (g a)) : AgreeBelow n (p >>= f) (q >>= g) := by
  intro c hc
  rcases hr : p c with ⟨a, c₁⟩ | ⟨e, c₁⟩
  · have hq : q c = .ok a c₁ := by rw [← h c hc, hr]
    have hle := hp.length_le hr
    rw [bind_ok hr, bind_ok hq]
    exact hf a c₁ (by omega)
  · have hq : q c = .error e c₁ := by rw [← h c hc, hr]
    rw [bind_error hr, bind_error hq]

/-- Behind a symbol there is one token less to agree on. -/
theorem behind {s : Symbol} {f g : Span → Parser β} (hf : ∀ a, AgreeBelow n (f a) (g a)) :
    AgreeBelow (n + 1) (symbol s >>= f) (symbol s >>= g) := by
  intro c hc
  rcases hr : symbol s c with ⟨a, c₁⟩ | ⟨e, c₁⟩
  · have hlt := consumes_symbol s hr
    rw [bind_ok hr, bind_ok hr]
    exact hf a c₁ (by omega)
  · rw [bind_error hr, bind_error hr]

theorem orElse {p p' q q' : Parser α} (hp : AgreeBelow n p p') (hq : AgreeBelow n q q') :
    AgreeBelow n (orElse p q) (orElse p' q') := by
  intro c hc
  unfold Parser.orElse
  rw [hp c hc]
  split
  · rfl
  · exact hq _ hc

theorem label {p q : Parser α} {x : Expectation} (h : AgreeBelow n p q) : AgreeBelow n (label x p) (label x q) := by
  intro c hc
  simp only [Parser.label, h c hc]

theorem optional {p q : Parser α} (h : AgreeBelow n p q) : AgreeBelow n (optional p) (optional q) := by
  intro c hc
  simp only [Parser.optional, h c hc]

theorem many {p q : Parser α} {R : List Token → α → Prop} (h : AgreeBelow n p q) (hp : Accepts p R) :
    AgreeBelow n (many p) (many q) := by
  have hwithin : ∀ rounds, AgreeBelow n (manyWithin p rounds) (manyWithin q rounds) := by
    intro rounds
    induction rounds with
    | zero => exact refl _
    | succ rounds ih =>
      refine h.optional.bind hp.optional fun r => ?_
      cases r with
      | none => exact refl _
      | some a =>
        have hmany : Accepts (manyWithin p rounds) fun _ _ => True :=
          hp.manyWithin trivial (fun _ _ _ _ _ _ => trivial) rounds
        exact ih.bind hmany fun _ => refl _
  exact fun c hc => hwithin _ c hc

theorem commaSeparated {p q : Parser α} {R : List Token → α → Prop} (h : AgreeBelow n p q) (hp : Accepts p R) :
    AgreeBelow n (commaSeparated p) (commaSeparated q) := by
  have hbehind : AgreeBelow n (do let _ ← symbol .comma; p) (do let _ ← symbol .comma; q) :=
    (behind fun _ => h).mono (by omega)
  have hmany : Accepts (Parser.many (do let _ ← symbol .comma; p)) fun _ _ => True :=
    (hp.behind .comma).many trivial fun _ _ _ _ _ _ => trivial
  refine h.optional.bind hp.optional fun r => ?_
  cases r with
  | none => exact refl _
  | some a => exact (hbehind.many (hp.behind .comma)).bind hmany fun _ => refl _

theorem delimited {p q : Parser α} {R : List Token → α → Prop} (h : AgreeBelow n p q) (hp : Accepts p R)
    (opening closing : Symbol) : AgreeBelow (n + 1) (delimited opening closing p) (delimited opening closing q) := by
  have hitems : Accepts (Parser.commaSeparated p) fun _ _ => True :=
    hp.commaSeparated (T := fun _ _ => True) trivial trivial (fun _ _ _ _ _ _ _ => trivial) fun _ _ _ _ _ _ => trivial
  exact behind fun _ => (h.commaSeparated hp).bind hitems fun _ => refl _

theorem entry {p q : Parser Tree} (h : AgreeBelow n p q) (hp : Reads .term p) :
    AgreeBelow n (entry p) (entry q) := by
  have hbehind : AgreeBelow n (do let _ ← symbol .mapsTo; p) (do let _ ← symbol .mapsTo; q) :=
    (behind fun _ => h).mono (by omega)
  exact h.bind hp fun _ => hbehind.optional.bind (Accepts.behind hp .mapsTo).optional fun _ => refl _

/-- Terms nest in a primary behind a delimiter. -/
theorem primary {p q : Parser Tree} (h : AgreeBelow n p q) (hp : Reads .term p) :
    AgreeBelow (n + 1) (primary p) (primary q) := by
  have hargs := fun opening closing => h.delimited hp opening closing
  have haccepts := fun opening closing => accepts_arguments hp opening closing
  refine label (orElse (orElse (orElse (orElse ?_ ?_) ?_) ?_) ?_)
  · exact refl _
  · refine (refl identifier).bind accepts_identifier fun _ => ?_
    exact (hargs _ _).optional.bind (haccepts _ _).optional fun _ => refl _
  · exact (hargs _ _).bind (haccepts _ _) fun _ => refl _
  · exact (hargs _ _).bind (haccepts _ _) fun _ => refl _
  · have hentries : Accepts (Parser.commaSeparated (Parser.entry p)) fun _ _ => True :=
      (accepts_entry hp).commaSeparated (T := fun _ _ => True) trivial trivial (fun _ _ _ _ _ _ _ => trivial)
        fun _ _ _ _ _ _ => trivial
    exact ((h.entry hp).delimited (accepts_entry hp) _ _).bind (hentries.delimited _ _) fun _ => refl _

theorem unary {p q : Parser Tree} (h : AgreeBelow n p q) (hp : Reads .term p) :
    AgreeBelow (n + 1) (unary p) (unary q) := by
  have hwithin : ∀ rounds, AgreeBelow (n + 1) (unaryWithin p rounds) (unaryWithin q rounds) := by
    intro rounds
    induction rounds with
    | zero => exact h.primary hp
    | succ rounds ih =>
      refine (refl (Parser.optional (symbol .tilde))).bind (accepts_symbol .tilde).optional fun r => ?_
      cases r with
      | none => exact h.primary hp
      | some span => exact ih.bind (reads_unaryWithin hp rounds) fun _ => refl _
  exact fun c hc => hwithin _ c hc

theorem operands {p q : Parser Tree} {l : Level} (h : AgreeBelow n p q) (hp : Reads l p) (separator : Symbol)
    (wrap : List Tree → Span → Tree) : AgreeBelow n (operands separator p wrap) (operands separator q wrap) := by
  have hbehind : AgreeBelow n (do let _ ← symbol separator; p) (do let _ ← symbol separator; q) :=
    (behind fun _ => h).mono (by omega)
  have hmany : Accepts (Parser.many (do let _ ← symbol separator; p)) fun _ _ => True :=
    (Accepts.behind hp separator).many trivial fun _ _ _ _ _ _ => trivial
  exact h.bind hp fun _ => (hbehind.many (Accepts.behind hp separator)).bind hmany fun _ => refl _

end AgreeBelow

/-- More depth than there are tokens changes nothing. -/
theorem termWithin_agree {n depth depth' : Nat} (h : n ≤ depth) (h' : n ≤ depth') :
    AgreeBelow n (termWithin depth) (termWithin depth') := by
  induction n generalizing depth depth' with
  | zero => exact fun c hc => absurd hc (Nat.not_lt_zero _)
  | succ n ih =>
    obtain ⟨depth, rfl⟩ : ∃ k, depth = k + 1 := ⟨depth - 1, by omega⟩
    obtain ⟨depth', rfl⟩ : ∃ k, depth' = k + 1 := ⟨depth' - 1, by omega⟩
    have hnested : AgreeBelow n (termWithin depth) (termWithin depth') := ih (by omega) (by omega)
    have hunary := hnested.unary (reads_term depth)
    have hinner := hunary.operands (reads_unary (reads_term depth)) .ampersand .intersection
    exact hinner.operands (reads_intersection (reads_term depth)) .bar .union

theorem termWithin_eq_of_lt {w : List Token} {f : Option (Nat × ParseError)} {depth : Nat} (h : w.length < depth) :
    termWithin depth ⟨w, f⟩ = Parser.term ⟨w, f⟩ :=
  termWithin_agree (n := w.length + 1) (by omega) (Nat.le_refl _) ⟨w, f⟩ (Nat.lt_succ_self _)

/-! ## Brace groups -/

/-- What a brace group stands for: plain terms are the elements of a set, maplets the entries of a map. -/
inductive Braced (span : Span) : List (Tree × Option Tree) → Tree → Prop
  | set (items : List Tree) : Braced span (items.map fun t => (t, none)) (.set items span)
  | map {entries : List (Tree × Tree)} : entries ≠ [] →
      Braced span (entries.map fun e => (e.1, some e.2)) (.map entries span)

theorem eq_map_of_no_maplets {es : List (Tree × Option Tree)}
    (h : es.filterMap (fun (key, value) => value.map (key, ·)) = []) :
    es = (es.map (·.1)).map fun t => (t, none) := by
  induction es with
  | nil => rfl
  | cons e es ih =>
    obtain ⟨key, value⟩ := e
    cases value with
    | none => simpa using ih (by simpa using h)
    | some value => simp at h

theorem eq_map_of_all_maplets {es : List (Tree × Option Tree)}
    (h : (es.filterMap (fun (key, value) => value.map (key, ·))).length = es.length) :
    es = (es.filterMap (fun (key, value) => value.map (key, ·))).map fun e => (e.1, some e.2) := by
  induction es with
  | nil => rfl
  | cons e es ih =>
    obtain ⟨key, value⟩ := e
    cases value with
    | none =>
      -- an entry that is no maplet is missing in the count
      have hle : (es.filterMap (fun (key, value) => value.map (key, ·))).length ≤ es.length :=
        List.length_filterMap_le _ _
      rw [List.filterMap_cons_none rfl, List.length_cons] at h
      omega
    | some value => simpa using ih (by simpa using h)

theorem ofEntries?_eq_some {es : List (Tree × Option Tree)} {span : Span} {t : Tree} :
    ofEntries? es span = some t ↔ Braced span es t := by
  constructor
  · intro h
    unfold ofEntries? at h
    simp only [List.isEmpty_iff] at h
    split at h
    · rename_i hnone
      cases h
      have hset : Braced span _ (.set (es.map (·.1)) span) := .set _
      rwa [← eq_map_of_no_maplets hnone] at hset
    · rename_i hne
      split at h
      · rename_i hlen
        cases h
        have hmap : Braced span _ (.map _ span) := .map hne
        rwa [← eq_map_of_all_maplets hlen] at hmap
      · cases h
  · intro h
    cases h with
    | set items =>
      have hnone : (items.map fun t => (t, (none : Option Tree))).filterMap
          (fun (key, value) => value.map (key, ·)) = [] := by
        simp [List.filterMap_map]
      simp [ofEntries?, hnone, Function.comp_def]
    | @map entries hne =>
      have hall : (entries.map fun e => (e.1, some e.2)).filterMap
          (fun (key, value) => value.map (key, ·)) = entries := by
        rw [List.filterMap_map]
        exact List.filterMap_some
      simp [ofEntries?, hall, hne]

/-! ## Exactly the grammar -/

/-- The parser gives a tree exactly if the grammar derives it from all of the tokens, and the grammar derives one
tree at most. A brace group is all plain terms or all maplets. The bounds on the nesting of terms, on leading
tildes and on the rounds of a loop are never reached: more of them gives the same answer. -/
theorem parse_exactly_grammar :
    (∀ w t, Tree.parse w = .ok t ↔ Derives w (.tree .term t)) ∧
    (∀ w t t', Derives w (.tree .term t) → Derives w (.tree .term t') → t = t') ∧
    (∀ es span t, ofEntries? es span = some t ↔ Braced span es t) ∧
    (∀ w f depth, w.length < depth → termWithin depth ⟨w, f⟩ = Parser.term ⟨w, f⟩) ∧
    (∀ term w f rounds, w.length < rounds → unaryWithin term rounds ⟨w, f⟩ = unary term ⟨w, f⟩) ∧
    (∀ separator depth l w f rounds, w.length < rounds →
      manyWithin (do let _ ← symbol separator; parserAt depth l) rounds ⟨w, f⟩ =
        many (do let _ ← symbol separator; parserAt depth l) ⟨w, f⟩) ∧
    ∀ depth w f rounds, w.length < rounds →
      manyWithin (do let _ ← symbol .comma; entry (termWithin depth)) rounds ⟨w, f⟩ =
        many (do let _ ← symbol .comma; entry (termWithin depth)) ⟨w, f⟩ := by
  refine ⟨fun w t => ⟨derives_of_parse, parse_of_derives⟩, ?_, fun _ _ _ => ofEntries?_eq_some, ?_, ?_, ?_, ?_⟩
  · intro w t t' h h'
    have hparse := parse_of_derives h
    rw [parse_of_derives h'] at hparse
    exact (Except.ok.inj hparse).symm
  · exact fun w f depth h => termWithin_eq_of_lt h
  · exact fun term w f rounds h => unaryWithin_eq_of_lt h (Nat.lt_succ_self _)
  · intro separator depth l w f rounds h
    exact manyWithin_eq_of_lt (Accepts.consumes_behind (reads_parserAt depth l) separator) h (Nat.lt_succ_self _)
  · intro depth w f rounds h
    exact manyWithin_eq_of_lt ((accepts_entry (reads_term depth)).consumes_behind .comma) h (Nat.lt_succ_self _)

/-- The tokens of `f(1) | ~g`: a union of a call and a complement, and of nothing else. -/
theorem parse_exactly_grammar_union :
    let place := fun n : Nat => (⟨⟨0, n⟩, ⟨0, n + 1⟩⟩ : Span)
    let w : List Token := [⟨.identifier "f", place 0⟩, ⟨.symbol .openParen, place 1⟩, ⟨.integer "1", place 2⟩,
      ⟨.symbol .closeParen, place 3⟩, ⟨.symbol .bar, place 5⟩, ⟨.symbol .tilde, place 7⟩, ⟨.identifier "g", place 8⟩]
    let t : Tree := .union [.call "f" [.integer "1" (place 2)] ⟨⟨0, 0⟩, ⟨0, 4⟩⟩,
      .complement (.name "g" (place 8)) ⟨⟨0, 7⟩, ⟨0, 9⟩⟩] ⟨⟨0, 0⟩, ⟨0, 9⟩⟩
    Tree.parse w = .ok t ∧ Derives w (.tree .term t) ∧ (∀ t', Derives w (.tree .term t') → t' = t) ∧
      termWithin 8 ⟨w, none⟩ = Parser.term ⟨w, none⟩ := by
  intro place w t
  have hparse : Tree.parse w = .ok t := by rfl
  obtain ⟨haccepts, hunique, -, hdepth, -⟩ := parse_exactly_grammar
  have hderives := (haccepts w t).mp hparse
  exact ⟨hparse, hderives, fun t' h => hunique w t' t h hderives, hdepth w none 8 (by decide)⟩

end TermMachine.Grammar
