import TermMachine.Proofs.RecordedErrors

/-!
# The first offending token

`RecordedErrors` shows that no error goes too far: before each that is recorded the input is the beginning of a term. Here is
the other half, that the error kept goes far enough. A token offends if it leads nowhere from the place behind the tokens
before it, and so does the end of the input where the term is not complete. A parser that gives up, or ends before tokens it
could have gone on with, has recorded an error at an offence.

`Finds w d A p E Q` says this of a parser on an input that is the end of `w`: in a context `A` it records an error at an
offence, or it fails as in `E`, or it succeeds as in `Q`. The contexts are places. An operand of a level ends before a token
that cannot go on with it (`Behind`), an item of a group before a comma, the end of the group or an offence (`Item`).

An error at an offence inside a brace group, behind an operand, expects a term too: that is where the failure of the group
is recorded once more.

Proved: `finds_term`, for the parser of terms, unless a whole brace group mixes maplets and plain terms.
-/

namespace TermMachine.Grammar

open TermMachine.Parser

variable {α β : Type}

/-! ## Offences -/

/-- No term goes on with the next token, or there is none. -/
def Offends (u rest : List Token) : Prop :=
  ∀ token ∈ rest.head?, Place.start.follow (u ++ [token]) = none

/-- Behind an operand in a brace group. -/
def InBraces (u : List Token) : Prop :=
  ∃ name g gs, Place.start.follow u = some ⟨.behind name, g :: gs⟩ ∧ g.closing = .closeBrace

/-- The error kept is further into the input than `rest`, or it is there and expects at least `xs`. -/
def Noted (xs : List Expectation) (rest : List Token) (f : Option (Nat × ParseError)) : Prop :=
  ∃ left err, f = some (left, err) ∧ (left < rest.length ∨ left = rest.length ∧ ∀ x ∈ xs, x ∈ err.expected)

theorem Noted.mono {xs : List Expectation} {rest : List Token} {f g : Option (Nat × ParseError)} (h : Noted xs rest f)
    (hfg : NoFurther f g) : Noted xs rest g := by
  obtain ⟨left, err, hf, hleft⟩ := h
  obtain ⟨left', err', hg, hleft'⟩ := hfg left err hf
  refine ⟨left', err', hg, ?_⟩
  rcases hleft with hlt | ⟨heq, hxs⟩ <;> rcases hleft' with hlt' | ⟨heq', herr⟩
  · exact .inl (by omega)
  · exact .inl (by omega)
  · exact .inl (by omega)
  · exact .inr ⟨by omega, fun x hx => herr x (hxs x hx)⟩

theorem noted_record (c : Cursor) (err : ParseError) : Noted err.expected c.rest (c.record err).furthest := by
  unfold Cursor.record
  dsimp only
  split
  · exact ⟨_, _, rfl, .inr ⟨rfl, fun _ hx => hx⟩⟩
  · rename_i place known hf
    split
    · exact ⟨place, known, hf, .inl ‹_›⟩
    · split
      · exact ⟨place, _, rfl, .inr ⟨‹_›, fun x hx => mem_mergeExpected.mpr (.inr hx)⟩⟩
      · exact ⟨_, _, rfl, .inr ⟨rfl, fun _ hx => hx⟩⟩

/-- An error has been recorded at an offence. In a brace group it expects a term. -/
def Reached (w : List Token) (f : Option (Nat × ParseError)) : Prop :=
  ∃ u rest xs, w = u ++ rest ∧ Offends u rest ∧ (InBraces u → .term ∈ xs) ∧ Noted xs rest f

theorem Reached.mono {w : List Token} {f g : Option (Nat × ParseError)} (h : Reached w f) (hfg : NoFurther f g) :
    Reached w g := by
  obtain ⟨u, rest, xs, hw, hoffends, hterm, hnoted⟩ := h
  exact ⟨u, rest, xs, hw, hoffends, hterm, hnoted.mono hfg⟩

theorem offends_of_next {u rest : List Token} {p : Place} (hu : Place.start.follow u = some p)
    (h : ∀ token ∈ rest.head?, p.next token.lexeme = none) : Offends u rest := by
  intro token htoken
  rw [Place.follow_concat hu]
  exact h token htoken

theorem lead_of_head? {rest : List Token} {s : Symbol} {span : Span} (h : ⟨.symbol s, span⟩ ∈ rest.head?) :
    lead rest = some s := by
  obtain ⟨more, rfl⟩ := List.head?_eq_some_iff.mp h
  rfl

/-- Behind an operand only symbols can come. -/
theorem offends_behind {u rest : List Token} {name : Bool} {gs : List Group}
    (hu : Place.start.follow u = some ⟨.behind name, gs⟩)
    (h : ∀ s, lead rest = some s → Place.pastNext name gs s = none) : Offends u rest := by
  refine offends_of_next hu ?_
  rintro ⟨x, span⟩ htoken
  cases x with
  | symbol s => exact h s (lead_of_head? htoken)
  | _ => rfl

/-! ## Laws -/

/-- Whatever the parser does to the error that is kept, it does by recording errors. -/
def OnlyRecords (p : Parser α) : Prop := Records (fun _ _ => False) p

theorem OnlyRecords.bind {p : Parser α} {q : α → Parser β} (hp : OnlyRecords p) (hq : ∀ a, OnlyRecords (q a)) :
    OnlyRecords (p >>= q) := by
  intro u c
  have hfirst := hp u c
  rcases hc : p c with ⟨a, c₁⟩ | ⟨e, c₁⟩
  · rw [cursorAfter_ok hc] at hfirst
    rw [cursorAfter, bind_ok hc]
    exact hfirst.trans ((hq a u c₁).mono fun _ _ _ hfalse => hfalse.elim)
  · rwa [cursorAfter_error (bind_error hc), ← cursorAfter_error hc]

/-- What a parser does in a context `A`, reading the end of `w`, which has fewer than `d` tokens: an error is recorded at an
offence, or it fails as in `E` with some tokens left, or it succeeds as in `Q`. -/
structure Finds (w : List Token) (d : Nat) (A : List Token → List Token → Prop) (p : Parser α)
    (E : List Token → List Token → List Token → Prop) (Q : α → List Token → List Token → Prop) : Prop where
  records : OnlyRecords p
  ok : ∀ {u c a c'}, w = u ++ c.rest → c.rest.length < d → A u c.rest → p c = .ok a c' →
    Reached w c'.furthest ∨ ∃ v, c.rest = v ++ c'.rest ∧ Q a (u ++ v) c'.rest
  error : ∀ {u c e c'}, w = u ++ c.rest → c.rest.length < d → A u c.rest → p c = .error e c' →
    Reached w c'.furthest ∨ E u c.rest c'.rest

section
variable {w : List Token} {d : Nat} {A B : List Token → List Token → Prop} {p q : Parser α}
  {E F : List Token → List Token → List Token → Prop} {Q P : α → List Token → List Token → Prop}

def Never (_u _rest _left : List Token) : Prop := False

namespace Finds

theorem grows_ok (h : Finds w d A p E Q) {c c' : Cursor} {a : α} (hc : p c = .ok a c') :
    NoFurther c.furthest c'.furthest := by
  simpa only [cursorAfter_ok hc] using h.records.grows c

theorem grows_error (h : Finds w d A p E Q) {c c' : Cursor} {e : ParseError} (hc : p c = .error e c') :
    NoFurther c.furthest c'.furthest := by
  simpa only [cursorAfter_error hc] using h.records.grows c

theorem restrict (h : Finds w d A p E Q) (hA : ∀ u rest, B u rest → A u rest) : Finds w d B p E Q where
  records := h.records
  ok hw hd hB := h.ok hw hd (hA _ _ hB)
  error hw hd hB := h.error hw hd (hA _ _ hB)

theorem imp_error (h : Finds w d A p E Q) (hE : ∀ u rest left, A u rest → E u rest left → F u rest left) :
    Finds w d A p F Q where
  records := h.records
  ok := h.ok
  error hw hd hA hc := (h.error hw hd hA hc).imp_right (hE _ _ _ hA)

theorem imp_ok (h : Finds w d A p E Q) (hQ : ∀ a u rest, Q a u rest → P a u rest) : Finds w d A p E P where
  records := h.records
  ok hw hd hA hc := by
    rcases h.ok hw hd hA hc with hreached | ⟨v, hv, hQv⟩
    · exact .inl hreached
    · exact .inr ⟨v, hv, hQ _ _ _ hQv⟩
  error := h.error

/-- On shorter inputs. -/
theorem shorter {d' : Nat} (h : Finds w d A p E Q) (hd : d' ≤ d) : Finds w d' A p E Q where
  records := h.records
  ok hw hd' := h.ok hw (by omega)
  error hw hd' := h.error hw (by omega)

theorem accepting {R : List Token → α → Prop} (h : Finds w d A p E Q) (hR : Accepts p R) :
    Finds w d A p E fun a u rest => Q a u rest ∧ ∃ u₀ v, u = u₀ ++ v ∧ R v a where
  records := h.records
  ok {u c a c'} hw hd hA hc := by
    rcases h.ok hw hd hA hc with hreached | ⟨v, hv, hQ⟩
    · exact .inl hreached
    · obtain ⟨v', hv', hRv⟩ := hR hc
      obtain rfl : v' = v := List.append_cancel_right (hv'.symm.trans hv)
      exact .inr ⟨v', hv, hQ, u, v', rfl, hRv⟩
  error := h.error

theorem pure {a : α} (h : ∀ u rest, A u rest → Q a u rest) : Finds w d A (pure a) E Q where
  records := .pure a
  ok {u c a' c'} hw hd hA hc := by
    cases hc
    exact .inr ⟨[], rfl, by simpa using h u c.rest hA⟩
  error hw hd hA hc := nomatch hc

/-- The second parser reads what is left, which may be known to be shorter. Where it fails, the whole fails. -/
theorem bind_shorter {q : α → Parser β} {k : α → Nat} {F : α → List Token → List Token → List Token → Prop}
    {R : β → List Token → List Token → Prop} (hp : Finds w d A p E Q) (hq : ∀ a, Finds w (k a) (Q a) (q a) (F a) R)
    (hk : ∀ c a c', p c = .ok a c' → c'.rest.length ≤ c.rest.length → c.rest.length < d → c'.rest.length < k a)
    (hF : ∀ u v c a c' left, p c = .ok a c' → c.rest = v ++ c'.rest → F a (u ++ v) c'.rest left → E u c.rest left) :
    Finds w d A (p >>= q) E R := by
  -- where the first parser has succeeded, the second finds itself in its context
  have hsecond : ∀ {u c a c₁}, w = u ++ c.rest → c.rest.length < d → A u c.rest → p c = .ok a c₁ →
      Reached w c₁.furthest ∨ ∃ v, c.rest = v ++ c₁.rest ∧ w = u ++ v ++ c₁.rest ∧ c₁.rest.length < k a ∧
        Q a (u ++ v) c₁.rest := by
    intro u c a c₁ hw hd hA h₁
    rcases hp.ok hw hd hA h₁ with hreached | ⟨v, hv, hQ⟩
    · exact .inl hreached
    · have hle : c₁.rest.length ≤ c.rest.length := by
        rw [hv, List.length_append]
        omega
      exact .inr ⟨v, hv, by rw [hw, hv, List.append_assoc], hk c a c₁ h₁ hle hd, hQ⟩
  constructor
  · exact hp.records.bind fun a => (hq a).records
  · intro u c b c' hw hd hA hc
    obtain ⟨a, c₁, h₁, h₂⟩ := bind_ok_cases hc
    rcases hsecond hw hd hA h₁ with hreached | ⟨v, hv, hw₁, hd₁, hQ⟩
    · exact .inl (hreached.mono ((hq a).grows_ok h₂))
    · rcases (hq a).ok hw₁ hd₁ hQ h₂ with hreached | ⟨v', hv', hR⟩
      · exact .inl hreached
      · exact .inr ⟨v ++ v', by rw [hv, hv', List.append_assoc], by rwa [← List.append_assoc]⟩
  · intro u c e c' hw hd hA hc
    rcases bind_error_cases hc with h₁ | ⟨a, c₁, h₁, h₂⟩
    · exact hp.error hw hd hA h₁
    · rcases hsecond hw hd hA h₁ with hreached | ⟨v, hv, hw₁, hd₁, hQ⟩
      · exact .inl (hreached.mono ((hq a).grows_error h₂))
      · exact ((hq a).error hw₁ hd₁ hQ h₂).imp_right (hF u v c a c₁ c'.rest h₁ hv)

/-- If both can fail in the same way, where it does not matter what was read. -/
theorem bind_either {q : α → Parser β} {H : List Token → Prop} {R : β → List Token → List Token → Prop}
    (hp : Finds w d A p (fun _ _ => H) Q) (hq : ∀ a, Finds w d (Q a) (q a) (fun _ _ => H) R) :
    Finds w d A (p >>= q) (fun _ _ => H) R :=
  hp.bind_shorter hq (fun _ _ _ _ hle hd => Nat.lt_of_le_of_lt hle hd) fun _ _ _ _ _ _ _ _ h => h

/-- If only the first can fail. -/
theorem bind {q : α → Parser β} {R : β → List Token → List Token → Prop} (hp : Finds w d A p E Q)
    (hq : ∀ a, Finds w d (Q a) (q a) Never R) : Finds w d A (p >>= q) E R :=
  hp.bind_shorter hq (fun _ _ _ _ hle hd => Nat.lt_of_le_of_lt hle hd) fun _ _ _ _ _ _ _ _ h => h.elim

theorem orElse (hp : Finds w d A p E Q) (hq : Finds w d A q F Q) :
    Finds w d A (Parser.orElse p q) (fun u rest left => (∃ left', E u rest left') ∧ F u rest left) Q where
  records := Records.orElse hp.records hq.records
  ok {u c a c'} hw hd hA hc := by
    unfold Parser.orElse at hc
    split at hc
    · cases hc
      exact hp.ok hw hd hA ‹_›
    · rename_i c₁ _
      exact hq.ok (c := ⟨c.rest, c₁.furthest⟩) hw hd hA hc
  error {u c e c'} hw hd hA hc := by
    obtain ⟨e₁, c₁, h₁, h₂⟩ := orElse_error hc
    rcases hp.error hw hd hA h₁ with hreached | hE
    · exact .inl (hreached.mono (hq.grows_error (c := ⟨c.rest, c₁.furthest⟩) h₂))
    · exact (hq.error (c := ⟨c.rest, c₁.furthest⟩) hw hd hA h₂).imp_right fun hF => ⟨⟨_, hE⟩, hF⟩

/-- An option does not fail: it reads nothing where its parser fails. -/
theorem optional (hp : Finds w d A p E Q) : Finds w d A (Parser.optional p) Never
    fun r u rest => r.elim (A u rest ∧ ∃ left, E u rest left) fun a => Q a u rest where
  records := Records.optional hp.records
  ok {u c r c'} hw hd hA hc := by
    unfold Parser.optional at hc
    split at hc
    · cases hc
      exact hp.ok hw hd hA ‹_›
    · rename_i e c₁ h₁
      cases hc
      rcases hp.error hw hd hA h₁ with hreached | hE
      · exact .inl hreached
      · exact .inr ⟨[], rfl, by simpa using ⟨hA, _, hE⟩⟩
  error {u c e c'} hw hd hA hc := by
    obtain ⟨r, c₁, h₁⟩ := optional_ok p c
    rw [h₁] at hc
    cases hc

/-- A failure that is reported as a missing term is recorded where it arose. -/
theorem label (hp : Finds w d A p E Q)
    (hE : ∀ u rest left, w = u ++ rest → A u rest → E u rest left →
      (∃ u', w = u' ++ left ∧ Offends u' left) ∨ F u rest left) : Finds w d A (Parser.label .term p) F Q where
  records := Records.label hp.records fun _ _ _ _ hfalse => hfalse.elim
  ok {u c a c'} hw hd hA hc := by
    unfold Parser.label at hc
    split at hc
    · cases hc
      exact hp.ok hw hd hA ‹_›
    · cases hc
  error {u c e c'} hw hd hA hc := by
    unfold Parser.label at hc
    split at hc
    · cases hc
    · rename_i e₁ c₁ h₁
      cases hc
      rcases hp.error hw hd hA h₁ with hreached | hEu
      · exact .inl (hreached.mono (noFurther_record _ _))
      · rcases hE u c.rest c₁.rest hw hA hEu with ⟨u', hw', hoffends⟩ | hF
        · exact .inl ⟨u', c₁.rest, [.term], hw', hoffends, fun _ => .head _, noted_record _ _⟩
        · exact .inr (by rwa [record_rest])

end Finds

theorem finds_symbol (s : Symbol) : Finds w d A (symbol s) (fun _ rest left => lead rest ≠ some s ∧ left = rest)
    fun span u rest => ∃ u₀, u = u₀ ++ [⟨.symbol s, span⟩] ∧ A u₀ (⟨.symbol s, span⟩ :: rest) where
  records := records_symbol fun _ _ hfalse => hfalse.elim
  ok {u c span c'} hw hd hA hc := by
    obtain ⟨_, hv, rfl⟩ := accepts_symbol s hc
    exact .inr ⟨_, hv, u, rfl, by rwa [hv] at hA⟩
  error {u c e c'} hw hd hA hc := by
    obtain ⟨hlead, -, rfl⟩ := symbol_error hc
    exact .inr ⟨hlead, record_rest _ _⟩

/-- Behind a symbol there is one token less to read. -/
theorem Finds.behind {s : Symbol} {q : Span → Parser β} {H : List Token → Prop} {R : β → List Token → List Token → Prop}
    (hq : ∀ span, Finds w d (fun u rest => ∃ u₀, u = u₀ ++ [⟨.symbol s, span⟩] ∧ A u₀ (⟨.symbol s, span⟩ :: rest))
      (q span) (fun _ _ => H) R) :
    Finds w (d + 1) A (symbol s >>= q) (fun _ rest left => lead rest ≠ some s ∧ left = rest ∨ H left) R := by
  have hsymbol := (finds_symbol (w := w) (d := d + 1) (A := A) s).imp_error
    (F := fun _ rest left => lead rest ≠ some s ∧ left = rest ∨ H left) fun _ _ _ _ h => .inl h
  refine hsymbol.bind_shorter hq (fun c span c' hc _ hd => ?_) fun _ _ _ _ _ _ _ _ h => .inr h
  have hlt := consumes_symbol s hc
  omega

end

/-! ## Rows -/

/-- An operand has to come, or the group that has just been opened may end. -/
def Before (gs : List Group) (u _rest : List Token) : Prop := ∃ opened, Place.start.follow u = some ⟨.before opened, gs⟩

def Required (gs : List Group) (u _rest : List Token) : Prop := Place.start.follow u = some ⟨.before false, gs⟩

def EndsEmpty (gs : List Group) (u rest _left : List Token) : Prop :=
  Place.start.follow u = some ⟨.before true, gs⟩ ∧ ∃ g gs', gs = g :: gs' ∧ lead rest = some g.closing

/-- An operand of a level is complete: what could go on with it does not come. -/
def Behind (l : Level) (gs : List Group) (u rest : List Token) : Prop :=
  ∃ name, Place.start.follow u = some ⟨.behind name, gs⟩ ∧
    ∀ s, lead rest = some s → continues l s = true → Place.pastNext name gs s = none

def Item (closing : Symbol) (gs : List Group) (u rest : List Token) : Prop :=
  ∃ name g, g.closing = closing ∧ Place.start.follow u = some ⟨.behind name, g :: gs⟩ ∧
    ∀ s, lead rest = some s → s = .comma ∨ s = closing ∨ Place.pastNext name (g :: gs) s = none

/-- All items of a group are read: the group ends, or it should. -/
def Items (closing : Symbol) (gs : List Group) (u rest : List Token) : Prop :=
  ∃ m g, m ≠ .before false ∧ g.closing = closing ∧ Place.start.follow u = some ⟨m, g :: gs⟩ ∧
    (lead rest = some closing ∨ Offends u rest)

section
variable {w : List Token} {d : Nat} {s : Symbol} {gs : List Group} {item : Parser α}

/-- Where an operand is required, its absence is an offence. -/
theorem Finds.required {Q : α → List Token → List Token → Prop} (h : Finds w d (Before gs) item (EndsEmpty gs) Q) :
    Finds w d (Required gs) item Never Q := by
  refine (h.restrict (B := Required gs) fun u rest hu => ⟨false, hu⟩).imp_error ?_
  rintro u rest left hu ⟨hu', -⟩
  rw [Required, hu'] at hu
  cases hu

/-- A loop over items behind separators ends where there is no separator. -/
theorem Finds.many {D B : List Token → List Token → Prop} (hitem : Finds w d B item Never fun _ => D)
    (hB : ∀ u rest span, D u (⟨.symbol s, span⟩ :: rest) → B (u ++ [⟨.symbol s, span⟩]) rest)
    (hconsumes : Consumes (do let _ ← symbol s; item)) :
    Finds w d D (many (do let _ ← symbol s; item)) Never fun _ u rest => D u rest ∧ lead rest ≠ some s := by
  have hround : Finds w d D (do let _ ← symbol s; item) (fun _ rest _ => lead rest ≠ some s) fun _ => D := by
    refine ((Finds.behind (A := D) (H := fun _ => False) fun span => ?_).shorter (Nat.le_succ d)).imp_error ?_
    · refine hitem.restrict ?_
      rintro _ rest ⟨u₀, rfl, hD⟩
      exact hB u₀ rest span hD
    · rintro u rest left - (⟨hlead, -⟩ | ⟨⟨⟩⟩)
      exact hlead
  have hwithin : ∀ rounds, Finds w (min rounds d) D (manyWithin (do let _ ← symbol s; item) rounds) Never
      fun _ u rest => D u rest ∧ lead rest ≠ some s := by
    intro rounds
    induction rounds with
    | zero => exact ⟨.pure _, fun _ hd => by omega, fun _ hd => by omega⟩
    | succ rounds ih =>
      -- a round that is made leaves less to read
      refine (hround.shorter (Nat.min_le_right _ _)).optional.bind_shorter
        (k := fun r => r.elim (min (rounds + 1) d) fun _ => min rounds d) (F := fun _ => Never) (fun r => ?_) ?_
        fun _ _ _ _ _ _ _ _ h => h
      · cases r with
        | none => exact .pure fun u rest ⟨hD, _, hlead⟩ => ⟨hD, hlead⟩
        | some a => exact ih.bind fun as => .pure fun _ _ h => h
      · intro c r c' hc hle hd
        cases r with
        | none => exact Nat.lt_of_le_of_lt hle hd
        | some a =>
          have hlt : c'.rest.length < c.rest.length := by
            unfold Parser.optional at hc
            split at hc <;> cases hc
            exact hconsumes ‹_›
          show c'.rest.length < min rounds d
          omega
  constructor
  · exact fun u c => (hwithin _).records u c
  · exact fun {u c a c'} hw hd hD hc => (hwithin (c.rest.length + 1)).ok hw (by omega) hD hc
  · exact fun {u c e c'} hw hd hD hc => (hwithin (c.rest.length + 1)).error hw (by omega) hD hc

/-- Operands of a level make one of the next: it ends where neither another operand nor more of the last one comes. -/
theorem finds_operands {l l' : Level} {operand : Parser Tree} {wrap : List Tree → Span → Tree}
    (hoperand : Finds w d (Before gs) operand (EndsEmpty gs) fun _ => Behind l gs)
    (hconsumes : Consumes (do let _ ← symbol s; operand))
    (hs : ∀ name, Place.pastNext name gs s = some ⟨.before false, gs⟩)
    (hl : ∀ x, continues l' x = true → continues l x = true ∨ x = s) :
    Finds w d (Before gs) (operands s operand wrap) (EndsEmpty gs) fun _ => Behind l' gs := by
  have hmany := hoperand.required.many (s := s) (fun u rest span ⟨name, hu, _⟩ => (Place.follow_concat hu).trans (hs name))
    hconsumes
  refine hoperand.bind fun first => hmany.bind fun rest => ?_
  have hdone : ∀ t : Tree, Finds w d (fun u rest => Behind l gs u rest ∧ lead rest ≠ some s) (pure t) Never
      fun _ => Behind l' gs := by
    refine fun t => .pure ?_
    rintro u rest ⟨⟨name, hu, hnext⟩, hlead⟩
    refine ⟨name, hu, fun x hx hcontinues => ?_⟩
    rcases hl x hcontinues with hcontinues | rfl
    · exact hnext x hx hcontinues
    · exact absurd hx hlead
  cases rest.getLast? <;> exact hdone _

/-- Behind a comma a group is as at its start. -/
theorem Group.nextItem_eq {g g' : Group} (hg : g.nextItem = g) (h : g'.closing = g.closing) : g'.nextItem = g := by
  cases g <;> cases g' <;> simp_all [Group.nextItem, Group.closing]

/-- The items of a group end where the group ends, or at an offence. -/
theorem finds_items {g : Group} (hg : g.nextItem = g)
    (hitem : Finds w d (Before (g :: gs)) item (EndsEmpty (g :: gs)) fun _ => Item g.closing gs)
    (hconsumes : Consumes (do let _ ← symbol .comma; item)) :
    Finds w d (Before (g :: gs)) (commaSeparated item) Never fun _ => Items g.closing gs := by
  have hcomma : ∀ u rest span, Item g.closing gs u (⟨.symbol .comma, span⟩ :: rest) →
      Required (g :: gs) (u ++ [⟨.symbol .comma, span⟩]) rest := by
    rintro u rest span ⟨name, g', hg', hu, -⟩
    rw [Required, Place.follow_concat hu, ← Group.nextItem_eq hg hg']
    rfl
  have hmany := hitem.required.many hcomma hconsumes
  refine hitem.optional.bind fun r => ?_
  cases r with
  | none =>
    refine .pure ?_
    rintro u rest ⟨-, -, hu, g', gs', heq, hlead⟩
    cases heq
    exact ⟨.before true, g, by decide, rfl, hu, .inl hlead⟩
  | some first =>
    refine hmany.bind fun rest => .pure ?_
    rintro u rest ⟨⟨name, g', hg', hu, hends⟩, hcomma⟩
    refine ⟨.behind name, g', by simp, hg', hu, ?_⟩
    by_cases hclosing : lead rest = some g.closing
    · exact .inl hclosing
    · refine .inr (offends_behind hu fun s hs => ?_)
      rcases hends s hs with rfl | rfl | hnone
      · exact absurd hs hcomma
      · exact absurd hs hclosing
      · exact hnone

end

/-! ## Groups -/

def Opens (opening : Symbol) (g : Group) (gs : List Group) (u _rest : List Token) : Prop :=
  ∃ p, Place.start.follow u = some p ∧ p.next (.symbol opening) = some ⟨.before true, g :: gs⟩

/-- A group is read up to an offence. For a brace group this has still to be recorded. -/
def Halts (w : List Token) (closing : Symbol) (left : List Token) : Prop :=
  closing = .closeBrace ∧ ∃ u, w = u ++ left ∧ Offends u left

section
variable {w : List Token} {d : Nat} {closing : Symbol} {gs : List Group}

theorem finds_closing : Finds w d (Items closing gs) (symbol closing) (fun _ _ => Halts w closing)
    fun _ u _ => Place.start.follow u = some ⟨.behind false, gs⟩ where
  records := records_symbol fun _ _ hfalse => hfalse.elim
  ok {u c span c'} hw hd hitems hc := by
    obtain ⟨_, hv, rfl⟩ := accepts_symbol closing hc
    obtain ⟨m, g, hm, rfl, hu, -⟩ := hitems
    exact .inr ⟨_, hv, (Place.follow_concat hu).trans (Place.next_closing hm)⟩
  error {u c e c'} hw hd hitems hc := by
    obtain ⟨hlead, -, rfl⟩ := symbol_error hc
    obtain ⟨m, g, hm, hg, hu, hends⟩ := hitems
    have hoffends : Offends u c.rest := hends.resolve_left hlead
    by_cases hbrace : closing = .closeBrace
    · exact .inr ⟨hbrace, u, by rwa [record_rest], by rwa [record_rest]⟩
    · refine .inl ⟨u, c.rest, _, hw, hoffends, ?_, noted_record _ _⟩
      rintro ⟨name, g', gs', hu', hg'⟩
      rw [hu] at hu'
      cases hu'
      exact absurd (hg.symm.trans hg') hbrace

theorem finds_delimited {g : Group} {item : Parser α} (opening : Symbol) (hg : g.nextItem = g)
    (hitem : Finds w d (Before (g :: gs)) item (EndsEmpty (g :: gs)) fun _ => Item g.closing gs)
    (hconsumes : Consumes (do let _ ← symbol .comma; item)) :
    Finds w (d + 1) (Opens opening g gs) (delimited opening g.closing item)
      (fun _ rest left => lead rest ≠ some opening ∧ left = rest ∨ Halts w g.closing left)
      fun _ u _ => Place.start.follow u = some ⟨.behind false, gs⟩ := by
  have hitems := (finds_items hg hitem hconsumes).imp_error (F := fun _ _ => Halts w g.closing) fun _ _ _ _ h => h.elim
  refine Finds.behind fun span => ?_
  refine Finds.bind_either (hitems.restrict ?_) fun items => finds_closing.bind fun last => .pure fun _ _ h => h
  rintro _ rest ⟨u₀, rfl, p, hu, hp⟩
  exact ⟨true, (Place.follow_concat hu).trans hp⟩

end

/-! ## Rule by rule -/

/-- A group is complete as an operand. -/
theorem behind_of_group {u rest : List Token} {gs : List Group} (hu : Place.start.follow u = some ⟨.behind false, gs⟩) :
    Behind .primary gs u rest := by
  refine ⟨false, hu, fun s _ hs => ?_⟩
  obtain rfl : s = .openParen := by simpa [continues] using hs
  rfl

/-- A term is complete as an item. In a brace group its arrow is not to come. -/
theorem Behind.item {u rest : List Token} {g : Group} {gs : List Group} (h : Behind .term (g :: gs) u rest)
    (hg : g = .key → lead rest ≠ some .mapsTo) : Item g.closing gs u rest := by
  obtain ⟨name, hu, hnext⟩ := h
  refine ⟨name, g, rfl, hu, fun s hs => ?_⟩
  by_cases hcontinues : continues .term s = true
  · exact .inr (.inr (hnext s hs hcontinues))
  · cases s with
    | openParen | ampersand | bar => exact absurd rfl hcontinues
    | comma => exact .inl rfl
    | mapsTo =>
      cases g with
      | key => exact absurd hs (hg rfl)
      | _ => exact .inr (.inr rfl)
    | _ => cases g <;> simp [Group.closing, Place.pastNext, Place.close]

/-- Where no operand begins there is an offence, or a group ends that has just been opened. -/
theorem Before.offends_or_ends {u rest : List Token} {gs : List Group} (h : Before gs u rest)
    (hliteral : ∀ token ∈ rest.head?, token.lexeme.isLiteral = false)
    (hname : ∀ token ∈ rest.head?, token.lexeme.isName = false)
    (hlead : ∀ s ∈ [Symbol.tilde, .openParen, .openBracket, .openBrace], lead rest ≠ some s) :
    Offends u rest ∨ EndsEmpty gs u rest rest := by
  obtain ⟨opened, hu⟩ := h
  match rest with
  | [] => exact .inl fun token htoken => nomatch htoken
  | ⟨x, span⟩ :: rest =>
    cases x with
    | integer text | string text | character text => cases hliteral _ rfl
    | identifier text => cases hname _ rfl
    | symbol s =>
      have hnext : (Place.mk (.before opened) gs).next (.symbol s) = if opened then Place.close s gs else none := by
        cases s with
        | tilde | openParen | openBracket | openBrace => exact absurd rfl (hlead _ (by decide))
        | _ => rfl
      rcases hclose : (if opened then Place.close s gs else none) with _ | p
      · refine .inl (offends_of_next hu ?_)
        rintro _ ⟨⟩
        exact hnext.trans hclose
      · cases opened with
        | false => cases hclose
        | true =>
          obtain ⟨g, gs', rfl, rfl, -⟩ := Place.close_eq_some.mp hclose
          exact .inr ⟨hu, g, gs', rfl, rfl⟩

section
variable {w : List Token} {d : Nat} (gs : List Group)

theorem finds_literal : Finds w d (Before gs) literal
    (fun _ rest _ => ∀ token ∈ rest.head?, token.lexeme.isLiteral = false)
    fun _ => Behind .primary gs where
  records := records_literal fun _ _ hfalse => hfalse.elim
  ok {u c t c'} hw hd hu hc := by
    obtain ⟨opened, hu⟩ := hu
    obtain ⟨token, hrest, hliteral⟩ : ∃ token, c.rest = [token] ++ c'.rest ∧ token.lexeme.isLiteral = true := by
      unfold literal at hc
      split at hc <;> cases hc <;> exact ⟨_, by assumption, rfl⟩
    refine .inr ⟨_, hrest, behind_of_group ?_⟩
    rw [Place.follow_concat hu]
    rcases token with ⟨_ | _ | _ | _ | _, _⟩ <;> first | rfl | cases hliteral
  error {u c e c'} hw hd hu hc := .inr (literal_error hc).1

theorem finds_identifier : Finds w d (Before gs) identifier
    (fun _ rest _ => ∀ token ∈ rest.head?, token.lexeme.isName = false)
    fun _ u _ => Place.start.follow u = some ⟨.behind true, gs⟩ where
  records := records_identifier fun _ _ hfalse => hfalse.elim
  ok {u c r c'} hw hd hu hc := by
    obtain ⟨opened, hu⟩ := hu
    obtain ⟨_, hrest, rfl⟩ := accepts_identifier hc
    exact .inr ⟨_, hrest, Place.follow_concat hu⟩
  error {u c e c'} hw hd hu hc := .inr (identifier_error hc).1

variable {term : Parser Tree} (hterm : ∀ gs, Finds w d (Before gs) term (EndsEmpty gs) fun _ => Behind .term gs)
include hterm

theorem finds_entry : Finds w d (Before (.key :: gs)) (entry term) (EndsEmpty (.key :: gs))
    fun _ => Item .closeBrace gs := by
  refine (hterm (.key :: gs)).bind fun key => ?_
  have hvalue := (Finds.behind (A := Behind .term (.key :: gs)) (s := .mapsTo) (H := fun _ => False) fun span =>
    (hterm (.value :: gs)).required.restrict ?_).shorter (Nat.le_succ d)
  · refine hvalue.optional.bind fun r => .pure ?_
    cases r with
    | none =>
      rintro u rest ⟨hkey, -, ⟨hlead, -⟩ | ⟨⟨⟩⟩⟩
      exact hkey.item fun _ => hlead
    | some value => exact fun u rest hvalue => hvalue.item fun heq => nomatch heq
  · rintro _ rest ⟨u₀, rfl, name, hu, -⟩
    exact Place.follow_concat hu

variable (hreads : Reads .term term)
include hreads

/-- Arguments between parentheses or brackets. -/
theorem finds_arguments {g : Group} (opening : Symbol) (hg : g = .paren ∨ g = .bracket) :
    Finds w (d + 1) (Opens opening g gs) (delimited opening g.closing term) (fun _ rest _ => lead rest ≠ some opening)
      fun _ u _ => Place.start.follow u = some ⟨.behind false, gs⟩ := by
  have hkey : g ≠ .key := by rcases hg with rfl | rfl <;> decide
  have hbrace : g.closing ≠ .closeBrace := by rcases hg with rfl | rfl <;> decide
  have hnext : g.nextItem = g := by rcases hg with rfl | rfl <;> rfl
  have hitem := (hterm (g :: gs)).imp_ok (P := fun _ => Item g.closing gs) fun _ _ _ h => h.item fun heq => absurd heq hkey
  refine (finds_delimited opening hnext hitem (Accepts.consumes_behind hreads .comma)).imp_error ?_
  rintro u rest left - (⟨hlead, -⟩ | ⟨hclosing, -⟩)
  · exact hlead
  · exact absurd hclosing hbrace

theorem finds_call : Finds w (d + 1) (Before gs) (call term)
    (fun _ rest _ => ∀ token ∈ rest.head?, token.lexeme.isName = false) fun _ => Behind .primary gs := by
  refine (finds_identifier gs).bind fun r => ?_
  have harguments := (finds_arguments gs hterm hreads .openParen (.inl rfl)).restrict
    (B := fun u _ => Place.start.follow u = some ⟨.behind true, gs⟩) fun _ _ hu => ⟨_, hu, rfl⟩
  refine harguments.optional.bind fun r => ?_
  cases r with
  | none =>
    refine .pure ?_
    rintro u rest ⟨hu, -, hlead⟩
    refine ⟨true, hu, fun s hs hcontinues => ?_⟩
    obtain rfl : s = .openParen := by simpa [continues] using hcontinues
    exact absurd hs hlead
  | some r => exact .pure fun u rest hu => behind_of_group hu

theorem finds_group : Finds w (d + 1) (Before gs) (group term) (fun _ rest _ => lead rest ≠ some .openParen)
    fun _ => Behind .primary gs :=
  ((finds_arguments gs hterm hreads .openParen (.inl rfl)).restrict fun _ _ ⟨_, hu⟩ => ⟨_, hu, rfl⟩).bind fun _ =>
    .pure fun _ _ hu => behind_of_group hu

theorem finds_list : Finds w (d + 1) (Before gs) (Parser.list term) (fun _ rest _ => lead rest ≠ some .openBracket)
    fun _ => Behind .primary gs :=
  ((finds_arguments gs hterm hreads .openBracket (.inr rfl)).restrict fun _ _ ⟨_, hu⟩ => ⟨_, hu, rfl⟩).bind fun _ =>
    .pure fun _ _ hu => behind_of_group hu

theorem finds_braces (hw : ∀ m, m <:+: w → ¬ MixedGroup m) : Finds w (d + 1) (Before gs) (braces term)
    (fun _ rest left => lead rest ≠ some .openBrace ∧ left = rest ∨ Halts w .closeBrace left)
    fun _ => Behind .primary gs := by
  have hdelimited := finds_delimited .openBrace (g := .key) rfl (finds_entry gs hterm)
    ((accepts_entry hreads).consumes_behind .comma)
  have hgroup := (hdelimited.restrict (B := Before gs) fun _ _ ⟨_, hu⟩ => ⟨_, hu, rfl⟩).accepting (accepts_braced hreads)
  refine hgroup.bind fun r => ?_
  rcases ht : ofEntries? r.1 r.2 with _ | t
  · -- a whole group that is refused mixes its entries
    simp only [ht]
    refine ⟨fun _ _ => .error .nothing fun hfalse => hfalse.elim, fun _ _ _ hc => (nomatch hc), ?_⟩
    rintro u c e c' hw' - ⟨-, u₀, v, rfl, -, hmixed⟩ -
    exact absurd (hmixed trivial) (hw v ⟨u₀, c.rest, hw'.symm⟩)
  · simp only [ht]
    exact .pure fun u rest ⟨hu, _⟩ => behind_of_group hu

theorem finds_primary (hw : ∀ m, m <:+: w → ¬ MixedGroup m) :
    Finds w (d + 1) (fun u rest => Before gs u rest ∧ lead rest ≠ some .tilde) (primary term) (EndsEmpty gs)
      fun _ => Behind .primary gs := by
  have halternatives := (((finds_literal (w := w) (d := d + 1) gs).orElse (finds_call gs hterm hreads)).orElse
    (finds_group gs hterm hreads)).orElse (finds_list gs hterm hreads) |>.orElse (finds_braces gs hterm hreads hw)
  refine (halternatives.restrict (B := fun u rest => Before gs u rest ∧ lead rest ≠ some .tilde) fun _ _ h => h.1).label ?_
  rintro u rest left hw' ⟨hbefore, htilde⟩ ⟨⟨-, ⟨-, ⟨-, ⟨-, hliteral⟩, hname⟩, hparen⟩, hbracket⟩, hbraces⟩
  rcases hbraces with ⟨hbrace, rfl⟩ | ⟨-, hhalts⟩
  · have hlead : ∀ s ∈ [Symbol.tilde, .openParen, .openBracket, .openBrace], lead left ≠ some s := by
      simp [htilde, hparen, hbracket, hbrace]
    exact (hbefore.offends_or_ends hliteral hname hlead).imp_left fun hoffends => ⟨u, hw', hoffends⟩
  · exact .inl hhalts

theorem finds_unary (hw : ∀ m, m <:+: w → ¬ MixedGroup m) :
    Finds w (d + 1) (Before gs) (unary term) (EndsEmpty gs) fun _ => Behind .unary gs := by
  have hprimary := finds_primary gs hterm hreads hw
  have hwithin : ∀ rounds, Finds w (min rounds (d + 1)) (Before gs) (unaryWithin term rounds) (EndsEmpty gs)
      fun _ => Behind .unary gs := by
    intro rounds
    induction rounds with
    | zero => exact ⟨hprimary.records, fun _ hd => by omega, fun _ hd => by omega⟩
    | succ rounds ih =>
      have htilde := (finds_symbol (w := w) (d := min (rounds + 1) (d + 1)) (A := Before gs) .tilde).optional.imp_error
        (F := EndsEmpty gs) fun _ _ _ _ h => h.elim
      refine htilde.bind_shorter (k := fun r => r.elim (min (rounds + 1) (d + 1)) fun _ => min rounds (d + 1))
        (F := fun r => r.elim (EndsEmpty gs) fun _ => Never) (fun r => ?_) ?_ ?_
      · cases r with
        | none =>
          refine (hprimary.shorter (Nat.min_le_right _ _)).restrict ?_
          rintro u rest ⟨hbefore, -, hlead, -⟩
          exact ⟨hbefore, hlead⟩
        | some span =>
          -- behind a tilde an operand is required
          refine Finds.bind (ih.required.restrict ?_) fun _ => .pure fun _ _ h => h
          rintro _ rest ⟨u₀, rfl, opened, hu⟩
          exact Place.follow_concat hu
      · intro c r c' hc hle hd
        cases r with
        | none => exact Nat.lt_of_le_of_lt hle hd
        | some span =>
          obtain ⟨_, hrest, rfl⟩ := (accepts_symbol .tilde).optional hc
          rw [hrest, List.length_append, List.length_singleton] at hd
          show c'.rest.length < min rounds (d + 1)
          omega
      · intro u v c r c' left hc hv hleft
        cases r with
        | none =>
          obtain ⟨_, hrest, rfl⟩ := (accepts_symbol .tilde).optional hc
          obtain rfl : v = [] := List.append_cancel_right (hv.symm.trans hrest)
          rwa [List.append_nil, ← List.nil_append c'.rest, ← hv] at hleft
        | some span => exact hleft.elim
  constructor
  · exact fun u c => (hwithin _).records u c
  · exact fun {u c t c'} hw' hd hu hc => (hwithin (c.rest.length + 1)).ok hw' (by omega) hu hc
  · exact fun {u c e c'} hw' hd hu hc => (hwithin (c.rest.length + 1)).error hw' (by omega) hu hc

end

/-- The parser of terms overlooks nothing. -/
theorem finds_term {w : List Token} (hw : ∀ m, m <:+: w → ¬ MixedGroup m) (depth : Nat) (gs : List Group) :
    Finds w depth (Before gs) (termWithin depth) (EndsEmpty gs) fun _ => Behind .term gs := by
  induction depth generalizing gs with
  | zero =>
    -- no input is short enough for this depth
    exact ⟨fun _ _ => .error .nothing fun hfalse => hfalse.elim, fun _ hd => absurd hd (Nat.not_lt_zero _),
      fun _ hd => absurd hd (Nat.not_lt_zero _)⟩
  | succ depth ih =>
    have hreads := reads_term depth
    have hintersection : Finds w (depth + 1) (Before gs) (Parser.intersection (termWithin depth)) (EndsEmpty gs)
        fun _ => Behind .intersection gs :=
      finds_operands (finds_unary gs ih hreads hw) (Accepts.consumes_behind (reads_unary hreads) .ampersand) (fun _ => rfl)
        fun x hx => by cases x <;> simp_all [continues]
    exact finds_operands hintersection (Accepts.consumes_behind (reads_intersection hreads) .bar) (fun _ => rfl)
      fun x hx => by cases x <;> simp_all [continues]

end TermMachine.Grammar
