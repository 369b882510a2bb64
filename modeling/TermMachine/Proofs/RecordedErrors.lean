import TermMachine.Proofs.ViablePrefixes

/-!
# What the parser records

A parser that fails records an error at its cursor, and of all that is recorded the error furthest into the input is
kept. Here is what one recorded error says. `Justified u rest err`: the tokens `u` before it are the beginning of a term, it
shows the token at the front of `rest` or the end of the input, and what it expects can come there.

There is one exception. A failure of the last alternative of a primary, the brace group, is recorded once more as a missing
term, at the cursor where that failure arose. If the group has been opened and an entry of it read, the cursor is behind the
entry, where no term can come.

`Records A p` says this of everything that a parser records: in a context `A`, of what was read before and of what is still
to read, each error is justified. There is a law for each combinator; the contexts go from rule to rule as the grammar does.

Proved: `records_term`, that all errors which the parser of terms records are justified, unless a whole brace group mixes
maplets and plain terms, and `Records.grows`, that the error kept is never given up for one less far into the input.
-/

namespace TermMachine.Grammar

open TermMachine.Parser

variable {α β : Type}

/-! ## Where parsers end -/

def cursorAfter (p : Parser α) (c : Cursor) : Cursor :=
  match p c with
  | .ok _ c' | .error _ c' => c'

theorem cursorAfter_ok {p : Parser α} {c c' : Cursor} {a : α} (h : p c = .ok a c') : cursorAfter p c = c' := by
  rw [cursorAfter, h]

theorem cursorAfter_error {p : Parser α} {c c' : Cursor} {e : ParseError} (h : p c = .error e c') :
    cursorAfter p c = c' := by
  rw [cursorAfter, h]

/-- An option never fails, -/
theorem optional_ok (p : Parser α) (c : Cursor) : ∃ r c', Parser.optional p c = .ok r c' := by
  unfold Parser.optional
  split
  · exact ⟨_, _, rfl⟩
  · exact ⟨_, _, rfl⟩

/-- and neither does a loop, which ends where its parser fails, -/
theorem manyWithin_ok (p : Parser α) (rounds : Nat) (c : Cursor) : ∃ as c', manyWithin p rounds c = .ok as c' := by
  induction rounds generalizing c with
  | zero => exact ⟨[], c, rfl⟩
  | succ rounds ih =>
    obtain ⟨r, c₁, h₁⟩ := optional_ok p c
    rw [manyWithin, bind_ok h₁]
    cases r with
    | none => exact ⟨[], c₁, rfl⟩
    | some a =>
      obtain ⟨as, c₂, h₂⟩ := ih c₁
      exact ⟨a :: as, c₂, bind_ok h₂⟩

/-- nor a row of items, of which there may be none. -/
theorem commaSeparated_ok (item : Parser α) (c : Cursor) : ∃ as c', Parser.commaSeparated item c = .ok as c' := by
  obtain ⟨r, c₁, h₁⟩ := optional_ok item c
  rw [Parser.commaSeparated, bind_ok h₁]
  cases r with
  | none => exact ⟨[], c₁, rfl⟩
  | some a =>
    obtain ⟨as, c₂, h₂⟩ := manyWithin_ok (do let _ ← symbol .comma; item) (c₁.rest.length + 1) c₁
    exact ⟨a :: as, c₂, bind_ok h₂⟩

theorem symbol_error {s : Symbol} {c c' : Cursor} {e : ParseError} (h : symbol s c = .error e c') :
    lead c.rest ≠ some s ∧ e = mismatch (.symbol s) c.rest ∧ c' = c.record e := by
  unfold symbol at h
  split at h
  · rename_i s' span rest hrest
    split at h
    · cases h
    · rename_i hne
      cases h
      refine ⟨?_, rfl, rfl⟩
      rw [hrest]
      exact fun hlead => hne (Option.some.inj hlead)
  · rename_i hrest
    cases h
    refine ⟨?_, rfl, rfl⟩
    intro hlead
    unfold lead at hlead
    split at hlead
    · rename_i heq
      exact hrest _ _ _ heq
    · cases hlead

theorem identifier_error {c c' : Cursor} {e : ParseError} (h : identifier c = .error e c') :
    (∀ token ∈ c.rest.head?, token.lexeme.isName = false) ∧ e = mismatch .identifier c.rest ∧ c' = c.record e := by
  unfold identifier at h
  split at h
  · cases h
  · rename_i hrest
    cases h
    refine ⟨?_, rfl, rfl⟩
    rintro ⟨x, s⟩ hx
    obtain ⟨rest, hc⟩ := List.head?_eq_some_iff.mp hx
    cases x with
    | identifier text => exact absurd hc (hrest text s rest)
    | _ => rfl

theorem literal_error {c c' : Cursor} {e : ParseError} (h : literal c = .error e c') :
    (∀ token ∈ c.rest.head?, token.lexeme.isLiteral = false) ∧
      e = { mismatch .literal c.rest with problem := .unexpectedToken } ∧ c' = c.record e := by
  unfold literal at h
  split at h
  · cases h
  · cases h
  · cases h
  · rename_i hinteger hstring hcharacter
    cases h
    refine ⟨?_, rfl, rfl⟩
    rintro ⟨x, s⟩ hx
    obtain ⟨rest, hc⟩ := List.head?_eq_some_iff.mp hx
    cases x with
    | integer text => exact absurd hc (hinteger text s rest)
    | string text => exact absurd hc (hstring text s rest)
    | character text => exact absurd hc (hcharacter text s rest)
    | _ => rfl

theorem orElse_error {p q : Parser α} {c c' : Cursor} {e : ParseError} (h : Parser.orElse p q c = .error e c') :
    ∃ e₁ c₁, p c = .error e₁ c₁ ∧ q ⟨c.rest, c₁.furthest⟩ = .error e c' := by
  unfold Parser.orElse at h
  split at h
  · cases h
  · exact ⟨_, _, ‹_›, h⟩

theorem bind_error_cases {p : Parser α} {q : α → Parser β} {c c' : Cursor} {e : ParseError}
    (h : (p >>= q) c = .error e c') : p c = .error e c' ∨ ∃ a c₁, p c = .ok a c₁ ∧ q a c₁ = .error e c' := by
  rcases hp : p c with ⟨a, c₁⟩ | ⟨e₁, c₁⟩
  · exact .inr ⟨a, c₁, rfl, by rwa [bind_ok hp] at h⟩
  · rw [bind_error hp] at h
    cases h
    exact .inl rfl

/-- A group is missing from its start, or it is not closed behind its items. -/
theorem delimited_error {opening closing : Symbol} {item : Parser α} {c c' : Cursor} {e : ParseError}
    (h : delimited opening closing item c = .error e c') : symbol opening c = .error e c' ∨
      ∃ a as c₁ c₂, symbol opening c = .ok a c₁ ∧ Parser.commaSeparated item c₁ = .ok as c₂ ∧
        symbol closing c₂ = .error e c' := by
  rcases bind_error_cases h with h | ⟨a, c₁, h₁, h⟩
  · exact .inl h
  obtain ⟨as, c₂, h₂⟩ := commaSeparated_ok item c₁
  rcases bind_error_cases h with h | ⟨as', c₂', h₂', h⟩
  · rw [h₂] at h
    cases h
  · rw [h₂] at h₂'
    cases h₂'
    rcases bind_error_cases h with h | ⟨b, c₃, -, h⟩
    · exact .inr ⟨a, as, c₁, c₂, h₁, h₂, h⟩
    · cases h

theorem mismatch_found (x : Expectation) (rest : List Token) : (mismatch x rest).found = rest.head?.map Token.lexeme := by
  cases rest <;> rfl

theorem mismatch_span (x : Expectation) (rest : List Token) : (mismatch x rest).span = rest.head?.map Token.span := by
  cases rest <;> rfl

theorem mismatch_expected (x : Expectation) (rest : List Token) : (mismatch x rest).expected = [x] := by
  cases rest <;> rfl

theorem record_rest (c : Cursor) (err : ParseError) : (c.record err).rest = c.rest := by
  unfold Cursor.record
  dsimp only
  split
  · rfl
  · split
    · rfl
    · split <;> rfl

/-! ## Recording errors -/

/-- Errors are recorded one after the other, each a `sound` one at its place. -/
inductive Recording (sound : List Token → ParseError → Prop) :
    Option (Nat × ParseError) → Option (Nat × ParseError) → Prop
  | nothing {f : Option (Nat × ParseError)} : Recording sound f f
  | error {f g : Option (Nat × ParseError)} {rest : List Token} {err : ParseError} : Recording sound f g →
      sound rest err → Recording sound f (Cursor.record ⟨rest, g⟩ err).furthest

section
variable {sound sound' : List Token → ParseError → Prop} {f g h : Option (Nat × ParseError)}

theorem Recording.trans (hfg : Recording sound f g) (hgh : Recording sound g h) : Recording sound f h := by
  induction hgh with
  | nothing => exact hfg
  | error _ hsound ih => exact .error ih hsound

theorem Recording.mono (hfg : Recording sound f g) (himp : ∀ rest err, sound rest err → sound' rest err) :
    Recording sound' f g := by
  induction hfg with
  | nothing => exact .nothing
  | error _ hsound ih => exact .error ih (himp _ _ hsound)

end

theorem mem_mergeExpected {known new : List Expectation} {x : Expectation} :
    x ∈ Cursor.mergeExpected known new ↔ x ∈ known ∨ x ∈ new := by
  unfold Cursor.mergeExpected
  induction new generalizing known with
  | nil => simp
  | cons y new ih =>
    rw [List.foldl_cons, ih]
    split
    · rename_i hy
      have hmem : y ∈ known := by simpa using hy
      rw [List.mem_cons]
      constructor
      · rintro (h | h)
        · exact .inl h
        · exact .inr (.inr h)
      · rintro (h | rfl | h)
        · exact .inl h
        · exact .inl hmem
        · exact .inr h
    · simp [or_assoc]

/-- The one recorded error goes as far into the input as the other, and in the same place expects as much. -/
def NoFurther (f g : Option (Nat × ParseError)) : Prop :=
  ∀ left err, f = some (left, err) → ∃ left' err', g = some (left', err') ∧
    (left' < left ∨ left' = left ∧ ∀ x ∈ err.expected, x ∈ err'.expected)

theorem NoFurther.refl (f : Option (Nat × ParseError)) : NoFurther f f :=
  fun left err hf => ⟨left, err, hf, .inr ⟨rfl, fun _ hx => hx⟩⟩

theorem NoFurther.trans {f g h : Option (Nat × ParseError)} (hfg : NoFurther f g) (hgh : NoFurther g h) :
    NoFurther f h := by
  intro left err hf
  obtain ⟨left₁, err₁, hg, h₁⟩ := hfg left err hf
  obtain ⟨left₂, err₂, hh, h₂⟩ := hgh left₁ err₁ hg
  refine ⟨left₂, err₂, hh, ?_⟩
  rcases h₁ with h₁ | ⟨rfl, h₁⟩ <;> rcases h₂ with h₂ | ⟨rfl, h₂⟩
  · exact .inl (by omega)
  · exact .inl h₁
  · exact .inl h₂
  · exact .inr ⟨rfl, fun x hx => h₂ x (h₁ x hx)⟩

theorem noFurther_record (c : Cursor) (err : ParseError) : NoFurther c.furthest (c.record err).furthest := by
  intro left known hf
  unfold Cursor.record
  rw [hf]
  dsimp only
  split
  · exact ⟨left, known, hf, .inr ⟨rfl, fun _ hx => hx⟩⟩
  · split
    · exact ⟨left, _, rfl, .inr ⟨rfl, fun x hx => mem_mergeExpected.mpr (.inl hx)⟩⟩
    · exact ⟨_, _, rfl, .inl (by omega)⟩

theorem Recording.grows {sound : List Token → ParseError → Prop} {f g : Option (Nat × ParseError)}
    (h : Recording sound f g) : NoFurther f g := by
  induction h with
  | nothing => exact .refl _
  | error _ _ ih => exact ih.trans (noFurther_record ⟨_, _⟩ _)

/-! ## Errors that are right -/

/-- The error is right about the place behind `u`, where `rest` follows. -/
structure Justified (u rest : List Token) (err : ParseError) : Prop where
  viable : Viable u
  found : err.found = rest.head?.map Token.lexeme
  span : err.span = rest.head?.map Token.span
  expected : ∀ x ∈ err.expected, Continues u x ∨ x = .term ∧ BehindEntry u ∧ endsInName u = false

theorem justified_mismatch {u : List Token} {x : Expectation} (h : Continues u x) (rest : List Token) :
    Justified u rest (mismatch x rest) where
  viable := h.viable
  found := mismatch_found x rest
  span := mismatch_span x rest
  expected y hy := by
    rw [mismatch_expected, List.mem_singleton] at hy
    exact .inl (hy ▸ h)

theorem Justified.problem {u rest : List Token} {err : ParseError} (h : Justified u rest err) (problem : ParseProblem) :
    Justified u rest { err with problem } :=
  ⟨h.viable, h.found, h.span, h.expected⟩

def KeepsJustified (w : List Token) (f : Option (Nat × ParseError)) : Prop :=
  ∀ left err, f = some (left, err) → ∃ u rest, w = u ++ rest ∧ rest.length = left ∧ Justified u rest err

theorem KeepsJustified.record {w u rest : List Token} {f : Option (Nat × ParseError)} {err : ParseError}
    (h : KeepsJustified w f) (hw : w = u ++ rest) (herr : Justified u rest err) :
    KeepsJustified w (Cursor.record ⟨rest, f⟩ err).furthest := by
  have hnew : KeepsJustified w (some (rest.length, err)) := by
    rintro _ _ ⟨⟩
    exact ⟨u, rest, hw, rfl, herr⟩
  unfold Cursor.record
  dsimp only
  split
  · exact hnew
  · rename_i place known
    split
    · exact h
    · split
      · -- two errors at one place are about the same tokens
        rename_i hplace
        rintro _ _ ⟨⟩
        obtain ⟨u', rest', hw', hlen, hknown⟩ := h place known rfl
        obtain ⟨rfl, rfl⟩ : u' = u ∧ rest' = rest := List.append_inj' (hw'.symm.trans hw) (by omega)
        refine ⟨u', rest', hw', hlen, hknown.viable, hknown.found, hknown.span, fun x hx => ?_⟩
        rcases mem_mergeExpected.mp hx with hx | hx
        · exact hknown.expected x hx
        · exact herr.expected x hx
      · exact hnew

def JustifiedIf (cond : Prop) (w rest : List Token) (err : ParseError) : Prop :=
  cond → ∃ u, w = u ++ rest ∧ Justified u rest err

theorem Recording.justified {cond : Prop} {w : List Token} {f g : Option (Nat × ParseError)}
    (h : Recording (JustifiedIf cond w) f g) (hcond : cond) (hf : KeepsJustified w f) : KeepsJustified w g := by
  induction h with
  | nothing => exact hf
  | error _ hsound ih =>
    obtain ⟨u, hw, herr⟩ := hsound hcond
    exact ih.record hw herr

/-! ## Laws -/

/-- Whatever the parser does, it records errors; where the context holds, they are justified. -/
def Records (A : List Token → List Token → Prop) (p : Parser α) : Prop :=
  ∀ (u : List Token) (c : Cursor),
    Recording (JustifiedIf (A u c.rest) (u ++ c.rest)) c.furthest (cursorAfter p c).furthest

namespace Records

variable {A B : List Token → List Token → Prop} {p q : Parser α} {R : List Token → α → Prop}

theorem grows (h : Records A p) (c : Cursor) : NoFurther c.furthest (cursorAfter p c).furthest :=
  (h [] c).grows

theorem mono (h : Records A p) (himp : ∀ u rest, B u rest → A u rest) : Records B p :=
  fun u c => (h u c).mono fun _ _ hsound hB => hsound (himp _ _ hB)

theorem pure (a : α) : Records A (pure a) := fun _ _ => .nothing

theorem bind {q : α → Parser β} {B : α → List Token → List Token → Prop} (hp : Records A p) (hR : Accepts p R)
    (hq : ∀ a, Records (B a) (q a)) (hB : ∀ u v rest a, A u (v ++ rest) → R v a → B a (u ++ v) rest) :
    Records A (p >>= q) := by
  intro u c
  have hfirst := hp u c
  rcases hc : p c with ⟨a, c₁⟩ | ⟨e, c₁⟩
  · obtain ⟨v, hv, hRv⟩ := hR hc
    have hsecond := hq a (u ++ v) c₁
    rw [cursorAfter_ok hc] at hfirst
    have hcursor : cursorAfter (p >>= q) c = cursorAfter (q a) c₁ := by rw [cursorAfter, bind_ok hc, cursorAfter]
    rw [hcursor]
    refine hfirst.trans (hsecond.mono fun rest err hsound hA => ?_)
    rw [hv] at hA
    obtain ⟨v', hv', herr⟩ := hsound (hB u v c₁.rest a hA hRv)
    exact ⟨v', by rw [← hv', hv, List.append_assoc], herr⟩
  · rw [cursorAfter_error hc] at hfirst
    rwa [cursorAfter_error (bind_error hc)]

theorem orElse (hp : Records A p) (hq : Records A q) : Records A (orElse p q) := by
  intro u c
  have hfirst := hp u c
  rcases hc : p c with ⟨a, c₁⟩ | ⟨e, c₁⟩
  · rw [cursorAfter_ok hc] at hfirst
    simpa only [cursorAfter, Parser.orElse, hc] using hfirst
  · rw [cursorAfter_error hc] at hfirst
    have hsecond := hq u ⟨c.rest, c₁.furthest⟩
    have hcursor : cursorAfter (Parser.orElse p q) c = cursorAfter q ⟨c.rest, c₁.furthest⟩ := by
      simp only [cursorAfter, Parser.orElse, hc]
    rw [hcursor]
    exact hfirst.trans hsecond

theorem optional (hp : Records A p) : Records A (optional p) := by
  intro u c
  have hfirst := hp u c
  rcases hc : p c with ⟨a, c₁⟩ | ⟨e, c₁⟩
  · rw [cursorAfter_ok hc] at hfirst
    simpa only [cursorAfter, Parser.optional, hc] using hfirst
  · rw [cursorAfter_error hc] at hfirst
    simpa only [cursorAfter, Parser.optional, hc] using hfirst

/-- A loop stays in its context. -/
theorem many (hp : Records A p) (hR : Accepts p R)
    (hagain : ∀ u v rest a, A u (v ++ rest) → R v a → A (u ++ v) rest) : Records A (many p) := by
  have hwithin : ∀ rounds, Records A (manyWithin p rounds) := by
    intro rounds
    induction rounds with
    | zero => exact .pure _
    | succ rounds ih =>
      refine hp.optional.bind (B := fun _ => A) hR.optional (fun r => ?_) fun u v rest r hA hr => ?_
      · cases r with
        | none => exact .pure _
        | some a =>
          have hmany : Accepts (manyWithin p rounds) fun _ _ => True :=
            hR.manyWithin trivial (fun _ _ _ _ _ _ => trivial) rounds
          exact ih.bind (B := fun _ _ _ => True) hmany (fun _ => .pure _) fun _ _ _ _ _ _ => trivial
      · cases r with
        | none =>
          obtain rfl : v = [] := hr
          simpa using hA
        | some a => exact hagain u v rest a hA hr
  exact fun u c => hwithin _ u c

/-- A failure that is reported as a missing part is recorded once more, at the cursor where it arose. -/
theorem label {x : Expectation} (hp : Records A p)
    (hfail : ∀ u c e c', A u c.rest → p c = .error e c' →
      ∃ v, u ++ c.rest = v ++ c'.rest ∧ Justified v c'.rest { e with expected := [x] }) : Records A (label x p) := by
  intro u c
  have hfirst := hp u c
  rcases hc : p c with ⟨a, c₁⟩ | ⟨e, c₁⟩
  · rw [cursorAfter_ok hc] at hfirst
    simpa only [cursorAfter, Parser.label, hc] using hfirst
  · rw [cursorAfter_error hc] at hfirst
    have hlabel : Parser.label x p c = .error { e with expected := [x] } (c₁.record { e with expected := [x] }) := by
      simp only [Parser.label, hc]
      rfl
    rw [cursorAfter_error hlabel]
    exact .error hfirst fun hA => hfail u c e c₁ hA hc

end Records

theorem records_symbol {A : List Token → List Token → Prop} {s : Symbol}
    (h : ∀ u rest, A u rest → Continues u (.symbol s)) : Records A (symbol s) := by
  intro u c
  rcases hc : symbol s c with ⟨a, c₁⟩ | ⟨e, c₁⟩
  · rw [cursorAfter_ok hc]
    unfold symbol at hc
    split at hc
    · split at hc <;> cases hc
      exact .nothing
    · cases hc
  · obtain ⟨-, rfl, rfl⟩ := symbol_error hc
    rw [cursorAfter_error hc]
    exact .error .nothing fun hA => ⟨u, rfl, justified_mismatch (h u c.rest hA) c.rest⟩

/-! ## Contexts -/

/-- The tokens `u` can be followed by whatever is in `L`, and no brace group of the input mixes its entries. The
tokens still to read are fewer than the depth that the parser is given. -/
structure Ready (depth : Nat) (L : List Token → Prop) (u rest : List Token) : Prop where
  unmixed : ∀ m, m <:+: u ++ rest → ¬ MixedGroup m
  awaits : ∀ v, L v → Viable (u ++ v)
  deep : rest.length < depth

namespace Ready

variable {depth depth' : Nat} {L K : List Token → Prop} {u v rest : List Token}

/-- Behind `v` there can be whatever goes on with something in `L`. -/
theorem behind (h : Ready depth L u (v ++ rest)) (hv : ∀ x, K x → ∃ y, L (v ++ x ++ y))
    (hdepth : depth ≤ depth' + v.length) : Ready depth' K (u ++ v) rest where
  unmixed m hm := h.unmixed m (by rwa [List.append_assoc] at hm)
  awaits x hx := by
    obtain ⟨y, hy⟩ := hv x hx
    obtain ⟨z, hz⟩ := h.awaits _ hy
    exact ⟨y ++ z, by simpa using hz⟩
  deep := by
    have hdeep := h.deep
    rw [List.length_append] at hdeep
    omega

theorem mono (h : Ready depth L u rest) (himp : ∀ x, K x → L x) : Ready depth K u rest :=
  ⟨h.unmixed, fun v hv => h.awaits v (himp v hv), h.deep⟩

theorem continues (h : Ready depth L u rest) {x : Expectation} {t : Token} (hv : L (t :: v)) (hfits : Fits x t.lexeme) :
    Continues u x := by
  obtain ⟨y, hy⟩ := h.awaits _ hv
  exact ⟨t, v ++ y, hfits, by simpa using hy⟩

end Ready

def zero : Token := ⟨.integer "0", ⟨⟨0, 0⟩, ⟨0, 0⟩⟩⟩

theorem matches_zero (l : Level) : Matches (.tree l) [zero] := (Matches.literal rfl).of_primary l

/-- A place where a primary can come is one where a term can be expected. -/
theorem Ready.continues_term {depth : Nat} {u rest : List Token} (h : Ready depth (Matches (.tree .primary)) u rest) :
    Continues u .term :=
  h.continues (t := zero) (v := []) (matches_zero .primary) ⟨zero.span, [], matches_zero .term⟩

/-! ## Rows -/

structure Separated (s : Symbol) (item tail row : List Token → Prop) : Prop where
  nonempty : ∃ x, item x
  done : tail []
  more : ∀ {a x y}, item x → tail y → tail (⟨.symbol s, a⟩ :: (x ++ y))
  first : ∀ {x y}, item x → tail y → row (x ++ y)

theorem separated_intersection :
    Separated .ampersand (Matches (.tree .unary)) (Matches (.tail .ampersand .unary)) (Matches (.tree .intersection)) :=
  ⟨⟨_, matches_zero .unary⟩, .noTail, .tail, .intersection⟩

theorem separated_union :
    Separated .bar (Matches (.tree .intersection)) (Matches (.tail .bar .intersection)) (Matches (.tree .term)) :=
  ⟨⟨_, matches_zero .intersection⟩, .noTail, .tail, .union⟩

theorem separated_args : Separated .comma (Matches (.tree .term)) (Matches (.tail .comma .term)) (Matches .args) :=
  ⟨⟨_, matches_zero .term⟩, .noTail, .tail, .args⟩

def IsEntry (u : List Token) : Prop := ∃ maplet, Matches (.entry maplet) u

def IsEntries (u : List Token) : Prop := ∃ maplets, Matches (.entries maplets) u

theorem separated_entries : Separated .comma IsEntry (fun u => ∃ maplets, Matches (.entryTail maplets) u) IsEntries where
  nonempty := ⟨[zero], false, .element (matches_zero .term)⟩
  done := ⟨[], .noEntryTail⟩
  more := fun ⟨_, hx⟩ ⟨_, hy⟩ => ⟨_, .entryTail hx hy⟩
  first := fun ⟨_, hx⟩ ⟨_, hy⟩ => ⟨_, .entries hx hy⟩

section
variable {depth : Nat} {s : Symbol} {I T M : List Token → Prop} {item : Parser α}

theorem Separated.records_tail (h : Separated s I T M) (hitem : Records (Ready depth I) item)
    (haccepts : Accepts item fun v _ => I v) : Records (Ready depth T) (many (do let _ ← symbol s; item)) := by
  have hsep : Records (Ready depth T) (symbol s) := by
    refine records_symbol fun u rest hready => ?_
    obtain ⟨x, hx⟩ := h.nonempty
    exact hready.continues (t := ⟨.symbol s, zero.span⟩) (h.more hx h.done) rfl
  refine Records.many (hsep.bind (accepts_symbol s) (fun _ => hitem) ?_) (haccepts.behind s) ?_
  · rintro u _ rest span hready rfl
    refine hready.behind (fun x hx => ⟨[], ?_⟩) (by simp)
    simpa using h.more (a := span) hx h.done
  · rintro u _ rest a hready ⟨span, v, rfl, hv⟩
    refine hready.behind (fun x hx => ⟨[], ?_⟩) (by omega)
    simpa using h.more (a := span) hv hx

/-- Behind the first item of a row there are more of them. -/
theorem Separated.ready_tail (h : Separated s I T M) {u v rest : List Token} (hready : Ready depth M u (v ++ rest))
    (hv : I v) : Ready depth T (u ++ v) rest :=
  hready.behind (fun x hx => ⟨[], by simpa using h.first hv hx⟩) (by omega)

theorem Separated.ready_first (h : Separated s I T M) {u rest : List Token} (hready : Ready depth M u rest) :
    Ready depth I u rest :=
  hready.mono fun x hx => by simpa using h.first hx h.done

theorem Separated.records_commaSeparated (h : Separated .comma I T M) (hitem : Records (Ready depth I) item)
    (haccepts : Accepts item fun v _ => I v) : Records (Ready depth M) (commaSeparated item) := by
  have htail : Accepts (Parser.many (do let _ ← symbol .comma; item)) fun _ _ => True :=
    (haccepts.behind .comma).many trivial fun _ _ _ _ _ _ => trivial
  refine (hitem.mono fun _ _ => h.ready_first).optional.bind
    (B := fun r u rest => r.isSome = true → Ready depth T u rest) haccepts.optional (fun r => ?_) ?_
  · cases r with
    | none => exact .pure _
    | some a =>
      have hmany := (h.records_tail hitem haccepts).mono (B := fun u rest => (some a).isSome = true → _) fun _ _ hr => hr rfl
      exact hmany.bind (B := fun _ _ _ => True) htail (fun _ => .pure _) fun _ _ _ _ _ _ => trivial
  · intro u v rest r hready hr
    cases r with
    | none => exact fun hnone => nomatch hnone
    | some a => exact fun _ => h.ready_tail hready hr

theorem Separated.records_operands {item : Parser Tree} {wrap : List Tree → Span → Tree} (h : Separated s I T M)
    (hitem : Records (Ready depth I) item) (haccepts : Accepts item fun v _ => I v) :
    Records (Ready depth M) (operands s item wrap) := by
  have htail : Accepts (Parser.many (do let _ ← symbol s; item)) fun _ _ => True :=
    (haccepts.behind s).many trivial fun _ _ _ _ _ _ => trivial
  refine (hitem.mono fun _ _ => h.ready_first).bind (B := fun _ => Ready depth T) haccepts (fun first => ?_)
    fun u v rest _ hready hv => h.ready_tail hready hv
  refine (h.records_tail hitem haccepts).bind (B := fun _ _ _ => True) htail (fun rest => ?_) fun _ _ _ _ _ _ => trivial
  cases rest.getLast? <;> exact .pure _

end

/-! ## Groups -/

def Enclosed (opening closing : Symbol) (M : List Token → Prop) (u : List Token) : Prop :=
  ∃ a b v, u = ⟨.symbol opening, a⟩ :: (v ++ [⟨.symbol closing, b⟩]) ∧ M v

section
variable {depth : Nat} {opening closing : Symbol} {M : List Token → Prop} {u v rest : List Token} {a : Span}

/-- Behind the opening delimiter. -/
theorem Ready.opened (h : Ready (depth + 1) (Enclosed opening closing M) u (⟨.symbol opening, a⟩ :: rest)) :
    Ready depth M (u ++ [⟨.symbol opening, a⟩]) rest :=
  h.behind (v := [_]) (fun x hx => ⟨[⟨.symbol closing, a⟩], a, a, x, by simp, hx⟩) (by simp)

/-- Before the closing delimiter. -/
theorem Ready.closes (h : Ready depth (Enclosed opening closing M) u rest) (hv : M v) :
    Continues (u ++ ⟨.symbol opening, a⟩ :: v) (.symbol closing) := by
  obtain ⟨y, hy⟩ := h.awaits _ ⟨a, a, v, rfl, hv⟩
  exact ⟨⟨.symbol closing, a⟩, y, rfl, by simpa using hy⟩

/-- Inside the group. -/
theorem Ready.inside (h : Ready depth (Enclosed opening closing M) u rest) {x : Expectation} {token : Token}
    {more : List Token} (hv : M (v ++ token :: more)) (hfits : Fits x token.lexeme) :
    Continues (u ++ ⟨.symbol opening, a⟩ :: v) x := by
  obtain ⟨y, hy⟩ := h.awaits _ ⟨a, a, _, rfl, hv⟩
  exact ⟨token, more ++ ⟨.symbol closing, a⟩ :: y, hfits, by simpa using hy⟩

theorem records_delimited {item : Parser α} (hrow : Records (Ready depth M) (commaSeparated item))
    (haccepts : Accepts (commaSeparated item) fun v _ => M v) (hnil : M []) :
    Records (Ready (depth + 1) (Enclosed opening closing M)) (delimited opening closing item) := by
  have hopen : Records (Ready (depth + 1) (Enclosed opening closing M)) (symbol opening) :=
    records_symbol fun u rest hready => hready.continues (t := ⟨.symbol opening, zero.span⟩)
      ⟨zero.span, zero.span, [], rfl, hnil⟩ rfl
  refine hopen.bind (accepts_symbol opening)
    (B := fun a u rest => ∃ u₀, u = u₀ ++ [⟨.symbol opening, a⟩] ∧
      Ready (depth + 1) (Enclosed opening closing M) u₀ (⟨.symbol opening, a⟩ :: rest)) (fun a => ?_) ?_
  · have hitems := hrow.mono (B := fun u rest => ∃ u₀, u = u₀ ++ [⟨.symbol opening, a⟩] ∧
        Ready (depth + 1) (Enclosed opening closing M) u₀ (⟨.symbol opening, a⟩ :: rest)) <| by
      rintro _ rest ⟨u₀, rfl, hready⟩
      exact hready.opened
    refine hitems.bind haccepts (B := fun _ u _ => Continues u (.symbol closing)) (fun as => ?_) ?_
    · exact (records_symbol fun _ _ h => h).bind (B := fun _ _ _ => True) (accepts_symbol closing) (fun _ => .pure _)
        fun _ _ _ _ _ _ => trivial
    · rintro _ v rest _ ⟨u₀, rfl, hready⟩ hv
      have hcloses := hready.closes (a := a) hv
      simpa using hcloses
  · rintro u _ rest a hready rfl
    exact ⟨u, rfl, hready⟩

end

/-! ## Rule by rule -/

section
variable {depth : Nat} {A : List Token → List Token → Prop}

theorem records_literal (h : ∀ u rest, A u rest → Continues u .literal) : Records A literal := by
  intro u c
  rcases hc : literal c with ⟨a, c₁⟩ | ⟨e, c₁⟩
  · rw [cursorAfter_ok hc]
    unfold literal at hc
    split at hc <;> cases hc <;> exact .nothing
  · obtain ⟨-, rfl, rfl⟩ := literal_error hc
    rw [cursorAfter_error hc]
    exact .error .nothing fun hA => ⟨u, rfl, (justified_mismatch (h u c.rest hA) c.rest).problem _⟩

theorem records_identifier (h : ∀ u rest, A u rest → Continues u .identifier) : Records A identifier := by
  intro u c
  rcases hc : identifier c with ⟨a, c₁⟩ | ⟨e, c₁⟩
  · rw [cursorAfter_ok hc]
    unfold identifier at hc
    split at hc <;> cases hc
    exact .nothing
  · obtain ⟨-, rfl, rfl⟩ := identifier_error hc
    rw [cursorAfter_error hc]
    exact .error .nothing fun hA => ⟨u, rfl, justified_mismatch (h u c.rest hA) c.rest⟩

end

/-- The entries of a whole brace group that makes neither a set nor a map are mixed. -/
theorem mixed_of_ofEntries? {es : List (Tree × Option Tree)} {span : Span} (h : ofEntries? es span = none) :
    true ∈ es.map (·.2.isSome) ∧ false ∈ es.map (·.2.isSome) := by
  unfold ofEntries? at h
  dsimp only at h
  split at h
  · cases h
  rename_i hsome
  split at h
  · cases h
  rename_i hlength
  constructor
  · obtain ⟨pair, hpair⟩ := List.exists_mem_of_ne_nil _ (mt List.isEmpty_iff.mpr hsome)
    obtain ⟨⟨key, value⟩, hmem, hvalue⟩ := List.mem_filterMap.mp hpair
    cases value with
    | none => cases hvalue
    | some value => exact List.mem_map.mpr ⟨_, hmem, rfl⟩
  · by_cases hmem : false ∈ es.map (·.2.isSome)
    · exact hmem
    · refine absurd (List.filterMap_length_eq_length.mpr fun e he => ?_) hlength
      rcases e with ⟨key, _ | value⟩
      · exact absurd (List.mem_map.mpr ⟨_, he, rfl⟩) hmem
      · rfl

/-- A primary can be a brace group. -/
theorem Ready.braces {depth : Nat} {u rest : List Token} (h : Ready depth (Matches (.tree .primary)) u rest) :
    Ready depth (Enclosed .openBrace .closeBrace IsEntries) u rest := by
  refine h.mono ?_
  rintro _ ⟨a, b, v, rfl, _, hv⟩
  exact .braces hv

/-- A term can begin in a brace group before its first entry, and behind a name, since arguments begin like a group. -/
theorem Ready.term_or_behindEntry {depth : Nat} {u v rest : List Token} {a : Span} {maplets : List Bool}
    (h : Ready depth (Enclosed .openBrace .closeBrace IsEntries) u rest) (hv : Matches (.entries maplets) v) :
    Continues (u ++ ⟨.symbol .openBrace, a⟩ :: v) .term ∨
      BehindEntry (u ++ ⟨.symbol .openBrace, a⟩ :: v) ∧ endsInName (u ++ ⟨.symbol .openBrace, a⟩ :: v) = false := by
  by_cases hne : maplets = []
  · subst hne
    cases hv
    have hentry : Matches (.entries [false]) ([] ++ [zero]) := by
      simpa using Matches.entries (.element (matches_zero .term)) .noEntryTail
    exact .inl (h.inside ⟨_, hentry⟩ ⟨zero.span, [], matches_zero .term⟩)
  · rcases hname : endsInName (u ++ ⟨.symbol .openBrace, a⟩ :: v) with _ | _
    · exact .inr ⟨⟨u, a, v, maplets, rfl, hv, hne⟩, rfl⟩
    · have hlast : endsInName v = true := by
        rcases endsInName_append hname with ⟨hnil, -⟩ | hlast
        · cases hnil
        · exact endsInName_cons rfl hlast
      have hfits : Fits .term (.symbol .openParen) :=
        ⟨zero.span, [⟨.symbol .closeParen, zero.span⟩], (Matches.group .noArgs).of_primary .term⟩
      exact .inl (h.inside ⟨_, hv.with_arguments zero.span zero.span hlast⟩ hfits)

section
variable {depth : Nat} {term : Parser Tree} (hreads : Reads .term term)
include hreads

theorem accepts_braced : Accepts (delimited .openBrace .closeBrace (entry term)) fun u r =>
    Enclosed .openBrace .closeBrace IsEntries u ∧ (ofEntries? r.1 r.2 = none → MixedGroup u) := by
  refine ((accepts_entries hreads).delimited .openBrace .closeBrace).mono ?_
  rintro u ⟨es, span⟩ ⟨a, b, v, rfl, -, hes⟩
  refine ⟨⟨a, b, v, rfl, _, hes.matches⟩, fun hnone => ?_⟩
  exact ⟨a, b, v, _, rfl, hes.matches, mixed_of_ofEntries? hnone⟩

/-- Where the brace group fails, the last of the alternatives, a missing term is reported. -/
theorem justified_braces_error {u : List Token} {c c' : Cursor} {e : ParseError}
    (hready : Ready (depth + 1) (Matches (.tree .primary)) u c.rest) (h : braces term c = .error e c') :
    ∃ v, u ++ c.rest = v ++ c'.rest ∧ Justified v c'.rest { e with expected := [.term] } := by
  rcases bind_error_cases h with h | ⟨r, c₁, h₁, h⟩
  · rcases delimited_error h with h | ⟨a, es, c₁, c₂, h₁, h₂, h⟩
    · -- there is no brace
      obtain ⟨-, rfl, rfl⟩ := symbol_error h
      rw [record_rest]
      refine ⟨u, rfl, hready.continues_term.viable, mismatch_found _ _, mismatch_span _ _, ?_⟩
      simpa using Or.inl hready.continues_term
    · -- the group is not closed behind its entries
      obtain ⟨-, rfl, rfl⟩ := symbol_error h
      obtain ⟨_, hc, rfl⟩ := accepts_symbol .openBrace h₁
      obtain ⟨v, hc₁, hes⟩ := accepts_entries hreads h₂
      have hcloses := hready.braces.closes (a := a) (v := v) ⟨_, hes.matches⟩
      rw [record_rest]
      refine ⟨u ++ ⟨.symbol .openBrace, a⟩ :: v, by simp [hc, hc₁], hcloses.viable, mismatch_found _ _, mismatch_span _ _, ?_⟩
      simpa using hready.braces.term_or_behindEntry hes.matches
  · -- a whole group that is refused mixes its entries
    obtain ⟨v, hc, -, hmixed⟩ := accepts_braced hreads h₁
    have hnone : ofEntries? r.1 r.2 = none := by
      rcases ht : ofEntries? r.1 r.2 with _ | t
      · rfl
      · simp only [ht] at h
        cases h
    rw [hc] at hready
    exact absurd (hmixed hnone) (hready.unmixed v ⟨u, c₁.rest, by simp⟩)

end

section
variable {depth : Nat} {term : Parser Tree} (hterm : Records (Ready depth (Matches (.tree .term))) term)
  (hreads : Reads .term term)
include hterm hreads

theorem records_arguments {opening closing : Symbol} :
    Records (Ready (depth + 1) (Enclosed opening closing (Matches .args))) (delimited opening closing term) := by
  have haccepts : Accepts term fun v _ => Matches (.tree .term) v := hreads.mono fun _ _ h => h.matches
  have hargs : Accepts (commaSeparated term) fun u _ => Matches .args u :=
    haccepts.commaSeparated (T := fun u _ => Matches (.tail .comma .term) u) .noArgs .noTail
      (fun _ _ _ _ _ ht hts => .tail ht hts) (fun _ _ _ _ ht hts => .args ht hts)
  exact records_delimited (separated_args.records_commaSeparated hterm haccepts) hargs .noArgs

theorem records_call : Records (Ready (depth + 1) (Matches (.tree .primary))) (call term) := by
  have hname : Records (Ready (depth + 1) (Matches (.tree .primary))) identifier :=
    records_identifier fun u rest hready => hready.continues (t := ⟨.identifier "", zero.span⟩) .name rfl
  refine hname.bind accepts_identifier (B := fun _ => Ready (depth + 1) (Enclosed .openParen .closeParen (Matches .args)))
    (fun r => ?_) ?_
  · refine (records_arguments hterm hreads).optional.bind (B := fun _ _ _ => True)
      (accepts_arguments hreads .openParen .closeParen).optional (fun r => ?_) fun _ _ _ _ _ _ => trivial
    cases r <;> exact .pure _
  · rintro u _ rest r hready rfl
    refine hready.behind ?_ (by omega)
    rintro _ ⟨a, b, v, rfl, hv⟩
    exact ⟨[], by simpa using Matches.call hv⟩

theorem records_group : Records (Ready (depth + 1) (Matches (.tree .primary))) (group term) := by
  refine Records.bind (B := fun _ _ _ => True) ((records_arguments hterm hreads).mono fun u rest hready => ?_)
    (accepts_arguments hreads .openParen .closeParen) (fun _ => .pure _) fun _ _ _ _ _ _ => trivial
  refine hready.mono ?_
  rintro _ ⟨a, b, v, rfl, hv⟩
  exact .group hv

theorem records_list : Records (Ready (depth + 1) (Matches (.tree .primary))) (Parser.list term) := by
  refine Records.bind (B := fun _ _ _ => True) ((records_arguments hterm hreads).mono fun u rest hready => ?_)
    (accepts_arguments hreads .openBracket .closeBracket) (fun _ => .pure _) fun _ _ _ _ _ _ => trivial
  refine hready.mono ?_
  rintro _ ⟨a, b, v, rfl, hv⟩
  exact .list hv

theorem records_entry : Records (Ready depth IsEntry) (entry term) := by
  have hkey : Records (Ready depth IsEntry) term :=
    hterm.mono fun u rest hready => hready.mono fun x hx => ⟨false, .element hx⟩
  -- behind the key there can be an arrow with a value
  refine Records.bind hkey hreads (B := fun _ => Ready depth fun x => ∃ s v, x = ⟨.symbol .mapsTo, s⟩ :: v ∧
    Matches (.tree .term) v) (fun key => ?_) ?_
  · have harrow : Records (Ready depth fun x => ∃ s v, x = ⟨.symbol .mapsTo, s⟩ :: v ∧ Matches (.tree .term) v)
        (symbol .mapsTo) := records_symbol fun u rest hready =>
      hready.continues (t := ⟨.symbol .mapsTo, zero.span⟩) ⟨zero.span, _, rfl, matches_zero .term⟩ rfl
    have hvalue := harrow.bind (accepts_symbol .mapsTo) (fun _ => hterm) <| by
      rintro u _ rest span hready rfl
      exact hready.behind (fun x hx => ⟨[], span, x, by simp, hx⟩) (by omega)
    exact hvalue.optional.bind (B := fun _ _ _ => True) (Accepts.behind hreads .mapsTo).optional (fun _ => .pure _)
      fun _ _ _ _ _ _ => trivial
  · intro u v rest key hready hv
    refine hready.behind ?_ (by omega)
    rintro _ ⟨s, x, rfl, hx⟩
    exact ⟨[], true, by simpa using Matches.maplet hv.matches hx⟩

theorem records_braces : Records (Ready (depth + 1) (Matches (.tree .primary))) (braces term) := by
  have hentry : Accepts (entry term) fun v _ => IsEntry v := (accepts_entry hreads).mono fun _ _ h => ⟨_, h.matches⟩
  have hentries : Accepts (commaSeparated (entry term)) fun v _ => IsEntries v :=
    (accepts_entries hreads).mono fun _ _ h => ⟨_, h.matches⟩
  have hrow := separated_entries.records_commaSeparated (records_entry hterm hreads) hentry
  have hgroup : Records (Ready (depth + 1) (Enclosed .openBrace .closeBrace IsEntries))
      (delimited .openBrace .closeBrace (entry term)) := records_delimited hrow hentries ⟨[], .noEntries⟩
  refine (hgroup.mono fun _ _ => Ready.braces).bind (accepts_braced hreads) (B := fun r _ _ => ofEntries? r.1 r.2 ≠ none)
    (fun r => ?_) ?_
  · rcases ht : ofEntries? r.1 r.2 with _ | t
    · simp only [ht]
      exact fun u c => .error .nothing fun hnone => absurd rfl hnone
    · simp only [ht]
      exact .pure _
  · intro u v rest r hready hv hnone
    exact hready.unmixed v ⟨u, rest, by simp⟩ (hv.2 hnone)

theorem records_primary : Records (Ready (depth + 1) (Matches (.tree .primary))) (primary term) := by
  refine Records.label (.orElse (.orElse (.orElse (.orElse ?_ ?_) ?_) ?_) ?_) ?_
  · exact records_literal fun u rest hready => hready.continues (t := zero) (matches_zero .primary) rfl
  · exact records_call hterm hreads
  · exact records_group hterm hreads
  · exact records_list hterm hreads
  · exact records_braces hterm hreads
  · intro u c e c' hready h
    obtain ⟨-, c₁, -, hbraces⟩ := orElse_error h
    exact justified_braces_error hreads (c := ⟨c.rest, c₁.furthest⟩) hready hbraces

theorem records_unary : Records (Ready (depth + 1) (Matches (.tree .unary))) (unary term) := by
  have hprimary : Records (Ready (depth + 1) (Matches (.tree .unary))) (primary term) :=
    (records_primary hterm hreads).mono fun u rest hready => hready.mono fun x hx => .plain hx
  have htilde : Records (Ready (depth + 1) (Matches (.tree .unary))) (symbol .tilde) :=
    records_symbol fun u rest hready => hready.continues (t := ⟨.symbol .tilde, zero.span⟩)
      (.complement (matches_zero .unary)) rfl
  have hwithin : ∀ rounds, Records (Ready (depth + 1) (Matches (.tree .unary))) (unaryWithin term rounds) := by
    intro rounds
    induction rounds with
    | zero => exact hprimary
    | succ rounds ih =>
      refine htilde.optional.bind (accepts_symbol .tilde).optional
        (B := fun _ => Ready (depth + 1) (Matches (.tree .unary))) (fun r => ?_) fun u v rest r hready hr => ?_
      · cases r with
        | none => exact hprimary
        | some span =>
          exact ih.bind (B := fun _ _ _ => True) (reads_unaryWithin hreads rounds) (fun _ => .pure _)
            fun _ _ _ _ _ _ => trivial
      · cases r with
        | none =>
          obtain rfl : v = [] := hr
          simpa using hready
        | some span =>
          obtain rfl : v = [⟨.symbol .tilde, span⟩] := hr
          exact hready.behind (fun x hx => ⟨[], by simpa using Matches.complement hx⟩) (by omega)
  exact fun u c => hwithin _ u c

end

/-- Everything that the parser of terms records is justified. -/
theorem records_term (depth : Nat) : Records (Ready depth (Matches (.tree .term))) (termWithin depth) := by
  induction depth with
  | zero =>
    -- no input is short enough for this depth
    exact fun u c => .error .nothing fun hready => absurd hready.deep (Nat.not_lt_zero _)
  | succ depth ih =>
    have hreads := reads_term depth
    have hunary : Accepts (unary (termWithin depth)) fun v _ => Matches (.tree .unary) v :=
      (reads_unary hreads).mono fun _ _ h => h.matches
    have hintersection : Accepts (Parser.intersection (termWithin depth)) fun v _ => Matches (.tree .intersection) v :=
      (reads_intersection hreads).mono fun _ _ h => h.matches
    exact separated_union.records_operands (separated_intersection.records_operands (records_unary ih hreads) hunary)
      hintersection

end TermMachine.Grammar
