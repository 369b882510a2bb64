import Mathlib.Data.List.Forall2
import TermMachine.Proofs.Grammar
import TermMachine.Proofs.Lexing
import TermMachine.Reader

/-!
# Texts that are read as a term

`Prints l text t` says that a text is read as the term `t` at a level of the grammar, whatever stands
around it: it spells lexemes from which, wherever they are in the source, the grammar derives a tree
that denotes `t`. `PrintsAs` says the same of the other phrases, such as the arguments of a call or the
entries of a brace group. There is a law for every form of the notation, so that a printed term is taken
apart in the way it was put together.

Proved: `readTerm_of_prints`, that such a text alone is read as the term, `prints_row`, that parts with
separators between them are read as a row of the grammar, and a law for each form: names, calls, groups,
lists, sets, maps and the operators on types.
-/

namespace TermMachine

open Token Grammar Lexeme

/-- A text spells tokens that are read as a phrase, wherever they are in the source, and what is read stands
for `b` in the sense of `R`. -/
def PrintsAs {α β : Type} (phrase : α → Phrase) (R : α → β → Prop) (text : List Char) (b : β) : Prop :=
  ∃ ls, Spells text ls ∧ ∀ u : List Token, u.map Token.lexeme = ls → ∃ a, Derives u (phrase a) ∧ R a b

def Denotes (tree : Tree) (t : Term) : Prop := tree.build = .ok t

def Prints (l : Level) : List Char → Term → Prop := PrintsAs (.tree l) Denotes

theorem readTerm_of_prints {text : List Char} {t : Term} (h : Prints .term text t) :
    readTerm (String.ofList text) = .ok t := by
  obtain ⟨ls, hspells, hreads⟩ := h
  obtain ⟨tokens, hlex, hmap⟩ := lex_of_lexes hspells.lexes
  obtain ⟨tree, hderives, hbuild⟩ := hreads tokens hmap
  rw [Denotes] at hbuild
  simp only [readTerm, hlex, parse_of_derives hderives, hbuild]

/-- The same text, read as another phrase. -/
theorem PrintsAs.read {α α' β β' : Type} {phrase : α → Phrase} {phrase' : α' → Phrase} {R : α → β → Prop}
    {R' : α' → β' → Prop} {text : List Char} {b : β} {b' : β'} (h : PrintsAs phrase R text b)
    (hread : ∀ u a, Derives u (phrase a) → R a b → ∃ a', Derives u (phrase' a') ∧ R' a' b') :
    PrintsAs phrase' R' text b' := by
  obtain ⟨ls, hspells, hreads⟩ := h
  refine ⟨ls, hspells, fun u hu => ?_⟩
  obtain ⟨a, hderives, ha⟩ := hreads u hu
  exact hread u a hderives ha

/-! ## Levels -/

theorem Prints.unary {text : List Char} {t : Term} (h : Prints .primary text t) : Prints .unary text t :=
  h.read fun _ tree hderives hbuild => ⟨tree, .plain hderives, hbuild⟩

theorem Prints.intersection {text : List Char} {t : Term} (h : Prints .unary text t) :
    Prints .intersection text t :=
  h.read fun _ tree hderives hbuild => ⟨tree, .oneUnary hderives, hbuild⟩

theorem Prints.term {text : List Char} {t : Term} (h : Prints .intersection text t) : Prints .term text t :=
  h.read fun _ tree hderives hbuild => ⟨tree, .oneIntersection hderives, hbuild⟩

/-- A primary stands at every level. -/
theorem Prints.of_primary {text : List Char} {t : Term} (h : Prints .primary text t) : Prints .term text t :=
  h.unary.intersection.term

/-! ## Tokens with given lexemes -/

theorem lexemes_cons {u : List Token} {l : Lexeme} {ls : List Lexeme} (h : u.map Token.lexeme = l :: ls) :
    ∃ s v, u = ⟨l, s⟩ :: v ∧ v.map Token.lexeme = ls := by
  obtain ⟨token, v, rfl, rfl, hv⟩ := List.map_eq_cons_iff.mp h
  exact ⟨token.span, v, rfl, hv⟩

theorem lexemes_single {u : List Token} {l : Lexeme} (h : u.map Token.lexeme = [l]) : ∃ s, u = [⟨l, s⟩] := by
  obtain ⟨s, v, rfl, hv⟩ := lexemes_cons h
  rw [List.map_eq_nil_iff.mp hv]
  exact ⟨s, rfl⟩

theorem lexemes_concat {u : List Token} {l : Lexeme} {ls : List Lexeme} (h : u.map Token.lexeme = ls ++ [l]) :
    ∃ v s, u = v ++ [⟨l, s⟩] ∧ v.map Token.lexeme = ls := by
  obtain ⟨v, w, rfl, hv, hw⟩ := List.map_eq_append_iff.mp h
  obtain ⟨s, rfl⟩ := lexemes_single hw
  exact ⟨v, s, rfl, hv⟩

theorem lexemes_delimited {opening closing : Symbol} {u : List Token} {ls : List Lexeme}
    (h : u.map Token.lexeme = .symbol opening :: (ls ++ [.symbol closing])) :
    ∃ a b v, u = ⟨.symbol opening, a⟩ :: (v ++ [⟨.symbol closing, b⟩]) ∧ v.map Token.lexeme = ls := by
  obtain ⟨a, v, rfl, hv⟩ := lexemes_cons h
  obtain ⟨w, b, rfl, hw⟩ := lexemes_concat hv
  exact ⟨a, b, w, rfl, hw⟩

/-- A text that is one lexeme. -/
theorem prints_lexeme {text : List Char} {l : Lexeme} {t : Term} (hspells : Spells text [l])
    (h : ∀ s, ∃ tree, Derives [⟨l, s⟩] (.tree .primary tree) ∧ tree.build = .ok t) : Prints .primary text t := by
  refine ⟨[l], hspells, fun u hu => ?_⟩
  obtain ⟨s, rfl⟩ := lexemes_single hu
  exact h s

/-! ## Separated parts -/

theorem intercalate_cons {α : Type} (glue x : List α) (xs : List (List α)) :
    glue.intercalate (x :: xs) = x ++ xs.flatMap (glue ++ ·) := by
  induction xs generalizing x with
  | nil => simp
  | cons y ys ih => simp [List.intercalate_cons_cons, ih]

/-- What stands between parts: a separator, perhaps with blanks around it. -/
structure Glue (glue : List Char) (s : Symbol) : Prop where
  boundary : ∀ rest, Boundary (glue ++ rest)
  spells : ∀ {text ls}, Spells text ls → Spells (glue ++ text) (.symbol s :: ls)

theorem Glue.boundary_tail {glue : List Char} {s : Symbol} (hglue : Glue glue s) (parts : List (List Char))
    (rest : List Char) (hrest : Boundary rest) : Boundary (parts.flatMap (glue ++ ·) ++ rest) := by
  cases parts with
  | nil => exact hrest
  | cons part parts =>
    rw [List.flatMap_cons, List.append_assoc, List.append_assoc]
    exact hglue.boundary _

section
variable {α : Type} {item : α → Phrase} {tail row : List α → Phrase} {R : α → Term → Prop} {glue : List Char}
  {sep : Symbol} {parts : List (List Char)} {ts : List Term}

/-- Items behind separators spell a tail of the grammar. -/
theorem prints_tail (hglue : Glue glue sep) (hnil : Derives [] (tail []))
    (hcons : ∀ {s u v a as}, Derives u (item a) → Derives v (tail as) →
      Derives (⟨.symbol sep, s⟩ :: (u ++ v)) (tail (a :: as)))
    (h : List.Forall₂ (PrintsAs item R) parts ts) :
    PrintsAs tail (List.Forall₂ R) (parts.flatMap (glue ++ ·)) ts := by
  induction h with
  | nil =>
    refine ⟨[], .nil, fun u hu => ⟨[], ?_, .nil⟩⟩
    rw [List.map_eq_nil_iff.mp hu]
    exact hnil
  | @cons part t parts ts hpart _ ih =>
    obtain ⟨ls, hspells, hreads⟩ := hpart
    obtain ⟨more, hmore, htail⟩ := ih
    refine ⟨.symbol sep :: (ls ++ more), ?_, fun u hu => ?_⟩
    · rw [List.flatMap_cons, List.append_assoc]
      exact hglue.spells (hspells.append hmore (hglue.boundary_tail parts))
    · obtain ⟨span, u', rfl, hu'⟩ := lexemes_cons hu
      obtain ⟨v, w, rfl, hv, hw⟩ := List.map_eq_append_iff.mp hu'
      obtain ⟨a, hderives, ha⟩ := hreads v hv
      obtain ⟨as, hderives', has⟩ := htail w hw
      exact ⟨a :: as, hcons hderives hderives', .cons ha has⟩

/-- An item with a tail behind it. -/
theorem prints_row (hglue : Glue glue sep) (hnone : Derives [] (row [])) (hnil : Derives [] (tail []))
    (hcons : ∀ {s u v a as}, Derives u (item a) → Derives v (tail as) →
      Derives (⟨.symbol sep, s⟩ :: (u ++ v)) (tail (a :: as)))
    (hrow : ∀ {u v a as}, Derives u (item a) → Derives v (tail as) → Derives (u ++ v) (row (a :: as)))
    (h : List.Forall₂ (PrintsAs item R) parts ts) :
    PrintsAs row (List.Forall₂ R) (glue.intercalate parts) ts := by
  cases h with
  | nil =>
    refine ⟨[], .nil, fun u hu => ⟨[], ?_, .nil⟩⟩
    rw [List.map_eq_nil_iff.mp hu]
    exact hnone
  | @cons part t parts ts hpart hparts =>
    obtain ⟨ls, hspells, hreads⟩ := hpart
    obtain ⟨more, hmore, htail⟩ := prints_tail hglue hnil hcons hparts
    refine ⟨ls ++ more, ?_, fun u hu => ?_⟩
    · rw [intercalate_cons]
      exact hspells.append hmore (hglue.boundary_tail parts)
    · obtain ⟨v, w, rfl, hv, hw⟩ := List.map_eq_append_iff.mp hu
      obtain ⟨a, hderives, ha⟩ := hreads v hv
      obtain ⟨as, hderives', has⟩ := htail w hw
      exact ⟨a :: as, hrow hderives hderives', .cons ha has⟩

end

theorem glue_comma : Glue [','] .comma where
  boundary rest := boundary_symbol .comma rest
  spells h := h.symbol_append (s := .comma) (by decide)

/-- The operators on types stand between blanks. -/
theorem glue_operator (s : Symbol) : Glue (' ' :: s.chars ++ [' ']) s where
  boundary rest := by
    intro c hc
    cases hc
    decide
  spells {text ls} h := by
    have hblank : Spells (' ' :: text) ls := h.blank rfl
    have hspell : Spells (s.chars ++ ' ' :: text) (.symbol s :: ls) := by
      intro rest more hrest hmore
      rw [List.append_assoc]
      refine lexes_symbol (hblank rest more hrest hmore) (Or.inr ?_)
      intro c hc
      cases hc
      decide
    have hall : Spells (' ' :: (s.chars ++ ' ' :: text)) (.symbol s :: ls) := hspell.blank rfl
    simpa using hall

/-! ## Arguments -/

theorem buildAll_of_denotes {trees : List Tree} {ts : List Term} (h : List.Forall₂ Denotes trees ts) :
    Tree.buildAll trees = .ok ts := by
  induction h with
  | nil => rw [Tree.buildAll]
  | cons ht _ ih =>
    rw [Denotes] at ht
    rw [Tree.buildAll, ht, ih]
    rfl

/-- Texts separated by commas are read as arguments. -/
theorem prints_args {parts : List (List Char)} {ts : List Term} (h : List.Forall₂ (Prints .term) parts ts) :
    PrintsAs .args (List.Forall₂ Denotes) (Term.commaSeparated parts) ts :=
  prints_row glue_comma .noArgs .noTail .tail .args h

/-- Something between two delimiters. -/
theorem PrintsAs.delimited {α β : Type} {inner : α → Phrase} {R : α → β → Prop} {text : List Char} {b : β} {t : Term}
    (h : PrintsAs inner R text b) (opening closing : Symbol) (ho : opening ≠ .bar)
    (hread : ∀ s s' u a, Derives u (inner a) → R a b → ∃ tree,
      Derives (⟨.symbol opening, s⟩ :: (u ++ [⟨.symbol closing, s'⟩])) (.tree .primary tree) ∧ tree.build = .ok t) :
    Prints .primary (opening.chars ++ (text ++ closing.chars)) t := by
  obtain ⟨ls, hspells, hreads⟩ := h
  refine ⟨.symbol opening :: (ls ++ [.symbol closing]), hspells.append_symbol.symbol_append ho, fun u hu => ?_⟩
  obtain ⟨s, s', v, rfl, hv⟩ := lexemes_delimited hu
  obtain ⟨a, hderives, ha⟩ := hreads v hv
  exact hread s s' v a hderives ha

/-! ## Forms of the notation -/

theorem prints_name {name : String} {t : Term} (hid : isIdentifier name.toList = true)
    (ht : Construction.construct name [] = .ok t) : Prints .primary name.toList t :=
  prints_lexeme (spells_identifier hid) fun s => ⟨.name name s, .name, by rw [Tree.build, ht]⟩

/-- A name before something in parentheses. -/
theorem PrintsAs.call {α β : Type} {inner : α → Phrase} {R : α → β → Prop} {name : String} {text : List Char} {b : β}
    {t : Term} (h : PrintsAs inner R text b) (hid : isIdentifier name.toList = true)
    (hread : ∀ s₁ s₂ s₃ u a, Derives u (inner a) → R a b → ∃ tree,
      Derives (⟨.identifier name, s₁⟩ :: ⟨.symbol .openParen, s₂⟩ :: (u ++ [⟨.symbol .closeParen, s₃⟩]))
        (.tree .primary tree) ∧ tree.build = .ok t) :
    Prints .primary (name.toList ++ '(' :: text ++ [')']) t := by
  obtain ⟨ls, hspells, hreads⟩ := h
  refine ⟨.identifier name :: .symbol .openParen :: (ls ++ [.symbol .closeParen]), ?_, fun u hu => ?_⟩
  · have hgroup : Spells (Symbol.openParen.chars ++ (text ++ Symbol.closeParen.chars)) _ :=
      hspells.append_symbol.symbol_append (by decide)
    have hcall := (spells_identifier hid).append hgroup fun rest _ => boundary_symbol .openParen _
    simpa [Symbol.chars] using hcall
  · obtain ⟨s₁, v, rfl, hv⟩ := lexemes_cons hu
    obtain ⟨s₂, s₃, w, rfl, hw⟩ := lexemes_delimited hv
    obtain ⟨a, hderives, ha⟩ := hreads w hw
    exact hread s₁ s₂ s₃ w a hderives ha

theorem prints_call {name : String} {parts : List (List Char)} {ts : List Term} {t : Term}
    (hid : isIdentifier name.toList = true) (hname : name ≠ "atom")
    (h : List.Forall₂ (Prints .term) parts ts) (ht : Construction.construct name ts = .ok t) :
    Prints .primary (name.toList ++ '(' :: Term.commaSeparated parts ++ [')']) t := by
  refine (prints_args h).call hid fun s₁ s₂ s₃ u trees hderives htrees => ⟨_, .call hderives, ?_⟩
  rw [Tree.build, if_neg hname]
  exact ConstructionError.bind_eq_ok.mpr ⟨ts, buildAll_of_denotes htrees, ht⟩

theorem prints_group {parts : List (List Char)} {ts : List Term} (h : List.Forall₂ (Prints .term) parts ts) :
    Prints .primary ('(' :: Term.commaSeparated parts ++ [')']) (Term.ofSequence (Term.flatten ts)) := by
  refine (prints_args h).delimited .openParen .closeParen (by decide) ?_
  intro s s' u trees hderives htrees
  refine ⟨_, .group hderives, ?_⟩
  exact ConstructionError.bind_eq_ok.mpr ⟨ts, buildAll_of_denotes htrees, rfl⟩

theorem prints_list {parts : List (List Char)} {ts : List Term} {t : Term}
    (h : List.Forall₂ (Prints .term) parts ts) (ht : Construction.construct "list" ts = .ok t) :
    Prints .primary ('[' :: Term.commaSeparated parts ++ [']']) t := by
  refine (prints_args h).delimited .openBracket .closeBracket (by decide) ?_
  intro s s' u trees hderives htrees
  refine ⟨_, .list hderives, ?_⟩
  exact ConstructionError.bind_eq_ok.mpr ⟨ts, buildAll_of_denotes htrees, ht⟩

/-! ## Braces -/

def IsElement (e : Tree × Option Tree) (t : Term) : Prop := e.2 = none ∧ e.1.build = .ok t

def IsMaplet (e : Tree × Option Tree) (t : Term) : Prop :=
  ∃ value k v, e.2 = some value ∧ e.1.build = .ok k ∧ value.build = .ok v ∧
    Construction.construct "tuple" [k, v] = .ok t

theorem Prints.element {text : List Char} {t : Term} (h : Prints .term text t) : PrintsAs .entry IsElement text t :=
  h.read fun _ tree hderives hbuild => ⟨(tree, none), .element hderives, rfl, hbuild⟩

theorem prints_maplet {key value : List Char} {k v t : Term} (hk : Prints .term key k) (hv : Prints .term value v)
    (ht : Construction.construct "tuple" [k, v] = .ok t) :
    PrintsAs .entry IsMaplet (key ++ "|->".toList ++ value) t := by
  obtain ⟨ls, hspells, hreads⟩ := hk
  obtain ⟨ls', hspells', hreads'⟩ := hv
  refine ⟨ls ++ .symbol .mapsTo :: ls', ?_, ?_⟩
  · have harrow : Spells (Symbol.mapsTo.chars ++ value) (.symbol .mapsTo :: ls') := hspells'.symbol_append (by decide)
    rw [List.append_assoc]
    refine hspells.append harrow fun rest _ => ?_
    rw [List.append_assoc]
    exact boundary_symbol .mapsTo _
  · intro u hu
    obtain ⟨w, x, rfl, hw, hx⟩ := List.map_eq_append_iff.mp hu
    obtain ⟨s, y, rfl, hy⟩ := lexemes_cons hx
    obtain ⟨tree, hderives, hbuild⟩ := hreads w hw
    obtain ⟨tree', hderives', hbuild'⟩ := hreads' y hy
    exact ⟨(tree, some tree'), .maplet hderives hderives', tree', k, v, rfl, hbuild, hbuild', ht⟩

/-- Texts separated by commas are read as the entries of a brace group. -/
theorem prints_entries {R : Tree × Option Tree → Term → Prop} {parts : List (List Char)} {ts : List Term}
    (h : List.Forall₂ (PrintsAs .entry R) parts ts) :
    PrintsAs .entries (List.Forall₂ R) (Term.commaSeparated parts) ts :=
  prints_row glue_comma .noEntries .noEntryTail .entryTail .entries h

theorem ofEntries?_eq (es : List (Tree × Option Tree)) (span : Span) : Parser.ofEntries? es span =
    let maplets := es.filterMap fun e => e.2.map (e.1, ·)
    if maplets.isEmpty then some (.set (es.map (·.1)) span)
    else if maplets.length = es.length then some (.map maplets span)
    else none := rfl

/-- Elements alone make a set. -/
theorem ofEntries?_elements {es : List (Tree × Option Tree)} {ts : List Term} (h : List.Forall₂ IsElement es ts)
    (span : Span) :
    Parser.ofEntries? es span = some (.set (es.map (·.1)) span) ∧ Tree.buildAll (es.map (·.1)) = .ok ts := by
  have hmaplets : es.filterMap (fun e => e.2.map (e.1, ·)) = [] := by
    induction h with
    | nil => rfl
    | @cons e t es ts he _ ih =>
      obtain ⟨key, value⟩ := e
      obtain ⟨rfl, -⟩ : value = none ∧ key.build = .ok t := he
      exact ih
  refine ⟨by simp [ofEntries?_eq, hmaplets], buildAll_of_denotes ?_⟩
  rw [List.forall₂_map_left_iff]
  exact h.imp fun e t he => he.2

/-- Maplets alone make a map, if there are any. -/
theorem ofEntries?_maplets {es : List (Tree × Option Tree)} {ts : List Term} (h : List.Forall₂ IsMaplet es ts)
    (hne : ts ≠ []) (span : Span) :
    ∃ pairs, Parser.ofEntries? es span = some (.map pairs span) ∧ Tree.buildEntries pairs = .ok ts := by
  have hmaplets : ∃ pairs : List (Tree × Tree), es.filterMap (fun e => e.2.map (e.1, ·)) = pairs ∧
      pairs.length = es.length ∧ Tree.buildEntries pairs = .ok ts := by
    clear hne
    induction h with
    | nil => exact ⟨[], rfl, rfl, by rw [Tree.buildEntries]⟩
    | @cons e t es ts he _ ih =>
      obtain ⟨key, value⟩ := e
      obtain ⟨inner, k, v, rfl, hk, hv, ht⟩ :
        ∃ inner k v, value = some inner ∧ key.build = .ok k ∧ inner.build = .ok v ∧
          Construction.construct "tuple" [k, v] = .ok t := he
      obtain ⟨pairs, hpairs, hlen, hrest⟩ := ih
      refine ⟨(key, inner) :: pairs, by simp [← hpairs], by simp [hlen], ?_⟩
      rw [Tree.buildEntries, hk, hv, hrest]
      simp only [bind, Except.bind, ht]
      rfl
  obtain ⟨pairs, hpairs, hlen, hbuild⟩ := hmaplets
  have hpos : pairs ≠ [] := by
    rintro rfl
    rw [Tree.buildEntries] at hbuild
    cases hbuild
    exact hne rfl
  refine ⟨pairs, ?_, hbuild⟩
  simp [ofEntries?_eq, hpairs, hlen, hpos]

theorem prints_set {parts : List (List Char)} {ts : List Term} {t : Term}
    (h : List.Forall₂ (Prints .term) parts ts) (ht : Construction.construct "set" ts = .ok t) :
    Prints .primary ('{' :: Term.commaSeparated parts ++ ['}']) t := by
  refine (prints_entries (h.imp fun _ _ => Prints.element)).delimited .openBrace .closeBrace (by decide) ?_
  intro s s' u es hderives hes
  obtain ⟨hof, hbuild⟩ := ofEntries?_elements hes (s.to s')
  refine ⟨_, .braces hderives hof, ?_⟩
  exact ConstructionError.bind_eq_ok.mpr ⟨ts, hbuild, ht⟩

theorem prints_map {parts : List (List Char)} {ts : List Term} {t : Term}
    (h : List.Forall₂ (PrintsAs .entry IsMaplet) parts ts) (hne : ts ≠ [])
    (ht : Construction.construct "map" ts = .ok t) :
    Prints .primary ('{' :: Term.commaSeparated parts ++ ['}']) t := by
  refine (prints_entries h).delimited .openBrace .closeBrace (by decide) ?_
  intro s s' u es hderives hes
  obtain ⟨pairs, hof, hbuild⟩ := ofEntries?_maplets hes hne (s.to s')
  refine ⟨_, .braces hderives hof, ?_⟩
  exact ConstructionError.bind_eq_ok.mpr ⟨ts, hbuild, ht⟩

/-! ## Operators on types -/

/-- Two operands or more of an operator. -/
theorem prints_operands {s : Symbol} {l l' : Level} {parts : List (List Char)} {ts : List Term} {t : Term}
    (h : List.Forall₂ (Prints l) parts ts) (hlen : 2 ≤ ts.length)
    (hread : ∀ {u v tree trees last}, Derives u (.tree l tree) → Derives v (.tail s l trees) →
      trees.getLast? = some last → Tree.buildAll (tree :: trees) = .ok ts →
      ∃ tree', Derives (u ++ v) (.tree l' tree') ∧ tree'.build = .ok t) :
    Prints l' ((' ' :: s.chars ++ [' ']).intercalate parts) t := by
  cases h with
  | nil => simp at hlen
  | @cons part t₁ parts ts hpart hparts =>
    obtain ⟨ls, hspells, hreads⟩ := hpart
    obtain ⟨more, hmore, htail⟩ := prints_tail (glue_operator s) .noTail .tail hparts
    refine ⟨ls ++ more, ?_, fun u hu => ?_⟩
    · rw [intercalate_cons]
      exact hspells.append hmore ((glue_operator s).boundary_tail parts)
    · obtain ⟨v, w, rfl, hv, hw⟩ := List.map_eq_append_iff.mp hu
      obtain ⟨tree, hderives, htree⟩ := hreads v hv
      obtain ⟨trees, hderives', htrees⟩ := htail w hw
      have hne : trees ≠ [] := by
        rintro rfl
        cases htrees
        simp at hlen
      exact hread hderives hderives' (List.getLast?_eq_some_getLast hne) (buildAll_of_denotes (.cons htree htrees))

theorem prints_union {parts : List (List Char)} {ts : List Term} {t : Term}
    (h : List.Forall₂ (Prints .intersection) parts ts) (hlen : 2 ≤ ts.length)
    (ht : Construction.construct "union-type" ts = .ok t) : Prints .term (" | ".toList.intercalate parts) t := by
  refine prints_operands (s := .bar) h hlen ?_
  intro u v tree trees last hderives hderives' hlast hbuild
  refine ⟨_, .union hderives hderives' hlast, ?_⟩
  exact ConstructionError.bind_eq_ok.mpr ⟨ts, hbuild, ht⟩

theorem prints_intersection {parts : List (List Char)} {ts : List Term} {t : Term}
    (h : List.Forall₂ (Prints .unary) parts ts) (hlen : 2 ≤ ts.length)
    (ht : Construction.construct "intersection-type" ts = .ok t) :
    Prints .intersection (" & ".toList.intercalate parts) t := by
  refine prints_operands (s := .ampersand) h hlen ?_
  intro u v tree trees last hderives hderives' hlast hbuild
  refine ⟨_, .intersection hderives hderives' hlast, ?_⟩
  exact ConstructionError.bind_eq_ok.mpr ⟨ts, hbuild, ht⟩

theorem prints_complement {text : List Char} {u t : Term} (h : Prints .unary text u)
    (ht : Construction.construct "complement-type" [u] = .ok t) : Prints .unary ('~' :: text) t := by
  obtain ⟨ls, hspells, hreads⟩ := h
  refine ⟨.symbol .tilde :: ls, hspells.symbol_append (s := .tilde) (by decide), fun w hw => ?_⟩
  obtain ⟨s, v, rfl, hv⟩ := lexemes_cons hw
  obtain ⟨tree, hderives, htree⟩ := hreads v hv
  refine ⟨_, .complement hderives, ?_⟩
  rw [Denotes, Tree.build]
  exact ConstructionError.bind_eq_ok.mpr ⟨u, htree, ht⟩

end TermMachine
