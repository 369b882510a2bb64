import TermMachine.Proofs.Recognition

/-!
# Where the nodes of a tree come from

The parser joins spans by hand: a union takes its span from its first and its last operand, a call from its name and its
closing parenthesis, and what was read and given back leaves no trace. Here is shown that a span is nevertheless what it is
meant to be. Each node of a tree was read from a run of tokens, and its span is the hull of the run, from the start of the
first token to the end of the last, delimiters, tildes and the name of a call included. The nodes inside it were read from
runs inside its own: the first behind the tokens with which the node opens, each of the others behind the one before, with a
separator between them, and the last up to the token with which the node closes.

That a node was read from a run of tokens is said by the parser itself: it reads the run alone as that node.

Proved:
* `Derives.spanned`: the span of a tree is the hull of the tokens that it is derived from.
* `Derives.placed`: and so for all trees inside it, each of which has its place.
* `spans_are_hulls`: what this says of a tree that the parser gives.
-/

namespace TermMachine

/-- The trees directly inside a tree, as they follow one another in the source. -/
def Tree.children : Tree → List Tree
  | call _ ts _ | sequence ts _ | list ts _ | set ts _ | union ts _ | intersection ts _ => ts
  | map entries _ => entries.flatMap fun e => [e.1, e.2]
  | complement inner _ => [inner]
  | integer _ _ | string _ _ | character _ _ | name _ _ => []

/-- The number of tokens with which a tree opens, before its first child: a literal or a name is one token, a call has a name
and a parenthesis, and operands have nothing before the first of them. -/
def Tree.opening : Tree → Nat
  | integer _ _ | string _ _ | character _ _ | name _ _ => 1
  | call _ _ _ => 2
  | sequence _ _ | list _ _ | set _ _ | map _ _ | complement _ _ => 1
  | union _ _ | intersection _ _ => 0

def Tree.closing : Tree → Nat
  | call _ _ _ | sequence _ _ | list _ _ | set _ _ | map _ _ => 1
  | _ => 0

/-- The node to which a path leads: each number picks a child. -/
def Tree.node? : Tree → List Nat → Option Tree
  | t, [] => some t
  | t, k :: path => t.children[k]?.bind (·.node? path)

namespace Grammar

/-- The span from the start of the token at `i` to the end of the last token before `j`. -/
def IsHull (tokens : List Token) (i j : Nat) (span : Span) : Prop :=
  ∃ first last, tokens[i]? = some first ∧ tokens[j - 1]? = some last ∧ span = ⟨first.span.start, last.span.stop⟩

mutual

/-- A tree was read from the tokens from `i` up to `j`, where `j` is not included, and its span is their hull. The trees inside
it were read from the tokens between those that open and close it, and so on down to the leaves. -/
inductive Located (tokens : List Token) : Nat → Nat → Tree → Prop
  | node {i j : Nat} {t : Tree} : i < j → j ≤ tokens.length → Tree.parse (tokens.extract i j) = .ok t →
      IsHull tokens i j t.span → Row tokens (i + t.opening) (j - t.closing) t.children → Located tokens i j t

/-- Trees were read from the tokens from `i` up to `j`, one behind the other, with one token between a tree and the next. -/
inductive Row (tokens : List Token) : Nat → Nat → List Tree → Prop
  | nil {i : Nat} : Row tokens i i []
  | one {i j : Nat} {t : Tree} : Located tokens i j t → Row tokens i j [t]
  | cons {i k j : Nat} {t t' : Tree} {ts : List Tree} : Located tokens i k t → Row tokens (k + 1) j (t' :: ts) →
      Row tokens i j (t :: t' :: ts)

end

/-! ## Runs of tokens -/

section
variable {tokens u v : List Token} {i : Nat}

def StandsAt (tokens : List Token) (i : Nat) (u : List Token) : Prop := u <+: tokens.drop i

theorem StandsAt.left (h : StandsAt tokens i (u ++ v)) : StandsAt tokens i u :=
  (List.prefix_append u v).trans h

theorem StandsAt.right (h : StandsAt tokens i (u ++ v)) : StandsAt tokens (i + u.length) v := by
  obtain ⟨rest, hrest⟩ := h
  refine ⟨rest, ?_⟩
  rw [← List.drop_drop, ← hrest, List.append_assoc, List.drop_left]

theorem StandsAt.tail {x : Token} (h : StandsAt tokens i (x :: u)) : StandsAt tokens (i + 1) u :=
  StandsAt.right (u := [x]) h

theorem StandsAt.getElem? {k : Nat} {x : Token} (h : StandsAt tokens i u) (hx : u[k]? = some x) :
    tokens[i + k]? = some x := by
  obtain ⟨rest, hrest⟩ := h
  obtain ⟨hk, -⟩ := List.getElem?_eq_some_iff.mp hx
  rw [← List.getElem?_drop, ← hrest, List.getElem?_append_left hk, hx]

theorem StandsAt.extract (h : StandsAt tokens i u) : tokens.extract i (i + u.length) = u := by
  rw [List.extract_eq_take_drop, Nat.add_sub_cancel_left]
  exact (List.prefix_iff_eq_take.mp h).symm

theorem StandsAt.length_le (h : StandsAt tokens i u) (hne : u ≠ []) : i + u.length ≤ tokens.length := by
  have hle := List.IsPrefix.length_le h
  have hpos := List.length_pos_iff.mpr hne
  rw [List.length_drop] at hle
  omega

end

/-! ## Spans -/

/-- What a row of tokens has to do with the span of a phrase: a tree covers all of it, and the last tree of a tail ends where
it ends. -/
def Spanned (u : List Token) : Phrase → Prop
  | .tree _ t => ∃ first last, u.head? = some first ∧ u.getLast? = some last ∧ t.span = first.span.to last.span
  | .tail _ _ ts => ∀ t, ts.getLast? = some t → ∃ last, u.getLast? = some last ∧ t.span.stop = last.span.stop
  | _ => True

theorem span_of_braced {span : Span} {es : List (Tree × Option Tree)} {t : Tree} (h : Braced span es t) :
    t.span = span := by
  cases h with
  | set => rfl
  | map => rfl

/-- Tokens between two delimiters end with the second. -/
theorem getLast?_delimited (x y : Token) (u : List Token) : (x :: (u ++ [y])).getLast? = some y := by
  rw [← List.cons_append, List.getLast?_concat]

/-- Operands take their span from the first and the last of them. -/
theorem spanned_operands {u v : List Token} {l l' : Level} {separator : Symbol} {t last : Tree} {ts : List Tree}
    (ht : Spanned u (.tree l t)) (hts : Spanned v (.tail separator l' ts)) (hlast : ts.getLast? = some last) :
    ∃ a b, (u ++ v).head? = some a ∧ (u ++ v).getLast? = some b ∧ t.span.to last.span = a.span.to b.span := by
  obtain ⟨a, _, ha, _, hspan⟩ := ht
  obtain ⟨b, hb, hstop⟩ := hts last hlast
  refine ⟨a, b, ?_, ?_, ?_⟩
  · rw [List.head?_append, ha, Option.some_or]
  · rw [List.getLast?_append, hb, Option.some_or]
  · rw [Span.to, hspan, hstop]
    rfl

theorem Derives.spanned {u : List Token} {p : Phrase} (h : Derives u p) : Spanned u p := by
  induction h with
  | integer | string | character | name => exact ⟨_, _, rfl, rfl, rfl⟩
  | @call _ _ _ b =>
    refine ⟨_, ⟨.symbol .closeParen, b⟩, rfl, ?_, rfl⟩
    rw [List.getLast?_cons_cons, getLast?_delimited]
  | group | list => exact ⟨_, _, rfl, getLast?_delimited _ _ _, rfl⟩
  | braces _ ht => exact ⟨_, _, rfl, getLast?_delimited _ _ _, span_of_braced (ofEntries?_eq_some.mp ht)⟩
  | plain _ ih => exact ih
  | oneUnary _ ih => exact ih
  | oneIntersection _ ih => exact ih
  | complement _ ih =>
    obtain ⟨first, last, -, hlast, hspan⟩ := ih
    refine ⟨_, last, rfl, ?_, ?_⟩
    · rw [List.getLast?_cons, hlast, Option.getD_some]
    · show Span.to _ _ = _
      rw [hspan]
      rfl
  | intersection _ _ hlast ih ihv => exact spanned_operands ih ihv hlast
  | union _ _ hlast ih ihv => exact spanned_operands ih ihv hlast
  | noTail => exact fun t ht => nomatch ht
  | @tail _ _ _ u v t ts _ hv ih ihv =>
    intro last hlast
    cases ts with
    | nil =>
      -- the last tree is the first one, and nothing stands behind it
      obtain rfl : t = last := by simpa using hlast
      obtain ⟨_, b, _, hb, hspan⟩ := ih
      cases hv
      refine ⟨b, ?_, by rw [hspan]; rfl⟩
      rw [List.append_nil, List.getLast?_cons, hb, Option.getD_some]
    | cons t' ts =>
      obtain ⟨b, hb, hstop⟩ := ihv last (by simpa using hlast)
      refine ⟨b, ?_, hstop⟩
      rw [List.getLast?_cons, List.getLast?_append, hb, Option.some_or, Option.getD_some]
  | _ => trivial

theorem Derives.ne_nil {u : List Token} {l : Level} {t : Tree} (h : Derives u (.tree l t)) : u ≠ [] := by
  obtain ⟨first, -, hfirst, -⟩ := h.spanned
  rintro rfl
  cases hfirst

/-! ## Places -/

/-- A tree of any level is a term. -/
theorem Derives.term {u : List Token} {l : Level} {t : Tree} (h : Derives u (.tree l t)) :
    Derives u (.tree .term t) := by
  cases l with
  | primary => exact .oneIntersection (.oneUnary (.plain h))
  | unary => exact .oneIntersection (.oneUnary h)
  | intersection => exact .oneIntersection h
  | term => exact h

/-- A row goes on behind one more token. -/
theorem Row.append {tokens : List Token} {ts ts' : List Tree} {i k j : Nat} (h : Row tokens i k ts)
    (h' : Row tokens (k + 1) j ts') (hne : ts ≠ []) (hne' : ts' ≠ []) : Row tokens i j (ts ++ ts') := by
  induction ts generalizing i with
  | nil => exact absurd rfl hne
  | cons t ts ih =>
    cases h with
    | one ht =>
      obtain ⟨t', ts', rfl⟩ := List.exists_cons_of_ne_nil hne'
      exact .cons ht h'
    | cons ht hts => exact .cons ht (ih hts (List.cons_ne_nil _ _))

def entryTrees (e : Tree × Option Tree) : List Tree := e.1 :: e.2.toList

/-- What a brace group contains, and the braces around it. -/
theorem braced_parts {span : Span} {es : List (Tree × Option Tree)} {t : Tree} (h : Braced span es t) :
    t.opening = 1 ∧ t.closing = 1 ∧ t.children = es.flatMap entryTrees := by
  cases h with
  | set items => exact ⟨rfl, rfl, by simp [Tree.children, entryTrees, List.flatMap_map]⟩
  | map => exact ⟨rfl, rfl, by simp [Tree.children, entryTrees, List.flatMap_map]⟩

/-- Wherever the tokens stand, the trees were read from them in a row. -/
def ReadInRow (u : List Token) (ts : List Tree) : Prop :=
  ∀ tokens i, StandsAt tokens i u → Row tokens i (i + u.length) ts

/-- Wherever the tokens stand, a row that ends there goes on with the trees. -/
def ProlongsRow (u : List Token) (ts : List Tree) : Prop :=
  ∀ tokens k i ts', StandsAt tokens i u → ts' ≠ [] → Row tokens k i ts' → Row tokens k (i + u.length) (ts' ++ ts)

def Placed (u : List Token) : Phrase → Prop
  | .tree _ t => ∀ tokens i, StandsAt tokens i u → Located tokens i (i + u.length) t
  | .tail _ _ ts => ProlongsRow u ts
  | .args ts => ReadInRow u ts
  | .entry e => ReadInRow u (entryTrees e)
  | .entryTail es => ProlongsRow u (es.flatMap entryTrees)
  | .entries es => ReadInRow u (es.flatMap entryTrees)

section
variable {u v : List Token} {ts ts' : List Tree} {x : Token}

theorem prolongsRow_nil : ProlongsRow [] [] := by
  intro tokens k i ts' _ _ hrow
  rwa [List.append_nil]

/-- Some trees behind a separator, and then others. -/
theorem ProlongsRow.cons (h : ReadInRow u ts) (hne : ts ≠ []) (hv : ProlongsRow v ts') :
    ProlongsRow (x :: (u ++ v)) (ts ++ ts') := by
  intro tokens k i us hstands hus hrow
  have hfirst : Row tokens k (i + 1 + u.length) (us ++ ts) :=
    hrow.append (h tokens (i + 1) hstands.tail.left) hus hne
  have hall := hv tokens k _ (us ++ ts) hstands.tail.right (List.append_ne_nil_of_left_ne_nil hus ts) hfirst
  rw [List.append_assoc] at hall
  have hend : i + (x :: (u ++ v)).length = i + 1 + u.length + v.length := by
    rw [List.length_cons, List.length_append]
    omega
  rwa [hend]

theorem ReadInRow.append (h : ReadInRow u ts) (hne : ts ≠ []) (hv : ProlongsRow v ts') :
    ReadInRow (u ++ v) (ts ++ ts') := by
  intro tokens i hstands
  rw [List.length_append, ← Nat.add_assoc]
  exact hv tokens i _ ts hstands.right hne (h tokens i hstands.left)

end

theorem Placed.one {u : List Token} {l : Level} {t : Tree} (h : Placed u (.tree l t)) : ReadInRow u [t] :=
  fun tokens i hu => .one (h tokens i hu)

/-- A tree is where its tokens are, if the trees inside it are in a row between the tokens that open and close it. -/
theorem Derives.node {w : List Token} {l : Level} {t : Tree} (h : Derives w (.tree l t)) (front u back : List Token)
    (hw : w = front ++ (u ++ back)) (hopening : t.opening = front.length) (hclosing : t.closing = back.length)
    (hrow : ReadInRow u t.children) : Placed w (.tree l t) := by
  intro tokens i hstands
  have hpos : 0 < w.length := List.length_pos_iff.mpr h.ne_nil
  refine .node (by omega) (hstands.length_le h.ne_nil) ?_ ?_ ?_
  · rw [hstands.extract]
    exact parse_of_derives h.term
  · obtain ⟨first, last, hfirst, hlast, hspan⟩ := h.spanned
    rw [List.head?_eq_getElem?] at hfirst
    rw [List.getLast?_eq_getElem?] at hlast
    refine ⟨first, last, hstands.getElem? hfirst, ?_, hspan⟩
    rw [Nat.add_sub_assoc hpos]
    exact hstands.getElem? hlast
  · subst hw
    have hend : i + (front ++ (u ++ back)).length - back.length = i + front.length + u.length := by
      simp only [List.length_append]
      omega
    rw [hopening, hclosing, hend]
    exact hrow tokens _ hstands.right.left

theorem Derives.placed {u : List Token} {p : Phrase} (h : Derives u p) : Placed u p := by
  have hnone : ReadInRow [] [] := fun _ _ _ => .nil
  induction h with
  | integer => exact Derives.integer.node [_] [] [] rfl rfl rfl hnone
  | string => exact Derives.string.node [_] [] [] rfl rfl rfl hnone
  | character => exact Derives.character.node [_] [] [] rfl rfl rfl hnone
  | name => exact Derives.name.node [_] [] [] rfl rfl rfl hnone
  | call h ih => exact h.call.node [_, _] _ [_] rfl rfl rfl ih
  | group h ih => exact h.group.node [_] _ [_] rfl rfl rfl ih
  | list h ih => exact h.list.node [_] _ [_] rfl rfl rfl ih
  | braces h ht ih =>
    obtain ⟨hopening, hclosing, hchildren⟩ := braced_parts (ofEntries?_eq_some.mp ht)
    refine (h.braces ht).node [_] _ [_] rfl hopening hclosing ?_
    rw [hchildren]
    exact ih
  | plain _ ih => exact ih
  | @complement s _ _ h ih => exact h.complement.node [⟨.symbol .tilde, s⟩] _ [] (by simp) rfl rfl ih.one
  | oneUnary _ ih => exact ih
  | intersection h hv hlast ih ihv =>
    exact (h.intersection hv hlast).node [] _ [] (by simp) rfl rfl (ih.one.append (by simp) ihv)
  | oneIntersection _ ih => exact ih
  | union h hv hlast ih ihv =>
    exact (h.union hv hlast).node [] _ [] (by simp) rfl rfl (ih.one.append (by simp) ihv)
  | noTail | noEntryTail => exact prolongsRow_nil
  | noArgs | noEntries => exact hnone
  | tail _ _ ih ihv => exact .cons ih.one (by simp) ihv
  | args _ _ ih ihv => exact ih.one.append (by simp) ihv
  | element _ ih => exact ih.one
  | @maplet s _ v _ value _ _ ih ihv =>
    have hvalue : ProlongsRow (⟨.symbol .mapsTo, s⟩ :: (v ++ [])) ([value] ++ []) :=
      .cons ihv.one (by simp) prolongsRow_nil
    rw [List.append_nil] at hvalue
    exact ih.one.append (by simp) hvalue
  | entryTail _ _ ih ihv => exact .cons ih (by simp [entryTrees]) ihv
  | entries _ _ ih ihv => exact ih.append (by simp [entryTrees]) ihv

/-! ## Down a path -/

theorem Row.located {tokens : List Token} {ts : List Tree} {t : Tree} {i j k : Nat} (h : Row tokens i j ts)
    (hk : ts[k]? = some t) : ∃ a b, Located tokens a b t := by
  induction ts generalizing i k with
  | nil => cases hk
  | cons t' ts ih =>
    cases k with
    | zero =>
      cases hk
      cases h with
      | one ht => exact ⟨_, _, ht⟩
      | cons ht _ => exact ⟨_, _, ht⟩
    | succ k =>
      cases h with
      | one _ => cases hk
      | cons _ hts => exact ih hts hk

theorem Located.descendant {tokens : List Token} {t node : Tree} {i j : Nat} {path : List Nat}
    (h : Located tokens i j t) (hnode : t.node? path = some node) : ∃ a b, Located tokens a b node := by
  induction path generalizing t i j with
  | nil =>
    cases hnode
    exact ⟨i, j, h⟩
  | cons k path ih =>
    obtain ⟨child, hchild, hpath⟩ := Option.bind_eq_some_iff.mp hnode
    obtain ⟨_, _, _, _, hrow⟩ := h
    obtain ⟨a, b, hat⟩ := hrow.located hchild
    exact ih hat hpath

/-! ## The trees of the parser -/

/-- A tree that the parser gives was read from all of the tokens. Each node of it, at whatever path, was read from a run of
them that the parser reads alone as that node; its span goes from the start of the first of these to the end of the last.
Its children were read from runs inside its own that do not overlap, in their order: the first starts behind the tokens that
open the node, each of the others behind a token that separates it from the one before, and the last ends where the node is
closed. -/
theorem spans_are_hulls {tokens : List Token} {tree : Tree} (h : Tree.parse tokens = .ok tree) :
    Located tokens 0 tokens.length tree ∧
    ∀ path node, tree.node? path = some node → ∃ i j, i < j ∧ j ≤ tokens.length ∧
      Tree.parse (tokens.extract i j) = .ok node ∧ IsHull tokens i j node.span ∧
      Row tokens (i + node.opening) (j - node.closing) node.children := by
  have hroot : Located tokens 0 tokens.length tree := by
    have hplaced := (derives_of_parse h).placed tokens 0 (List.prefix_refl _)
    rwa [Nat.zero_add] at hplaced
  refine ⟨hroot, fun path node hnode => ?_⟩
  obtain ⟨i, j, hij, hj, hparse, hhull, hrow⟩ := hroot.descendant hnode
  exact ⟨i, j, hij, hj, hparse, hhull, hrow⟩

/-- The tokens of `~{2 |-> x}`, and the map behind the tilde. -/
theorem spans_are_hulls_map :
    let place := fun n : Nat => (⟨⟨0, n⟩, ⟨0, n + 1⟩⟩ : Span)
    let tokens : List Token := [⟨.symbol .tilde, place 0⟩, ⟨.symbol .openBrace, place 1⟩, ⟨.integer "2", place 2⟩,
      ⟨.symbol .mapsTo, ⟨⟨0, 4⟩, ⟨0, 7⟩⟩⟩, ⟨.identifier "x", place 8⟩, ⟨.symbol .closeBrace, place 9⟩]
    let map : Tree := .map [(.integer "2" (place 2), .name "x" (place 8))] ⟨⟨0, 1⟩, ⟨0, 10⟩⟩
    let tree : Tree := .complement map ⟨⟨0, 0⟩, ⟨0, 10⟩⟩
    Tree.parse tokens = .ok tree ∧ Located tokens 0 6 tree ∧ tree.node? [0] = some map ∧
      ∃ i j, Tree.parse (tokens.extract i j) = .ok map ∧ IsHull tokens i j ⟨⟨0, 1⟩, ⟨0, 10⟩⟩ := by
  intro place tokens map tree
  have hentries : Derives [⟨.integer "2", place 2⟩, ⟨.symbol .mapsTo, ⟨⟨0, 4⟩, ⟨0, 7⟩⟩⟩, ⟨.identifier "x", place 8⟩]
      (.entries [(.integer "2" (place 2), some (.name "x" (place 8)))]) :=
    .entries (.maplet Derives.integer.term Derives.name.term) .noEntryTail
  have hmap : Derives tokens.tail (.tree .primary map) := .braces hentries rfl
  have hparse : Tree.parse tokens = .ok tree := parse_of_derives (Derives.complement (.plain hmap)).term
  obtain ⟨hroot, hnodes⟩ := spans_are_hulls hparse
  obtain ⟨i, j, -, -, halone, hhull, -⟩ := hnodes [0] map rfl
  exact ⟨hparse, hroot, rfl, i, j, halone, hhull⟩

end Grammar

end TermMachine
