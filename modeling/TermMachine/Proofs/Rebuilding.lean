import TermMachine.Proofs.FiniteMaps
import TermMachine.Proofs.Settling

/-!
# Collections that are taken apart and rebuilt

An operator that takes a collection apart gives a spread of its parts. Where the operator stands among the arguments of
another, the spread is spliced there, between the arguments before it and those behind. So the operator that builds a
collection of the same kind finds the parts in its arguments, and what it makes of them is the collection again. A map is
taken apart into tuples of a key and the sequence at that key, and is built by splitting such tuples.

Proved:
* `settles_collect`, `settles_set`, `settles_map`: building a collection from its parts.
* `Collection.moves_opened`: taking a collection apart.
* `runs_spliced`: what a spread comes to in a sequence.
* `collections_are_rebuilt`: taking a collection apart and rebuilding it is the identity, a list may be taken apart
  between other elements of a list, and to reverse twice changes nothing.
-/

namespace TermMachine

open Term Eval Engine Rules

/-! ## Building -/

theorem settles_collect {c : Operator.Composite} {name : String} {ts vs : List Term}
    (hop : (Operator.composite c).params = [.eagerSeq])
    (hrule : Rules.composite c [.seq vs] = .ok (.data name vs)) (h : List.Forall₂ Settles ts vs) :
    Settles (.node (.composite c) [.seq ts]) (.data name vs) := by
  refine settles_node hop h rfl rfl fun step advance rounds m => ?_
  show Eval.ofRule _ (Rules.composite c [.seq vs]) m = _
  rw [hrule]
  rfl

theorem settles_set {ts vs : List Term} (hvs : Increasing vs) (h : List.Forall₂ Settles ts vs) :
    Settles (.node (.collection .set) [.seq ts]) (.set vs) := by
  refine settles_node rfl h rfl rfl fun step advance rounds m => ?_
  have hrule : Rules.collection .set [.seq vs] m.choices = .ok (.set vs, m.choices) := by
    show Except.ok (Term.set (Elements.ofList vs), m.choices) = _
    rw [Elements.ofList_of_increasing hvs]
  rw [applyRule, Eval.bind_of_ok (Eval.get_apply m), hrule]
  rfl

theorem settles_map {ts : List Term} {entries : Entries} (hkeys : Increasing entries.keys)
    (h : List.Forall₂ Settles ts (entries.map Rules.entryTuple)) :
    Settles (.node (.mapping .map) [.seq ts]) (.map entries) := by
  refine settles_node rfl h rfl rfl fun step advance rounds m => ?_
  have hrule : Rules.mapping .map [.seq (entries.map entryTuple)] = .ok (.map entries) :=
    mapping_map_entries ⟨entries, hkeys⟩
  show Eval.ofRule _ _ m = _
  rw [hrule]
  rfl

/-! ## Taking apart -/

/-- Collections, with the order that sets and maps keep. -/
inductive Collection where
  | list (es : List Term)
  | tuple (es : List Term)
  | vector (es : List Term)
  | set (s : FiniteSet)
  | map (m : FiniteMap)

namespace Collection

def term : Collection → Term
  | list es => .data listName es
  | tuple es => .data tupleName es
  | vector es => .data vectorName es
  | set s => s.term
  | map m => m.term

def builder : Collection → Operator
  | list _ => .composite .list
  | tuple _ => .composite .tuple
  | vector _ => .composite .vector
  | set _ => .collection .set
  | map _ => .mapping .map

def opener : Collection → Operator
  | list _ => .composite .listElements
  | tuple _ => .composite .tupleElements
  | vector _ => .composite .vectorElements
  | set _ => .collection .elements
  | map _ => .mapping .elements

def parts : Collection → List Term
  | list es | tuple es | vector es => es
  | set s => s.elements
  | map m => m.entries.map entryTuple

/-- The terms that it holds: elements, or keys and values. -/
def contents : Collection → List Term
  | list es | tuple es | vector es => es
  | set s => s.elements
  | map m => m.entries.flatMap fun e => e.1 :: e.2

end Collection

def Term.IsItem (t : Term) : Prop := t.isValue = true ∧ t.isSequence = false

namespace Collection

variable {c : Collection}

theorem params_builder (c : Collection) : c.builder.params = [.eagerSeq] := by
  cases c <;> rfl

theorem params_opener (c : Collection) : c.opener.params = [.eager] := by
  cases c <;> rfl

theorem isItem_parts (h : ∀ t ∈ c.contents, t.IsItem) : ∀ t ∈ c.parts, t.IsItem := by
  cases c with
  | map m =>
    intro t ht
    obtain ⟨e, -, rfl⟩ := List.mem_map.mp ht
    exact ⟨rfl, rfl⟩
  | _ => exact h

/-- The rule gives the parts as they are, since there is no sequence among the contents. -/
theorem moves_opened (h : ∀ t ∈ c.contents, t.IsItem) : Moves (.node c.opener [c.term]) (.spread c.parts) := by
  have hvalue : c.term.isValue = true := by cases c <;> rfl
  refine moves_over c.params_opener hvalue fun step advance rounds m => ?_
  cases c with
  | set s =>
    have helements : flatten s.elements = s.elements := flatten_of_no_sequence fun t ht => (h t ht).2
    show EStateM.Result.ok (Term.spread (flatten s.elements)) m = _
    rw [helements]
    rfl
  | map n =>
    show EStateM.Result.ok (Term.spread (n.entries.map fun e => .data tupleName (flatten (e.1 :: e.2)))) m = _
    have htuples : (n.entries.map fun e => Term.data tupleName (flatten (e.1 :: e.2))) = n.entries.map entryTuple := by
      refine List.map_congr_left fun e he => ?_
      rw [entryTuple, flatten_of_no_sequence fun t ht => (h t (List.mem_flatMap.mpr ⟨e, he, ht⟩)).2]
    rw [htuples]
    rfl
  | _ => rfl

theorem runs_built (h : ∀ t ∈ c.contents, t.IsItem) : Runs (.node c.builder [.seq c.parts]) c.term := by
  have hparts : List.Forall₂ Settles c.parts c.parts :=
    List.forall₂_same.mpr fun t ht => .value (isItem_parts h t ht).1 (isItem_parts h t ht).2
  cases c with
  | list es => exact (settles_collect rfl rfl hparts).runs
  | tuple es => exact (settles_collect rfl rfl hparts).runs
  | vector es => exact (settles_collect rfl rfl hparts).runs
  | set s => exact (settles_set s.increasing hparts).runs
  | map n => exact (settles_map n.increasing hparts).runs

end Collection

/-! ## Splicing -/

theorem allValues_of_items {items : List Term} (h : ∀ t ∈ items, t.IsItem) : allValues items = true := by
  rw [allValues_eq_all, List.all_eq_true]
  exact fun t ht => (h t ht).1

section
variable {before items after : List Term} {t v : Term} (hbefore : ∀ u ∈ before, u.IsItem)
  (hitems : ∀ u ∈ items, u.IsItem) (hafter : ∀ u ∈ after, u.IsItem) (ht : t.isValue = false)
  (h : Moves t (.spread items))
include hbefore hitems hafter

theorem allValues_spliced : allValues (before ++ (items ++ after)) = true :=
  allValues_of_items (List.forall_mem_append.mpr ⟨hbefore, List.forall_mem_append.mpr ⟨hitems, hafter⟩⟩)

include ht h

/-- A spread stands for its items, among the elements that were there. -/
theorem runs_spliced : Runs (.seq (before ++ t :: after)) (.seq (before ++ (items ++ after))) := by
  have hflat : ∀ u ∈ before ++ after, u.isSequence = false :=
    fun u hu => (List.forall_mem_append.mpr ⟨hbefore, hafter⟩ u hu).2
  have hmoves : Moves (.seq (before ++ t :: after)) (.seq (before ++ (items ++ after))) :=
    moves_spliced (allValues_of_items hbefore) hflat ht h
  refine hmoves.runs ?_ (allValues_spliced hbefore hitems hafter)
  simp [isValue, allValues_eq_all, ht]

/-- A node over such a sequence goes on with the items in the place of the spread. -/
theorem runs_over_spliced {op : Operator} (hop : op.params = [.eagerSeq])
    (hnode : Runs (.node op [.seq (before ++ (items ++ after))]) v) : Runs (.node op [.seq (before ++ t :: after)]) v := by
  have hpending : allValues (before ++ t :: after) = false := by simp [allValues_eq_all, ht]
  exact runs_arguments hop hpending (allValues_spliced hbefore hitems hafter) (runs_spliced hbefore hitems hafter ht h) hnode

end

theorem Collection.runs_rebuilt {c : Collection} (h : ∀ t ∈ c.contents, t.IsItem) :
    Runs (.node c.builder [.seq [.node c.opener [c.term]]]) c.term := by
  have hnone : ∀ u ∈ ([] : List Term), u.IsItem := by simp
  have hbuilt := runs_built h
  rw [← List.append_nil c.parts] at hbuilt
  exact runs_over_spliced hnone (isItem_parts h) hnone rfl (moves_opened h) c.params_builder hbuilt

/-! ## Reversing -/

section
variable {xs : List Term} (hxs : ∀ t ∈ xs, t.IsItem)
include hxs

theorem moves_reverse : Moves (.node (.composite .reverse) [.seq xs]) (.spread xs.reverse) :=
  moves_rule rfl (allValues_of_items hxs) fun _ _ _ _ => rfl

/-- The inner node is run to its spread, which the outer one finds spliced among its arguments. -/
theorem runs_reversed_twice :
    Runs (.seq [.node (.composite .reverse) [.seq [.node (.composite .reverse) [.seq xs]]]]) (.seq xs) := by
  have hnone : ∀ u ∈ ([] : List Term), u.IsItem := by simp
  have hreversed : ∀ t ∈ xs.reverse, t.IsItem := fun t ht => hxs t (List.mem_reverse.mp ht)
  have hinner : Runs (.seq [.node (.composite .reverse) [.seq xs]]) (.seq xs.reverse) := by
    have hspliced := runs_spliced hnone hreversed hnone rfl (moves_reverse hxs)
    rwa [List.append_nil] at hspliced
  have hback : Runs (.seq [.node (.composite .reverse) [.seq xs.reverse]]) (.seq xs) := by
    have hmoves := moves_reverse hreversed
    rw [List.reverse_reverse] at hmoves
    have hspliced := runs_spliced hnone hxs hnone rfl hmoves
    rwa [List.append_nil] at hspliced
  have houter : Moves (.node (.composite .reverse) [.seq [.node (.composite .reverse) [.seq xs]]])
      (.node (.composite .reverse) [.seq xs.reverse]) := moves_arguments rfl rfl hinner
  have hflat : ∀ u ∈ ([] ++ [] : List Term), u.isSequence = false := by simp
  refine .step rfl ?_ (moves_seq (allValues_of_items hnone) hflat rfl rfl houter) hback
  intro heq
  simp only [List.nil_append, seq.injEq, List.cons.injEq, and_true] at heq
  exact evaluated_ne rfl (allValues_of_items hreversed) heq

end

/-! ## The theorem -/

/-- Taking a collection apart and rebuilding it gives the collection back, if it holds values that are no sequences. A list
may be taken apart between other such values in the arguments of `list`, and such values that are reversed twice are as
they were. All of this holds on every machine without a step limit, and changes nothing on it but the number of steps. -/
theorem collections_are_rebuilt {m : Machine} (hm : m.config.stepLimit = none) :
    (∀ c : Collection, (∀ t ∈ c.contents, t.IsItem) →
      ∃ m', run (.node c.builder [.seq [.node c.opener [c.term]]]) m = .ok c.term m' ∧ Quiet m m') ∧
    (∀ xs es ys : List Term, (∀ t ∈ xs, t.IsItem) → (∀ t ∈ es, t.IsItem) → (∀ t ∈ ys, t.IsItem) →
      ∃ m', run (.node (.composite .list)
          [.seq (xs ++ .node (.composite .listElements) [.data listName es] :: ys)]) m =
        .ok (.data listName (xs ++ (es ++ ys))) m' ∧ Quiet m m') ∧
    (∀ xs : List Term, (∀ t ∈ xs, t.IsItem) →
      ∃ m', run (.node (.composite .list)
          [.seq [.node (.composite .reverse) [.seq [.node (.composite .reverse) [.seq xs]]]]]) m =
        .ok (.data listName xs) m' ∧ Quiet m m') := by
  refine ⟨fun c hc => run_of_runs (Collection.runs_rebuilt hc) hm, fun xs es ys hxs hes hys => run_of_runs ?_ hm,
    fun xs hxs => run_of_runs ?_ hm⟩
  · have hall : ∀ t ∈ xs ++ (es ++ ys), t.IsItem :=
      List.forall_mem_append.mpr ⟨hxs, List.forall_mem_append.mpr ⟨hes, hys⟩⟩
    have hopened : Moves (.node (.composite .listElements) [.data listName es]) (.spread es) :=
      Collection.moves_opened (c := .list es) hes
    exact runs_over_spliced hxs hes hys rfl hopened rfl (Collection.runs_built (c := .list (xs ++ (es ++ ys))) hall)
  · exact runs_arguments rfl rfl (allValues_of_items hxs) (runs_reversed_twice hxs)
      (Collection.runs_built (c := .list xs) hxs)

/-- A map with two values at one key and none at the other, and a list between two numbers, while the store holds
something. -/
theorem collections_are_rebuilt_map :
    let entries : Entries := [(.int 1, [.char 'a', .null]), (.int 2, [])]
    let m : Machine := ⟨{ stepLimit := none }, Entities.empty.put Entity.store (.int 7), .ofSeed 1, 0⟩
    (∃ m', run (.node (.mapping .map) [.seq [.node (.mapping .elements) [.map entries]]]) m = .ok (.map entries) m' ∧
      Quiet m m') ∧
    ∃ m', run (.node (.composite .list)
        [.seq [.int 1, .node (.composite .listElements) [Term.string ['a', 'b']], .int 2]]) m =
      .ok (.data listName [.int 1, .char 'a', .char 'b', .int 2]) m' ∧ Quiet m m' := by
  intro entries m
  have hincreasing : Increasing (Entries.keys entries) := by
    have horder : Term.cmp (.int 1) (.int 2) = .lt := rfl
    simp [Increasing, entries, Entries.keys, horder]
  have hrebuilt := collections_are_rebuilt (m := m) rfl
  refine ⟨hrebuilt.1 (.map ⟨entries, hincreasing⟩) ?_, hrebuilt.2.1 [.int 1] [.char 'a', .char 'b'] [.int 2] ?_ ?_ ?_⟩
  all_goals simp [Collection.contents, entries, Term.IsItem, isValue, isSequence]

end TermMachine
