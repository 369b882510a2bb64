import TermMachine.Proofs.OrderlyCollections
import TermMachine.Proofs.Rebuilding
import TermMachine.Proofs.SequenceRuns

/-!
# Sequences in sets

A set is taken apart into a spread of its elements, and put together again by joining terms. Both treat a sequence as the
terms in it, so that they agree only on sets without sequences. The rules keep sequences out of the keys of maps, and spreads
out of sets. They do not keep sequences out of sets: a sequence that `set-insert` has for its element is one argument, and
goes into the set whole. No other rule puts one there, so that a sequence in a set was inserted in one of the steps that the
run has taken to come there. What holds of every set and map alike is said of all states that a run may pass through
(`Visited`); what is said of the past of a state is said of the path of one run (`Passes`).

Proved:
* `orderly_of_readTerm`: what is read holds no set, no map and no spread, so that nothing has to be asked of it.
* `comesApart_of_increasing`: a set without sequences has as many elements as it spreads, is the same after it was taken
  apart and put together, and gives one of its members when one is asked for.
* `only_inserted_sequences_are_members`: in every state of a program no key is a sequence, a sequence in a set was inserted on
  the way to that state, and a set without sequences comes apart in this way.
* `inserted_sequence_is_a_member`: a set with a sequence does not.
-/

namespace TermMachine

open Term Eval Engine Rules

/-! ## What is read -/

/-- The term has a form in which terms are read: it is no set, no map and no spread. -/
def Term.isWritten : Term → Bool
  | .set _ | .map _ | .spread _ => false
  | _ => true

theorem readable_written : Readable fun t => t.isWritten = true where
  value v := by cases v <;> rfl
  int _ _ := rfl
  char _ := rfl
  string _ := rfl
  atom _ := rfl
  type _ _ := rfl
  seq _ := rfl
  node _ := rfl

theorem orderly_of_readTerm {source : String} {t : Term} (inserted : Term → Prop) (h : readTerm source = .ok t) :
    t.Throughout (Orderly inserted) := by
  have hwritten : ∀ u ∈ t.parts, u.isWritten = true := of_readTerm readable_written.constructible h
  intro u hu
  have hform := hwritten u hu
  cases u with
  | set => cases hform
  | map => cases hform
  | node op params =>
    intro _ p hp items hspread
    have hparam := hwritten p (parts_trans hu (mem_parts_of_param hp))
    rw [hspread] at hparam
    cases hparam
  | _ => trivial

/-! ## Where a program starts -/

theorem entities_of_start {config : Config} {m : Machine} (h : Machine.start config = .ok m) : m.entities = .empty := by
  unfold Machine.start at h
  split at h <;> cases h
  rfl

section
variable {config : Config} {inputs : List Term} {m₀ m : Machine}
  (hinputs : ∀ input ∈ inputs, ∃ source, readTerm source = .ok input) (hstart : Machine.start config = .ok m₀)
  (hsupply : Execution.supply inputs m₀ = .ok () m)
include hinputs hstart hsupply

theorem orderly_of_supply (inserted : Term → Prop) : m.entities.Throughout (Orderly inserted) := by
  have hempty : m₀.entities.Throughout (Orderly inserted) := by
    rw [entities_of_start hstart]
    intro name t hfind
    cases hfind
  unfold Execution.supply at hsupply
  split at hsupply
  · cases hsupply
    exact hempty
  · cases hsupply
    refine hempty.append asksNothing_orderly ((throughout_seq asksNothing_orderly).mpr ?_) _
    refine throughout_flatten fun input hinput => ?_
    obtain ⟨source, hread⟩ := hinputs input hinput
    exact orderly_of_readTerm inserted hread

theorem flat_of_supply : m.entities.Flat := by
  have hflat : ∀ input ∈ inputs, input.Flat := by
    intro input hinput
    obtain ⟨source, hread⟩ := hinputs input hinput
    exact flat_of_readTerm hread
  have hempty : m₀.entities.Flat := by
    rw [entities_of_start hstart]
    exact Entities.Flat.empty
  obtain ⟨m₁, hm₁, hentities⟩ := flat_supply hflat hempty
  cases hsupply.symm.trans hm₁
  exact hentities

theorem closed_of_supply : m.entities.Closed := by
  have hclosed : ∀ input ∈ inputs, input.closed = true := by
    intro input hinput
    obtain ⟨source, hread⟩ := hinputs input hinput
    exact closed_of_readTerm hread
  have hempty : m₀.entities.Closed := by
    rw [entities_of_start hstart]
    exact Entities.closed_empty
  exact (Execution.supply_closed hclosed hempty hsupply).1

/-- What occurs in a state that a program may pass through is orderly. -/
theorem orderly_of_visited {source : String} {t v : Term} {terms : List Term} {s : Entities} (ht : readTerm source = .ok t)
    (hvisited : Visited t m.entities terms s) (hoccurs : Occurs v terms s) : v.Orderly fun _ => True := by
  obtain ⟨hterms, hs⟩ := hvisited.orderly (flat_of_readTerm ht) (flat_of_supply hinputs hstart hsupply)
    (orderly_of_readTerm _ ht) (orderly_of_supply hinputs hstart hsupply _)
  rcases hoccurs with ⟨u, hu, hpart⟩ | ⟨name, u, hfind, hpart⟩
  · exact hterms u hu v hpart
  · exact hs name u hfind v hpart

/-- What occurs in a state that a program passes through is orderly, where what was inserted on the way counts. -/
theorem orderly_of_passes {source : String} {t v : Term} {taken : List (Term × Machine)} {terms : List Term} {m' : Machine}
    (ht : readTerm source = .ok t) (hpasses : Passes t m taken terms m') (hoccurs : Occurs v terms m'.entities) :
    v.Orderly (Inserted taken) := by
  have hterms := hpasses.orderly ⟨flat_of_readTerm ht, flat_of_supply hinputs hstart hsupply, orderly_of_readTerm _ ht,
    orderly_of_supply hinputs hstart hsupply _⟩
  rcases hoccurs with ⟨u, hu, hpart⟩ | ⟨name, u, hfind, hpart⟩
  · exact (hterms u hu).term v hpart
  · obtain ⟨w, outer, rfl⟩ := hpasses.innermost
    exact (hterms w (by simp)).entities name u hfind v hpart

/-- Nothing is left to evaluate in a set. -/
theorem allValues_of_visited {source : String} {t : Term} {terms : List Term} {s : Entities} {elements : List Term}
    (ht : readTerm source = .ok t) (hvisited : Visited t m.entities terms s) (hoccurs : Occurs (.set elements) terms s) :
    allValues elements = true := by
  obtain ⟨hterms, hs⟩ := hvisited.closed (closed_of_readTerm ht) (closed_of_supply hinputs hstart hsupply)
  have hnodes : nodesIn elements = 0 := (fullyEvaluated_of_closed hterms hs).collection hoccurs rfl
  rw [allValues_eq_all, List.all_eq_true]
  intro e he
  exact (closed_of_nodes (nodesIn_eq_zero.mp hnodes e he)).2

end

/-! ## Taking a set apart -/

/-- The set of these elements gives all of them and nothing else when it is taken apart, on machines without a step limit. -/
structure ComesApart (elements : List Term) : Prop where
  spread : ∀ m : Machine, m.config.stepLimit = none →
    ∃ m', run (.node (.collection .elements) [.set elements]) m = .ok (.spread elements) m' ∧ Quiet m m'
  size : ∀ m : Machine, m.config.stepLimit = none →
    ∃ m', run (.node (.collection .size) [.set elements]) m = .ok (.int elements.length) m' ∧ Quiet m m'
  rebuilt : ∀ m : Machine, m.config.stepLimit = none →
    ∃ m', run (.node (.collection .set) [.seq [.node (.collection .elements) [.set elements]]]) m =
      .ok (.set elements) m' ∧ Quiet m m'
  chosen : elements ≠ [] → ∀ m : Machine, m.config.stepLimit = none →
    ∃ e m', e ∈ elements ∧ run (.node (.collection .someElement) [.set elements]) m = .ok e m' ∧
      m'.entities = m.entities

section
variable {elements : List Term} (hno : ∀ e ∈ elements, e.isSequence = false) (hvalues : allValues elements = true)
include hno hvalues

theorem isItem_of_values : ∀ e ∈ elements, e.IsItem := by
  rw [allValues_eq_all, List.all_eq_true] at hvalues
  exact fun e he => ⟨hvalues e he, hno e he⟩

/-- A set in order, without sequences and with nothing left to evaluate. -/
theorem comesApart_of_increasing (hincreasing : Increasing elements) : ComesApart elements where
  spread m hm := by
    have hopened := Collection.moves_opened (c := .set ⟨elements, hincreasing⟩) (isItem_of_values hno hvalues)
    exact run_of_runs (hopened.runs rfl hvalues) hm
  size m hm := by
    have hsize : Moves (.node (.collection .size) [.set elements]) (.int elements.length) :=
      moves_over rfl rfl fun _ _ _ _ => rfl
    exact run_of_runs (hsize.runs rfl rfl) hm
  rebuilt m hm :=
    run_of_runs (Collection.runs_rebuilt (c := .set ⟨elements, hincreasing⟩) (isItem_of_values hno hvalues)) hm
  chosen hne m hm := by
    have hpending : pending (.collection .someElement) [.set elements] = [] := rfl
    obtain ⟨e, choices, hpick⟩ : ∃ e choices, Sequence.pick elements m.choices = some (e, choices) := by
      unfold Sequence.pick
      rw [if_neg (by simpa using hne)]
      exact ⟨_, _, rfl⟩
    have hmem := pick_mem hpick
    have hvalue : e.isValue = true := (isItem_of_values hno hvalues e hmem).1
    have hstep : stepFor 1 (.node (.collection .someElement) [.set elements]) m =
        .ok e { m with choices, steps := m.steps + 1 } := by
      refine (stepNode_of_pending_nil hpending hm).trans ?_
      show (EStateM.Result.ok ((Sequence.pick (flatten elements) m.choices).getD (Term.empty, m.choices)).1 _ :
        EStateM.Result Halt Machine Term) = _
      rw [flatten_of_no_sequence hno, hpick]
      rfl
    have hne : e ≠ .node (.collection .someElement) [.set elements] := by
      intro heq
      rw [heq] at hvalue
      cases hvalue
    have hrun : run e { m with choices, steps := m.steps + 1 } = .ok e { m with choices, steps := m.steps + 1 } :=
      run_of_isValue hvalue _
    obtain ⟨k, hk⟩ := run_eq_ok.mp hrun
    have hfirst := runFor_of_advance (k := k) rfl (advanceWith_of_ne hstep hne) (by rw [hk]; trivial)
    exact ⟨e, _, hmem, run_eq_ok.mpr ⟨_, hfirst.trans hk⟩, rfl⟩

end

/-! ## The theorem -/

/-- A program and its inputs as they are read, on a new machine. In every state that the program may pass through, no key of
a map is a sequence or a spread, and no element of a set is a spread. A set without sequences spreads as many terms as it has
elements, is the same set after it was taken apart and put together, and gives a member when one is asked for. On the path of
its run, a set has a sequence for an element only if in the course of a step that was taken on the way a `set-insert` was
applied to that sequence and a set. An execution ends on that path. -/
theorem only_inserted_sequences_are_members {source : String} {t : Term} {inputs : List Term} {config : Config}
    {m₀ m : Machine} (ht : readTerm source = .ok t) (hinputs : ∀ input ∈ inputs, ∃ source, readTerm source = .ok input)
    (hstart : Machine.start config = .ok m₀) (hsupply : Execution.supply inputs m₀ = .ok () m) :
    (∀ terms s, Visited t m.entities terms s →
      (∀ entries, Occurs (.map entries) terms s → ∀ key ∈ Entries.keys entries, key.isSequence = false) ∧
      ∀ elements, Occurs (.set elements) terms s → (∀ e ∈ elements, ∀ items, e ≠ .spread items) ∧
        ((∀ e ∈ elements, e.isSequence = false) → ComesApart elements)) ∧
    (∀ taken terms m', Passes t m taken terms m' → Visited t m.entities terms m'.entities ∧
      ∀ elements, Occurs (.set elements) terms m'.entities → ∀ e ∈ elements, e.isSequence = true → Inserted taken e) ∧
    ∀ execution m', execute t inputs m₀ = .ok execution m' → ∃ taken last, Passes t m taken [last] m' ∧
      (last.isValue = true ∧ execution.outcome = .value (Execution.normalize last) ∨
        ∃ cause, execution.outcome = .stuck last cause) := by
  refine ⟨fun terms s hvisited => ?_, fun taken terms m' hpasses => ⟨hpasses.visited, ?_⟩, fun execution m' hexecute => ?_⟩
  · have horderly : ∀ {v}, Occurs v terms s → v.Orderly fun _ => True :=
      orderly_of_visited hinputs hstart hsupply ht hvisited
    refine ⟨fun entries hoccurs key hkey => ?_, fun elements hoccurs => ⟨fun e he items hspread => ?_, fun hno => ?_⟩⟩
    · obtain ⟨e, he, rfl⟩ := List.mem_map.mp hkey
      exact (horderly hoccurs).2 e he
    · rcases (horderly hoccurs).2 e he with hnone | ⟨⟨more, hseq⟩, -⟩
      · rw [hspread] at hnone
        cases hnone
      · rw [hspread] at hseq
        cases hseq
    · have hvalues := allValues_of_visited hinputs hstart hsupply ht hvisited hoccurs
      exact comesApart_of_increasing hno hvalues (horderly hoccurs).1
  · intro elements hoccurs e he hsequence
    rcases (orderly_of_passes hinputs hstart hsupply ht hpasses hoccurs).2 e he with hnone | ⟨-, hinserted⟩
    · rw [hnone] at hsequence
      cases hsequence
    · exact hinserted
  · obtain ⟨taken, last, hstands, hend, -⟩ := stands_of_execute hsupply hexecute
    exact ⟨taken, last, .before hstands, hend⟩

/-- `tuple(set(3),set-insert((1,2),set-empty))` comes to a tuple of two sets. The first comes apart, and the sequence in the
second was inserted by one of the two steps. A step that takes the other branch inserts nothing. -/
theorem only_inserted_sequences_are_members_tuple :
    let pair : Term := .seq [.int 1, .int 2]
    let inner : Term := .node (.collection .insert) [pair, .node (.collection .empty) []]
    let t : Term := .node (.composite .tuple) [.seq [.node (.collection .set) [.seq [.int 3]], inner]]
    let t₁ : Term := .node (.composite .tuple) [.seq [.set [.int 3], .set [pair]]]
    let v : Term := .data tupleName [.set [.int 3], .set [pair]]
    let m : Machine := ⟨{}, .empty, .ofSeed 0x5EED, 0⟩
    readTerm "tuple(set(3),set-insert((1,2),set-empty))" = .ok t ∧
      Passes t m [(t₁, { m with steps := 5 }), (t, m)] [v] { m with steps := 6 } ∧ ComesApart [.int 3] ∧
      Inserted [(t₁, { m with steps := 5 }), (t, m)] pair ∧
      ∀ m' e, ¬ InsertedBy (.node (.flow .ifTrueElse) [.bool false, inner, .int 3]) m' e := by
  intro pair inner t t₁ v m
  have hread : readTerm "tuple(set(3),set-insert((1,2),set-empty))" = .ok t := by decide +kernel +zetaReduce
  have hinputs : ∀ input ∈ ([] : List Term), ∃ source, readTerm source = .ok input := by simp
  have hrun : step t m = .ok t₁ { m with steps := 5 } := step_eq_ok.mpr ⟨8, by decide +kernel +zetaReduce⟩
  have hrule : step t₁ { m with steps := 5 } = .ok v { m with steps := 6 } := step_eq_ok.mpr ⟨8, by decide +kernel +zetaReduce⟩
  have hpasses : Passes t m [(t₁, { m with steps := 5 }), (t, m)] [v] { m with steps := 6 } :=
    .before ((Stands.start.step hrun).step hrule)
  obtain ⟨hstates, hpath, -⟩ := only_inserted_sequences_are_members hread hinputs (show Machine.start {} = .ok m from rfl)
    (show Execution.supply [] m = .ok () m from rfl)
  obtain ⟨hvisited, horigin⟩ := hpath _ _ _ hpasses
  have hoccurs : ∀ elements : List Term, Term.set elements ∈ [.set [.int 3], .set [pair]] →
      Occurs (.set elements) [v] .empty :=
    fun elements hmem => .inl ⟨v, by simp, mem_parts_data.mpr (.inr ⟨_, hmem, mem_parts_self _⟩)⟩
  refine ⟨hread, hpasses, ?_, horigin [pair] (hoccurs _ (by simp)) pair (by simp) rfl, fun m' e hinserted => ?_⟩
  · exact ((hstates _ _ hvisited).2 [.int 3] (hoccurs _ (by simp))).2 (by simp [isSequence])
  · obtain ⟨params, elements, m₁, m₂, henters, -⟩ := hinserted
    cases (enters_of_rule rfl rfl henters).1

/-- `set-insert((1,2),set-empty)` comes to a set with one element, which is a sequence. It spreads two terms, taken apart and
put together it is another set, and what is chosen from it is not its member. -/
theorem inserted_sequence_is_a_member :
    let pair : Term := .seq [.int 1, .int 2]
    let t : Term := .node (.collection .insert) [pair, .node (.collection .empty) []]
    let m : Machine := ⟨{}, .empty, .ofSeed 0x5EED, 0⟩
    readTerm "set-insert((1,2),set-empty)" = .ok t ∧ Machine.start {} = .ok m ∧
      (∃ taken m', Passes t m taken [.set [pair]] m') ∧ pair.isSequence = true ∧
      (∃ m', run (.node (.collection .elements) [.set [pair]]) m = .ok (.spread [.int 1, .int 2]) m') ∧
      (∃ m', run (.node (.collection .size) [.set [pair]]) m = .ok (.int 1) m') ∧
      (∃ m', run (.node (.collection .set) [.seq [.node (.collection .elements) [.set [pair]]]]) m =
        .ok (.set [.int 1, .int 2]) m') ∧
      ∃ e m', run (.node (.collection .someElement) [.set [pair]]) m = .ok e m' ∧ e ∉ [pair] := by
  intro pair t m
  have hread : readTerm "set-insert((1,2),set-empty)" = .ok t := by decide +kernel +zetaReduce
  have hargument : step t m = .ok (.node (.collection .insert) [pair, .set []]) { m with steps := 2 } :=
    step_eq_ok.mpr ⟨4, rfl⟩
  have hinsert : step (.node (.collection .insert) [pair, .set []]) { m with steps := 2 } =
      .ok (.set [pair]) { m with steps := 3 } := step_eq_ok.mpr ⟨4, rfl⟩
  have hpasses : ∃ taken m', Passes t m taken [.set [pair]] m' :=
    ⟨_, _, .before ((Stands.start.step hargument).step hinsert)⟩
  have hspread : ∃ m', run (.node (.collection .elements) [.set [pair]]) m = .ok (.spread [.int 1, .int 2]) m' :=
    ⟨_, run_eq_ok.mpr ⟨4, rfl⟩⟩
  have hsize : ∃ m', run (.node (.collection .size) [.set [pair]]) m = .ok (.int 1) m' :=
    ⟨_, run_eq_ok.mpr ⟨4, rfl⟩⟩
  have hset : ∃ m', run (.node (.collection .set) [.seq [.node (.collection .elements) [.set [pair]]]]) m =
      .ok (.set [.int 1, .int 2]) m' := ⟨_, run_eq_ok.mpr ⟨6, rfl⟩⟩
  have hchosen : run (.node (.collection .someElement) [.set [pair]]) m =
      .ok (.int 1) { m with choices := m.choices.next.2, steps := 1 } := run_eq_ok.mpr ⟨4, by decide +kernel +zetaReduce⟩
  exact ⟨hread, rfl, hpasses, rfl, hspread, hsize, hset, .int 1, _, hchosen, by simp [pair]⟩

end TermMachine
