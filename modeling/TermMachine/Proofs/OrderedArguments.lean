import TermMachine.Proofs.AtomicRuns
import TermMachine.Proofs.EvaluationOrder

/-!
# Operators that evaluate in order, and sequences

`left-to-right` and `sequential` take the steps of their arguments themselves: each step of the operator is a step of one
argument, which stands among the others with what it has become. A sequence takes a step of its first element that can take
one. It goes its own way only where an element is stuck, and there the operators are stuck too. So as long as the operator
goes on, both step the same element, and the rows that are left stay the same: for `sequential`, behind the statements that
have come to null, which it drops and the sequence keeps.

What differs is the count, since the operator itself is counted at every step. Without a step limit nothing depends on it
(`Uncounted`).

Proved:
* `step_group`: a step of an element after values is a step of the sequence.
* `step_leftToRight`, `step_sequential`: what a step of the operators can be.
* `run_of_leftToRight`, `run_of_sequential`: the sequence goes with the operator, step by step to the end.
* `ordered_operators_run_like_sequences`: both operators come to what the sequence comes to.
-/

namespace TermMachine

open Term Eval Engine Rules

variable {m m' : Machine}

/-! ## The sequence -/

/-- While those before it are values, a step of an element is a step of the sequence. -/
theorem step_group {before after : List Term} {u next : Term} (hbefore : allValues before = true)
    (hu : u.isValue = false) (h : step u m = .ok next m') :
    step (.seq (before ++ u :: after)) m = .ok (.seq (flatten (before ++ next :: after))) m' := by
  obtain ⟨fuel, hfuel⟩ := step_eq_ok.mp h
  have hopen : allValues (before ++ u :: after) = false := by simp [allValues_eq_all, hu]
  refine step_eq_ok.mpr ⟨fuel, ?_⟩
  show stepWith (stepNode fuel) _ m = _
  rw [stepWith, if_neg (by simp [hopen]), bind_of_ok (stepFirst_of_step hbefore hu hfuel)]
  rfl

/-- The sequence goes on with its run after such a step. -/
theorem run_group {before after : List Term} {u next w : Term} {m₁ : Machine} (hstall : m.config.stallDetection = false)
    (hbefore : allValues before = true) (hu : u.isValue = false) (h : step u m = .ok next m₁)
    (hrun : run (.seq (flatten (before ++ next :: after))) m₁ = .ok w m') :
    run (.seq (before ++ u :: after)) m = .ok w m' := by
  have hopen : (Term.seq (before ++ u :: after)).isValue = false := by simp [isValue, allValues_eq_all, hu]
  exact run_of_step hstall hopen (step_group hbefore hu h) hrun

/-- Steps to a value make a run. -/
theorem Trace.run {t v : Term} (h : Trace t m v m') (hstall : m.config.stallDetection = false) :
    TermMachine.run t m = .ok v m' := by
  induction h with
  | done hv => exact run_of_isValue hv _
  | step hv hstep _ ih => exact run_of_step hstall hv hstep (ih (by rw [config_of_step hstep, hstall]))

/-! ## `left-to-right` -/

/-- The first argument that is not a value stands behind values. -/
theorem firstReducible?_eq_some {items : List Term} {index : Nat} (h : firstReducible? items = some index) :
    ∃ before u after, items = before ++ u :: after ∧ before.length = index ∧ allValues before = true ∧
      u.isValue = false := by
  obtain ⟨hlt, hu, hbefore⟩ := List.findIdx?_eq_some_iff_getElem.mp h
  refine ⟨items.take index, items[index], items.drop (index + 1), ?_, by simp; omega, ?_, by simpa [isReducible] using hu⟩
  · rw [List.getElem_cons_drop, List.take_append_drop]
  · rw [allValues_eq_all, List.all_eq_true]
    intro v hv
    obtain ⟨i, hi, rfl⟩ := List.mem_take_iff_getElem.mp hv
    simpa [isReducible] using hbefore i (by omega)

section
variable (hm : m.config.stepLimit = none)
include hm

/-- All arguments are values and given back, or the first that is not takes a step. -/
theorem step_leftToRight {items : List Term} {t : Term} (h : step (.node (.flow .leftToRight) [.seq items]) m = .ok t m') :
    (allValues items = true ∧ t = ofSequence items ∧ m' = m.after 1) ∨
    ∃ before u after next, items = before ++ u :: after ∧ allValues before = true ∧ u.isValue = false ∧
      step u (m.after 1) = .ok next m' ∧ t = .node (.flow .leftToRight) [.seq (flatten (before ++ next :: after))] := by
  obtain ⟨fuel, hfuel⟩ := step_eq_ok.mp h
  cases fuel with
  | zero => cases hfuel
  | succ fuel =>
    rw [inOrder_leftToRight.stepFor_eq fuel hm, stepOne_seq] at hfuel
    rcases hindex : firstReducible? items with _ | index
    · rw [hindex] at hfuel
      cases hfuel
      exact .inl ⟨inOrder_leftToRight.exhausts items hindex, rfl, rfl⟩
    · obtain ⟨before, u, after, rfl, rfl, hbefore, hu⟩ := firstReducible?_eq_some hindex
      rw [hindex] at hfuel
      obtain ⟨next, m₁, hstep, hm⟩ := Eval.bind_eq_ok.mp hfuel
      cases hm
      rw [Sequence.get_of_getElem? (t := u) (by simp)] at hstep
      refine .inr ⟨before, u, after, next, rfl, hbefore, hu, step_eq_ok.mpr ⟨fuel, hstep⟩, ?_⟩
      simp [Sequence.replace]

/-- The run of `left-to-right`, after more steps were counted, has the run of the sequence beside it. -/
theorem run_of_leftToRight {items : List Term} {w : Term} {k : Nat} (hstall : m.config.stallDetection = false)
    (h : Trace (.node (.flow .leftToRight) [.seq items]) (m.after k) w m') :
    ∃ vs m₁ n, run (.seq items) m = .ok (.seq vs) m₁ ∧ w = ofSequence vs ∧ m' = m₁.after n := by
  generalize ht : Term.node (.flow .leftToRight) [.seq items] = t at h
  generalize hcount : m.after k = M at h
  induction h generalizing items m k with
  | done hv =>
    rw [← ht] at hv
    cases hv
  | step _ hstep hrest ih =>
    subst ht hcount
    rcases step_leftToRight (m := m.after k) hm hstep with
      ⟨hvalues, rfl, rfl⟩ | ⟨before, u, after, next, rfl, hbefore, hu, hu', rfl⟩
    · have hdone : (ofSequence items).isValue = true := by rw [isValue_ofSequence, hvalues]
      have hgroup : (Term.seq items).isValue = true := by rw [isValue, hvalues]
      cases hrest with
      | done => exact ⟨items, m, k + 1, run_of_isValue hgroup m, rfl, m.after_after k 1⟩
      | step hv _ _ =>
        rw [hdone] at hv
        cases hv
    · rw [Machine.after_after] at hu'
      obtain ⟨m₁, hstep₁, rfl⟩ := (step_uncounted u).ok_of_after hm hu'
      have hconfig := config_of_step hstep₁
      obtain ⟨vs, m₂, n, hrun, rfl, rfl⟩ := ih (by rw [hconfig, hm]) (by rw [hconfig, hstall]) rfl rfl
      exact ⟨vs, m₂, n, run_group hstall hbefore hu hstep₁ hrun, rfl, rfl⟩

end

/-! ## `sequential` -/

theorem allValues_nulls {nulls : List Term} (h : ∀ u ∈ nulls, u = .null) : allValues nulls = true := by
  rw [allValues_eq_all, List.all_eq_true]
  intro u hu
  rw [h u hu]
  rfl

section
variable (hm : m.config.stepLimit = none)
include hm

/-- No statement is left that is not null, or a null is dropped, or the first statement takes a step. -/
theorem step_sequential {statements : List Term} {y t : Term}
    (h : step (.node (.flow .sequential) [.seq statements, y]) m = .ok t m') :
    ((∀ u ∈ statements, u = .null) ∧ t = y ∧ m' = m.after 1) ∨
    (∃ rest, statements = .null :: rest ∧ t = .node (.flow .sequential) [.seq rest, y] ∧ m' = m.after 1) ∨
    ∃ first rest next, statements = first :: rest ∧ first.isValue = false ∧ step first (m.after 1) = .ok next m' ∧
      t = .node (.flow .sequential) [.seq (flatten (next :: rest)), y] := by
  obtain ⟨fuel, hfuel⟩ := step_eq_ok.mp h
  cases fuel with
  | zero => cases hfuel
  | succ fuel =>
    have hrule : sequential (stepFor fuel) [.seq statements, y] (m.after 1) = .ok t m' :=
      (stepNode_of_pending_nil rfl hm).symm.trans hfuel
    rcases sequential_cases hrule with ⟨_, hr⟩ | ⟨items, last, hitems, hlast, hcases⟩
    · cases hr
    cases hitems
    cases hlast
    rcases hcases with ⟨rfl, hr⟩ | ⟨first, rest, rfl, ⟨hv, hr⟩ | ⟨rfl, rfl, hr⟩ | ⟨rfl, -, hr⟩⟩
    · cases hr
      exact .inl ⟨by simp, rfl, rfl⟩
    · obtain ⟨next, m₁, hstep, hr⟩ := Eval.bind_eq_ok.mp hr.symm
      cases hr
      exact .inr (.inr ⟨first, rest, next, rfl, hv, step_eq_ok.mpr ⟨fuel, hstep⟩, by simp [Sequence.replace]⟩)
    · cases hr
      exact .inl ⟨by simp, rfl, rfl⟩
    · cases hr
      exact .inr (.inl ⟨rest, rfl, rfl, rfl⟩)

/-- The run of `sequential` has the run of the sequence beside it, in which the statements that are done stand in front,
and then that of the last argument. -/
theorem run_of_sequential {nulls statements : List Term} {y w : Term} {k : Nat} (hstall : m.config.stallDetection = false)
    (hnulls : ∀ u ∈ nulls, u = .null) (h : Trace (.node (.flow .sequential) [.seq statements, y]) (m.after k) w m') :
    ∃ vs m₁ m₂ n, run (.seq (nulls ++ statements)) m = .ok (.seq vs) m₁ ∧ (∀ v ∈ vs, v = .null) ∧
      run y m₁ = .ok w m₂ ∧ m' = m₂.after n := by
  generalize ht : Term.node (.flow .sequential) [.seq statements, y] = t at h
  generalize hcount : m.after k = M at h
  induction h generalizing nulls statements m k with
  | done hv =>
    rw [← ht] at hv
    cases hv
  | step _ hstep hrest ih =>
    subst ht hcount
    rcases step_sequential (m := m.after k) hm hstep with
      ⟨hdone, rfl, rfl⟩ | ⟨rest, rfl, rfl, rfl⟩ | ⟨first, rest, next, rfl, hfirst, hstep', rfl⟩
    · have hall : ∀ u ∈ nulls ++ statements, u = .null := by
        intro u hu
        rcases List.mem_append.mp hu with hu | hu
        · exact hnulls u hu
        · exact hdone u hu
      have hgroup : (Term.seq (nulls ++ statements)).isValue = true := by rw [isValue, allValues_nulls hall]
      rw [Machine.after_after] at hrest
      obtain ⟨m₂, hrun, rfl⟩ := (run_uncounted _).ok_of_after hm (hrest.run hstall)
      exact ⟨_, m, m₂, k + 1, run_of_isValue hgroup m, hall, hrun, rfl⟩
    · -- what the operator drops, the sequence keeps in front
      have hmore : ∀ u ∈ nulls ++ [Term.null], u = .null := by
        intro u hu
        rcases List.mem_append.mp hu with hu | hu
        · exact hnulls u hu
        · exact List.mem_singleton.mp hu
      have hnext := ih (k := k + 1) hm hstall hmore rfl (m.after_after k 1).symm
      rwa [List.append_assoc] at hnext
    · rw [Machine.after_after] at hstep'
      obtain ⟨m₁, hstep₁, rfl⟩ := (step_uncounted first).ok_of_after hm hstep'
      have hconfig := config_of_step hstep₁
      obtain ⟨vs, m₂, m₃, n, hrun, hvs, hlast, rfl⟩ :=
        ih (by rw [hconfig, hm]) (by rw [hconfig, hstall]) hnulls rfl rfl
      have hjoined : flatten (nulls ++ next :: rest) = nulls ++ flatten (next :: rest) := by
        rw [flatten_append, flatten_of_no_sequence fun u hu => by rw [hnulls u hu]; rfl]
      exact ⟨vs, m₂, m₃, n, run_group hstall (allValues_nulls hnulls) hfirst hstep₁ (hjoined ▸ hrun), hvs, hlast, rfl⟩

end

/-- Without a step limit and without stall detection, a run of `left-to-right` that ends is beside a run of the sequence of its
arguments that ends with the same values, and with the same entities and choices. A run of `sequential` that ends is
beside a run of the sequence of its statements to nothing but nulls, followed by a run of its last argument that ends so. -/
theorem ordered_operators_run_like_sequences (hm : m.config.stepLimit = none) (hstall : m.config.stallDetection = false)
    (es : List Term) :
    (∀ w m', run (.node (.flow .leftToRight) [.seq es]) m = .ok w m' → ∃ vs m₁, run (.seq es) m = .ok (.seq vs) m₁ ∧
      w = ofSequence vs ∧ m₁.entities = m'.entities ∧ m₁.choices = m'.choices) ∧
    (∀ y w m', run (.node (.flow .sequential) [.seq es, y]) m = .ok w m' → ∃ vs m₁ m₂,
      run (.seq es) m = .ok (.seq vs) m₁ ∧ (∀ v ∈ vs, v = .null) ∧
      run y m₁ = .ok w m₂ ∧ m₂.entities = m'.entities ∧ m₂.choices = m'.choices) := by
  constructor
  · intro w m' h
    obtain ⟨vs, m₁, n, hrun, rfl, rfl⟩ := run_of_leftToRight (k := 0) hm hstall (trace_of_run h)
    exact ⟨vs, m₁, hrun, rfl, rfl, rfl⟩
  · intro y w m' h
    have hnulls : ∀ u ∈ ([] : List Term), u = .null := by simp
    obtain ⟨vs, m₁, m₂, n, hrun, hvs, hlast, rfl⟩ := run_of_sequential (k := 0) hm hstall hnulls (trace_of_run h)
    exact ⟨vs, m₁, m₂, hrun, hvs, hlast, rfl, rfl⟩

/-- Arguments of which the first is spliced, and statements of which the first comes to two nulls. The last argument reads
what was not read before. -/
theorem ordered_operators_run_like_sequences_spliced :
    let read : Term := .node (.effect .read) []
    let print : Int → Term := fun n => .node (.effect .print) [.seq [.int n]]
    let es : List Term := [.node (.composite .tupleElements) [.data tupleName [.int 5, .int 6]], read]
    let statements : List Term := [.node (.flow .leftToRight) [.seq [print 1, print 2]], print 3]
    let m : Machine := ⟨{ stepLimit := none, stallDetection := false }, ⟨[(Entity.standardIn, .seq [.int 7])]⟩, ⟨0⟩, 0⟩
    (∃ m' vs m₁, run (.node (.flow .leftToRight) [.seq es]) m = .ok (.seq [.int 5, .int 6, .int 7]) m' ∧
      run (.seq es) m = .ok (.seq vs) m₁ ∧ .seq [.int 5, .int 6, .int 7] = ofSequence vs ∧ m₁.entities = m'.entities) ∧
    ∃ m' vs m₁ m₂, run (.node (.flow .sequential) [.seq statements, read]) m = .ok (.int 7) m' ∧
      m'.entities.stream Entity.standardOut = [.int 1, .int 2, .int 3] ∧
      run (.seq statements) m = .ok (.seq vs) m₁ ∧ (∀ v ∈ vs, v = .null) ∧
      run read m₁ = .ok (.int 7) m₂ ∧ m₂.entities = m'.entities := by
  intro read print es statements m
  have hleft : ∃ m', run (.node (.flow .leftToRight) [.seq es]) m = .ok (.seq [.int 5, .int 6, .int 7]) m' :=
    ⟨_, run_eq_ok.mpr ⟨6, rfl⟩⟩
  have hsequential : run (.node (.flow .sequential) [.seq statements, read]) m = .ok (.int 7) { m with
      entities := ⟨[(Entity.standardIn, .seq []), (Entity.standardOut, .seq [.int 1, .int 2, .int 3])]⟩, steps := 14 } :=
    run_eq_ok.mpr ⟨12, by decide +kernel +zetaReduce⟩
  obtain ⟨m', hleft⟩ := hleft
  have hes := ordered_operators_run_like_sequences (m := m) rfl rfl es
  have hstatements := ordered_operators_run_like_sequences (m := m) rfl rfl statements
  obtain ⟨vs, m₁, hrun, hvs, hentities, -⟩ := hes.1 _ _ hleft
  obtain ⟨ws, m₂, m₃, hrun', hws, hread, hentities', -⟩ := hstatements.2 _ _ _ hsequential
  exact ⟨⟨m', vs, m₁, hleft, hrun, hvs, hentities⟩, _, ws, m₂, m₃, hsequential, rfl, hrun', hws, hread, hentities'⟩

end TermMachine
