import TermMachine.Proofs.SequenceRuns
import TermMachine.Proofs.Variables

/-!
# Groups in the place of one argument

A fixed parameter takes one argument, and that argument may be a group of terms. If the parameter is eager, the group is run
like any other argument and its result takes its place. The result of a group is a group: however many values its terms
come to, they are in a sequence, and the sequence is what the operator is given. In particular a group that comes to one
value does not stand for that value there, as it does at the end of an execution or in the arguments of `left-to-right`.

Most operators ask for a value of some kind, and no kind but that of sequences has sequences in it. A few take what they
are given, whatever it is (`Operator.takesAny`): with one of these the sequence goes on in the place of its value, and all
others are stuck.

Proved:
* `pending_first`: which parameter is run first.
* `Trace.seq_is_seq`: a group runs to a group.
* `not_fired_over_group`: the rules that ask for a kind of value do not apply to sequences.
* `groups_stay_groups`: what is in the place of a group after the step that reduces it.
* `group_of_one_is_refused`: a group that comes to one integer, in the place of an integer.
-/

namespace TermMachine

open Term Eval Rules Engine

variable {m m' : Machine} {op : Operator} {params : List Term} {index : Nat}

/-! ## Running a parameter -/

/-- If the eager parameters before it are values, a parameter that is not is the first to be run. -/
theorem pending_first {p : Param} {t : Term} (hparam : op.params[index]? = some p) (heager : p.isEager = true)
    (ht : params[index]? = some t) (hv : t.isValue = false) (hbefore : ready op (params.take index) = true) :
    ∃ rest, pending op params = (index, t) :: rest := by
  have hentry : (op.params.zip params).zipIdx[index]? = some ((p, t), index) := by
    have hzip : (op.params.zip params)[index]? = some (p, t) := List.getElem?_zip_eq_some.mpr ⟨hparam, ht⟩
    simp [List.getElem?_zipIdx, hzip]
  obtain ⟨hlt, hget⟩ := List.getElem?_eq_some_iff.mp hentry
  have hsplit : (op.params.zip params).zipIdx = (op.params.zip params).zipIdx.take index ++
      ((p, t), index) :: (op.params.zip params).zipIdx.drop (index + 1) := by
    rw [← hget, List.getElem_cons_drop, List.take_append_drop]
  refine ⟨_, List.filterMap_eq_cons_iff.mpr ⟨_, _, _, hsplit, ?_, by simp [heager, isReducible, hv], rfl⟩⟩
  -- none of those before is pending
  rintro ⟨⟨q, u⟩, i⟩ hmem
  obtain ⟨k, hk⟩ := List.mem_iff_getElem?.mp hmem
  rw [List.getElem?_take] at hk
  split at hk
  · rename_i hlt
    simp only [List.getElem?_zipIdx, Option.map_eq_some_iff, Prod.mk.injEq, Prod.exists] at hk
    obtain ⟨q, u, hzip, ⟨rfl, rfl⟩, -⟩ := hk
    obtain ⟨hq, hu⟩ := List.getElem?_zip_eq_some.mp hzip
    have hearlier : (q, u) ∈ op.params.zip (params.take index) := by
      refine List.mem_iff_getElem?.mpr ⟨k, List.getElem?_zip_eq_some.mpr ⟨hq, ?_⟩⟩
      rw [List.getElem?_take, if_pos hlt]
      exact hu
    have hready := List.all_eq_true.mp hbefore _ hearlier
    revert hready
    cases q.isEager <;> cases hvalue : u.isValue <;> simp [isReducible, hvalue]
  · cases hk

/-- A parameter that is run first is replaced by its value. -/
theorem step_of_first_pending {t value : Term} {rest : List (Nat × Term)} (hpending : pending op params = (index, t) :: rest)
    (hleft : m.left ≠ some 0) (hvalue : ∀ items, value ≠ .spread items)
    (hrun : run t { m with steps := m.steps + 1 } = .ok value m') :
    step (.node op params) m = .ok (.node op (params.set index value)) m' := by
  obtain ⟨fuel, hfuel⟩ := run_eq_ok.mp hrun
  have hreplace : replaceParam op params index value m' = .ok (.node op (params.set index value)) m' := by
    cases value with
    | spread items => exact absurd rfl (hvalue items)
    | _ => rfl
  exact step_eq_ok.mpr ⟨fuel + 1, stepNode_of_first_pending hpending (charge_of_left hleft) hfuel hreplace⟩

/-! ## The value of a group -/

theorem step_seq_is_seq {es : List Term} {t : Term} (h : step (.seq es) m = .ok t m') : ∃ items, t = .seq items := by
  obtain ⟨fuel, hfuel⟩ := step_eq_ok.mp h
  rw [stepFor, stepWith] at hfuel
  split at hfuel
  · cases hfuel
    exact ⟨es, rfl⟩
  · obtain ⟨items, _, -, hm⟩ := Eval.bind_eq_ok.mp hfuel
    cases hm
    exact ⟨flatten items, rfl⟩

theorem Trace.seq_is_seq {es : List Term} {v : Term} (h : Trace (.seq es) m v m') : ∃ vs, v = .seq vs := by
  generalize ht : Term.seq es = t at h
  induction h generalizing es with
  | done => exact ⟨es, ht.symm⟩
  | step _ hstep _ ih =>
    subst ht
    obtain ⟨items, rfl⟩ := step_seq_is_seq hstep
    exact ih rfl

/-- A step that reduces a parameter has run it, and put the value in its place. -/
theorem step_reduces {t : Term} (hready : ready op params = false) (h : step (.node op params) m = .ok t m') :
    ∃ i argument value m₁, (i, argument) ∈ pending op params ∧ m₁.entities = m.entities ∧
      run argument m₁ = .ok value m' ∧ ((∀ items, value ≠ .spread items) → t = .node op (params.set i value)) := by
  obtain ⟨fuel, hfuel⟩ := step_eq_ok.mp h
  cases fuel with
  | zero => cases hfuel
  | succ fuel =>
    rw [stepFor, stepWith] at hfuel
    rcases stepNode_ok hfuel with ⟨i, argument, value, m₁, m₂, hmem, hm₁, hrun, hreplace⟩ | ⟨hpending, -⟩
    · obtain ⟨rfl, ht⟩ := replaceParam_ok hreplace
      refine ⟨i, argument, value, m₁, hmem, hm₁, run_eq_ok.mpr ⟨fuel, hrun⟩, fun hvalue => ?_⟩
      rcases ht with ht | ⟨items, rfl, -⟩
      · exact ht
      · exact absurd rfl (hvalue items)
    · rw [pending_eq_nil.mp hpending] at hready
      cases hready

/-! ## Rules that ask for a kind of value -/

/-- The fixed parameters that an operator takes as they are, whatever kind of value they hold. -/
def Operator.takesAny : Operator → Nat → Bool
  | .effect .yieldOnValue, 0 | .effect .give, 0 | .effect .assign, 1 => true
  | .logic .isEqual, _ | .logic .isInType, 0 => true
  | .mapping .lookup, 1 | .collection .isIn, 0 | .collection .insert, 0 => true
  | _, _ => false

/-- Only the first two parameters of an operator can take one argument and evaluate it. -/
theorem Operator.eager_cases (h : op.params[index]? = some .eager) : index = 0 ∨ index = 1 := by
  have hlt := (List.getElem?_eq_some_iff.mp h).1
  have hlength : op.params.length ≤ 3 := by
    cases op with
    | _ f => cases f <;> decide
  have hthird : op.params[2]? ≠ some .eager := by
    cases op with
    | _ f => cases f <;> decide
  have hindex : index ≠ 2 := by
    rintro rfl
    exact hthird h
  omega

namespace Rules

variable {α β : Type}

def Refused (r : Result α) : Prop := ∀ a, r ≠ .ok a

theorem Refused.bind {r : Result α} {f : α → Result β} (h : Refused r) : Refused (r >>= f) := by
  intro b hb
  obtain ⟨a, ha, -⟩ := Rules.bind_eq_ok.mp hb
  exact h a ha

theorem Refused.after {r : Result α} {f : α → Result β} (h : ∀ a, Refused (f a)) : Refused (r >>= f) := by
  intro b hb
  obtain ⟨a, -, hb⟩ := Rules.bind_eq_ok.mp hb
  exact h a b hb

theorem refused_expect {expected : Expected} {view : Term → Option α} {t : Term} (h : view t = none) :
    Refused (expect expected view t) := by
  intro a ha
  rw [expect_eq_ok, h] at ha
  cases ha

section
variable {vs : List Term} (hvs : params[index]? = some (.seq vs))
include hvs

theorem refused_arg {f : Term → Result α} (h : Refused (f (.seq vs))) : Refused (arg params index >>= f) := by
  intro a ha
  obtain ⟨t, ht, ha⟩ := Rules.bind_eq_ok.mp ha
  cases (arg_eq_ok.mp ht).symm.trans hvs
  exact h a ha

theorem refused_integerArg : Refused (integerArg params index) := refused_arg hvs (refused_expect rfl)

theorem refused_booleanArg : Refused (booleanArg params index) := refused_arg hvs (refused_expect rfl)

theorem refused_logic {f : Operator.Logic} (hparam : (Operator.logic f).params[index]? = some .eager)
    (hkind : (Operator.logic f).takesAny index = false) : Refused (logic f params) := by
  rcases Operator.eager_cases hparam with rfl | rfl
  · cases f with
    | not | implies | exclusiveOr => exact .bind (refused_booleanArg hvs)
    | isEqual | isInType => cases hkind
    | and | or => cases hparam
  · cases f with
    | implies | exclusiveOr => exact .after fun _ => .bind (refused_booleanArg hvs)
    | isInType => exact .after fun _ => refused_arg hvs (.bind (refused_expect rfl))
    | isEqual => cases hkind
    | not | and | or => cases hparam

theorem refused_arithmetic {f : Operator.Arithmetic} (hparam : (Operator.arithmetic f).params[index]? = some .eager) :
    Refused (arithmetic f params) := by
  rcases Operator.eager_cases hparam with rfl | rfl
  · cases f with
    | add | multiply => cases hparam
    | absoluteValue | negate => exact .bind (refused_integerArg hvs)
    | _ => exact .bind (.bind (refused_integerArg hvs))
  · cases f with
    | add | multiply | absoluteValue | negate | successor | predecessor => cases hparam
    | _ => exact .bind (.after fun _ => .bind (refused_integerArg hvs))

theorem refused_composite {f : Operator.Composite} (hparam : (Operator.composite f).params[index]? = some .eager) :
    Refused (composite f params) := by
  rcases Operator.eager_cases hparam with rfl | rfl
  · cases f with
    | index => exact .bind (refused_integerArg hvs)
    | tupleElements | listElements | vectorElements | listHead | listTail | datatypeValue =>
      exact refused_arg hvs (.bind (refused_expect rfl))
    | _ => cases hparam
  · cases f <;> cases hparam

theorem refused_mapping {f : Operator.Mapping} (hparam : (Operator.mapping f).params[index]? = some .eager)
    (hkind : (Operator.mapping f).takesAny index = false) : Refused (mapping f params) := by
  rcases Operator.eager_cases hparam with rfl | rfl
  · cases f with
    | lookup | domain | elements | delete => exact refused_arg hvs (.bind (refused_expect rfl))
    | _ => cases hparam
  · cases f with
    | lookup => cases hkind
    | delete => exact .after fun _ => .after fun _ => refused_arg hvs (.bind (refused_expect rfl))
    | _ => cases hparam

theorem refused_collection {f : Operator.Collection} {choices : ChoiceStream}
    (hparam : (Operator.collection f).params[index]? = some .eager)
    (hkind : (Operator.collection f).takesAny index = false) : Refused (collection f params choices) := by
  rcases Operator.eager_cases hparam with rfl | rfl
  · cases f with
    | elements | difference | size | someElement => exact refused_arg hvs (.bind (refused_expect rfl))
    | elementNotIn => exact refused_arg hvs (.after fun _ => .after fun _ => .bind (refused_expect rfl))
    | isIn | insert => cases hkind
    | _ => cases hparam
  · cases f with
    | isIn | insert | elementNotIn => exact .after fun _ => refused_arg hvs (.bind (refused_expect rfl))
    | difference => exact .after fun _ => .after fun _ => refused_arg hvs (.bind (refused_expect rfl))
    | _ => cases hparam

end

end Rules

section
variable {vs : List Term} (hparam : op.params[index]? = some .eager) (hkind : op.takesAny index = false)
  (hvs : params[index]? = some (.seq vs))
include hparam hkind hvs

/-- A rule that asks for a kind of value does not apply to a sequence. -/
theorem not_fired_over_group {t : Term} (h : Fired params m op t m') : False := by
  cases h with
  | effect _ => rcases Operator.eager_cases hparam with rfl | rfl <;> cases hparam
  | choice _ _ => rcases Operator.eager_cases hparam with rfl | rfl <;> cases hparam
  | ifTrueElse hb _ =>
    rcases Operator.eager_cases hparam with rfl | rfl
    · cases hb.symm.trans hvs
    · cases hparam
  | entities heffect =>
    rcases Operator.eager_cases hparam with rfl | rfl
    · cases heffect with
      | yieldOnValue _ => cases hkind
      | useAtomNotIn hset => cases hset.symm.trans hvs
      | allocateVariable hty _ => cases hty.symm.trans hvs
      | assign hstore =>
        obtain ⟨_, _, _, _, hx, -⟩ := Discipline.assignment_eq_ok hstore
        cases hx.symm.trans hvs
      | assigned hcontents =>
        obtain ⟨_, _, _, hx, -⟩ := Discipline.contents_eq_ok hcontents
        cases hx.symm.trans hvs
      | _ => cases hparam
    · cases heffect with
      | assign _ => cases hkind
      | _ => cases hparam
  | logic hrule => exact refused_logic hvs hparam hkind _ hrule
  | arithmetic hrule => exact refused_arithmetic hvs hparam _ hrule
  | composite hrule => exact refused_composite hvs hparam _ hrule
  | mapping hrule => exact refused_mapping hvs hparam hkind _ hrule
  | collection hrule => exact refused_collection hvs hparam hkind _ hrule

omit hvs in
/-- The operators that step an argument ask for no kind of value. -/
theorem not_stepsArgument : stepsArgument op = false := by
  rcases Operator.eager_cases hparam with rfl | rfl
  · unfold stepsArgument
    split
    · cases hparam
    · cases hparam
    · cases hparam
    · cases hkind
    · cases hparam
    · rfl
  · unfold stepsArgument
    split
    · cases hparam
    · cases hparam
    · cases hparam
    · cases hparam
    · cases hparam
    · rfl

/-- Over a sequence in the place of such a value, an operator is stuck. -/
theorem step_over_group (hready : ready op params = true) (hleft : m.left ≠ some 0) :
    ∃ cause m', step (.node op params) m = .error (.stuck cause) m' ∧ m'.entities = m.entities := by
  have hfor := stepFor_of_nothing_pending (pending_eq_nil.mpr hready) hleft 0
  rcases applyRule_cases (not_stepsArgument hparam hkind) hfor.symm with ⟨reason, hr⟩ | ⟨_, _, hfired, -⟩
  · exact ⟨_, _, (step_eq_iff (by trivial)).mpr ⟨1, hr⟩, rfl⟩
  · exact (not_fired_over_group hparam hkind hvs hfired).elim

end

/-! ## Groups -/

/-- A group of terms in the place of an argument that is evaluated. Whichever parameter a step has run, if it was a group then
the sequence of all its values is in its place afterwards; and if those before it are values already, the group is what the
next step runs. So one value is in a sequence too, and all operators but those that take any value are stuck over it. -/
theorem groups_stay_groups {es : List Term} (hparam : op.params[index]? = some .eager)
    (hslot : params[index]? = some (.seq es)) (hes : allValues es = false) (m : Machine) :
    (∀ t m', step (.node op params) m = .ok t m' → ∃ i argument value m₁, (i, argument) ∈ pending op params ∧
      m₁.entities = m.entities ∧ run argument m₁ = .ok value m' ∧
      ∀ terms, argument = .seq terms → ∃ vs, value = .seq vs ∧ t = .node op (params.set i (.seq vs))) ∧
    (ready op (params.take index) = true → m.left ≠ some 0 → ∀ vs m',
      run (.seq es) { m with steps := m.steps + 1 } = .ok (.seq vs) m' →
        step (.node op params) m = .ok (.node op (params.set index (.seq vs))) m') ∧
    (op.takesAny index = false → ∀ vs m₁, ready op (params.set index (.seq vs)) = true → m₁.left ≠ some 0 →
      ∃ cause m₂, step (.node op (params.set index (.seq vs))) m₁ = .error (.stuck cause) m₂ ∧
        m₂.entities = m₁.entities) := by
  have hv : (Term.seq es).isValue = false := by rw [isValue, hes]
  have hindex : index < params.length := (List.getElem?_eq_some_iff.mp hslot).1
  refine ⟨?_, ?_, ?_⟩
  · intro t m' h
    have hready : ready op params = false := by
      rcases hr : ready op params with _ | _
      · rfl
      · have hvalue := isValue_of_pending_nil (pending_eq_nil.mpr hr) hparam rfl hslot
        rw [hv] at hvalue
        cases hvalue
    obtain ⟨i, argument, value, m₁, hmem, hm₁, hrun, ht⟩ := step_reduces hready h
    refine ⟨i, argument, value, m₁, hmem, hm₁, hrun, ?_⟩
    rintro terms rfl
    obtain ⟨vs, rfl⟩ := (trace_of_run hrun).seq_is_seq
    exact ⟨vs, rfl, ht fun items => by simp⟩
  · intro hbefore hleft vs m' hrun
    obtain ⟨rest, hpending⟩ := pending_first hparam rfl hslot hv hbefore
    exact step_of_first_pending hpending hleft (fun items => by simp) hrun
  · intro hkind vs m₁ hready hleft
    exact step_over_group hparam hkind (List.getElem?_set_self hindex) hready hleft

/-- The group of a number and of nothing comes to one number. The step leaves it in a sequence, and negation is stuck. -/
theorem groups_stay_groups_negate :
    let es : List Term := [.int 1, .node (.flow .leftToRight) [.seq []]]
    let m : Machine := ⟨{}, .empty, ⟨0⟩, 0⟩
    ∃ m₁, run (.seq es) { m with steps := 1 } = .ok (.seq [.int 1]) m₁ ∧
      step (.node (.arithmetic .negate) [.seq es]) m = .ok (.node (.arithmetic .negate) [.seq [.int 1]]) m₁ ∧
      ∃ cause m₂, step (.node (.arithmetic .negate) [.seq [.int 1]]) m₁ = .error (.stuck cause) m₂ ∧
        m₂.entities = m₁.entities := by
  intro es m
  have hrun : run (.seq es) { m with steps := 1 } = .ok (.seq [.int 1]) { m with steps := 2 } := run_eq_ok.mpr ⟨4, rfl⟩
  have hgroup := @groups_stay_groups (.arithmetic .negate) [.seq es] 0 es rfl rfl rfl m
  exact ⟨_, hrun, hgroup.2.1 rfl (by decide) _ _ hrun, hgroup.2.2 rfl [.int 1] _ rfl (by decide)⟩

/-- A group that comes to one number, in the place of the number that is negated. The number itself can be negated, and the
sequence that has taken its place cannot. -/
theorem group_of_one_is_refused :
    let es : List Term := [.int 1, .node (.flow .leftToRight) [.seq []]]
    let negate : Term → Term := fun t => .node (.arithmetic .negate) [t]
    let m : Machine := ⟨{}, .empty, ⟨0⟩, 0⟩
    readTerm "integer-negate((1,left-to-right()))" = .ok (negate (.seq es)) ∧
    ∃ m₁ m₂, run (.seq es) { m with steps := 1 } = .ok (.seq [.int 1]) m₁ ∧
      step (negate (.seq es)) m = .ok (negate (.seq [.int 1])) m₁ ∧ negate (.seq [.int 1]) ≠ negate (.int 1) ∧
      step (negate (.int 1)) m₁ = .ok (.int (-1)) m₂ ∧
      step (negate (.seq [.int 1])) m₁ =
        .error (.stuck (.rule (.arithmetic .negate) (.unexpected .integer (.seq [.int 1])))) m₂ := by
  intro es negate m
  have hread : readTerm "integer-negate((1,left-to-right()))" = .ok (negate (.seq es)) := by
    decide +kernel +zetaReduce
  have hstuck : stepFor 4 (negate (.seq [.int 1])) { m with steps := 2 } =
      .error (.stuck (.rule (.arithmetic .negate) (.unexpected .integer (.seq [.int 1])))) { m with steps := 3 } := rfl
  exact ⟨hread, { m with steps := 2 }, { m with steps := 3 }, run_eq_ok.mpr ⟨4, rfl⟩, step_eq_ok.mpr ⟨4, rfl⟩,
    by simp [negate], step_eq_ok.mpr ⟨4, rfl⟩, (step_eq_iff (by trivial)).mpr ⟨4, hstuck⟩⟩

end TermMachine
