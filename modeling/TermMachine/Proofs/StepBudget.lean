import TermMachine.Proofs.CutOff
import TermMachine.Proofs.Settling

/-!
# One limit for all executions

The count of a machine is never set back. So what decides whether an execution exceeds the limit is not the limit but the
steps that are left of it, and every execution leaves fewer to the next. Beside that nothing is seen of what was counted:
on two machines with the same entities, the same choices and as many steps left (`Machine.Abreast`), a computation comes to
the same, or exceeds the limits of both. The limits themselves may differ. A limit of which some steps are used up is
therefore as good as a lower limit on a machine that has counted nothing (`Machine.renewed`).

Proved:
* `Budgeted.bind`, `Budgeted.speculate`, `Budgeted.withGiven`: the laws.
* `composes_budgeted`: to go by the steps left composes, so it holds of every step, run and execution.
* `execute_idle`: there is a program for each number of steps.
* `limit_spans_executions`: how an execution ends after others, and that a limit bounds each execution by itself only as long
  as nothing was counted before.
* `second_execution_exceeds`: two executions of one step each under a limit of one.
-/

namespace TermMachine

open Term Eval Rules

def Machine.left (m : Machine) : Option Nat := m.config.stepLimit.map (· - m.steps)

/-- Two machines in the same state, with as many steps left. From counts of `a` and `b` they have come the same way. -/
structure Machine.Abreast (a b : Nat) (m₁ m₂ : Machine) : Prop where
  entities : m₂.entities = m₁.entities
  choices : m₂.choices = m₁.choices
  stallDetection : m₂.config.stallDetection = m₁.config.stallDetection
  left : m₂.left = m₁.left
  steps : m₁.steps + b = m₂.steps + a

def Machine.renewed (m : Machine) (limit : Option Nat) : Machine := { m.limited limit with steps := 0 }

theorem Machine.left_counted (m : Machine) : ({ m with steps := m.steps + 1 } : Machine).left = m.left.map (· - 1) := by
  cases hlimit : m.config.stepLimit <;> simp [left, hlimit, Nat.sub_sub]

namespace Eval

variable {α β : Type} {a b : Nat}

theorem charge_of_left {m : Machine} (h : m.left ≠ some 0) : charge m = .ok () { m with steps := m.steps + 1 } := by
  rcases hlimit : m.config.stepLimit with _ | limit
  · exact charge_unlimited hlimit
  · have hwithin : ¬ limit < m.steps + 1 := by
      simp only [Machine.left, hlimit, Option.map_some, ne_eq, Option.some.injEq] at h
      omega
    simp [charge, hlimit, hwithin]

theorem charge_of_none_left {m : Machine} (h : m.left = some 0) :
    ∃ limit, m.config.stepLimit = some limit ∧ charge m = .error (.stepLimit limit) { m with steps := m.steps + 1 } := by
  obtain ⟨limit, hlimit, hleft⟩ := Option.map_eq_some_iff.mp h
  have hexceeded : limit < m.steps + 1 := by omega
  exact ⟨limit, hlimit, by simp [charge, hlimit, hexceeded]⟩

/-- Two computations that came to the same, on machines that are still abreast. -/
inductive Alike (a b : Nat) : EStateM.Result Halt Machine α → EStateM.Result Halt Machine α → Prop
  | ok {v : α} {m₁ m₂ : Machine} : m₁.Abreast a b m₂ → Alike a b (.ok v m₁) (.ok v m₂)
  | stuck {cause : Stuck} {m₁ m₂ : Machine} : m₁.Abreast a b m₂ →
      Alike a b (.error (.stuck cause) m₁) (.error (.stuck cause) m₂)
  | stepLimit {n₁ n₂ : Nat} {m₁ m₂ : Machine} : m₁.config.stepLimit = some n₁ → m₂.config.stepLimit = some n₂ →
      m₁.Abreast a b m₂ → Alike a b (.error (.stepLimit n₁) m₁) (.error (.stepLimit n₂) m₂)
  | outOfFuel {m₁ m₂ : Machine} : m₁.Abreast a b m₂ → Alike a b (.error .outOfFuel m₁) (.error .outOfFuel m₂)

theorem Alike.finished_iff {r₁ r₂ : EStateM.Result Halt Machine α} (h : Alike a b r₁ r₂) :
    Finished r₁ ↔ Finished r₂ := by
  cases h <;> simp

/-- The limit that is reported is that of the machine. -/
theorem Alike.exceeds_iff {r₁ r₂ : EStateM.Result Halt Machine α} (h : Alike a b r₁ r₂) {n₁ n₂ : Nat}
    (h₁ : (machineAfter r₁).config.stepLimit = some n₁) (h₂ : (machineAfter r₂).config.stepLimit = some n₂) :
    (∃ m, r₁ = .error (.stepLimit n₁) m) ↔ ∃ m, r₂ = .error (.stepLimit n₂) m := by
  cases h with
  | stepLimit hn₁ hn₂ _ =>
    cases hn₁.symm.trans h₁
    cases hn₂.symm.trans h₂
    simp
  | _ => simp

/-- A computation sees of the limit and the count only how many steps are left. -/
structure Budgeted (x : Eval α) : Prop where
  alike : ∀ {a b : Nat} {m₁ m₂ : Machine}, m₁.Abreast a b m₂ → Alike a b (x m₁) (x m₂)

namespace Budgeted

theorem pure (v : α) : Budgeted (pure v) := ⟨fun h => .ok h⟩

theorem stuck (cause : Stuck) : Budgeted (stuck cause : Eval α) := ⟨fun h => .stuck h⟩

theorem outOfFuel : Budgeted (throw .outOfFuel : Eval α) := ⟨fun h => .outOfFuel h⟩

theorem modifyEntities (f : Entities → Entities) : Budgeted (modifyEntities f) :=
  ⟨fun h => .ok ⟨congrArg f h.entities, h.choices, h.stallDetection, h.left, h.steps⟩⟩

theorem entities_bind {f : Entities → Eval α} (hf : ∀ s, Budgeted (f s)) : Budgeted (entities >>= f) := by
  refine ⟨fun {a b m₁ m₂} h => ?_⟩
  rw [bind_of_ok (entities_apply m₁), bind_of_ok (entities_apply m₂), h.entities]
  exact (hf m₁.entities).alike h

/-- Whether one more step exceeds the limit is seen from what is left. -/
theorem charge : Budgeted charge := by
  refine ⟨fun {a b m₁ m₂} h => ?_⟩
  have hcounted : Machine.Abreast a b { m₁ with steps := m₁.steps + 1 } { m₂ with steps := m₂.steps + 1 } := by
    refine ⟨h.entities, h.choices, h.stallDetection, ?_, by have := h.steps; simp only; omega⟩
    rw [Machine.left_counted, Machine.left_counted, h.left]
  by_cases hleft : m₁.left = some 0
  · obtain ⟨n₁, hn₁, hcharge₁⟩ := charge_of_none_left hleft
    obtain ⟨n₂, hn₂, hcharge₂⟩ := charge_of_none_left (h.left.trans hleft)
    rw [hcharge₁, hcharge₂]
    exact .stepLimit hn₁ hn₂ hcounted
  · rw [charge_of_left hleft, charge_of_left (h.left ▸ hleft)]
    exact .ok hcounted

variable {x : Eval α}

theorem bind {f : α → Eval β} (hx : Budgeted x) (hf : ∀ v, Budgeted (f v)) : Budgeted (x >>= f) := by
  refine ⟨fun {a b m₁ m₂} h => ?_⟩
  have hx := hx.alike h
  generalize h₁ : x m₁ = r₁ at hx
  generalize h₂ : x m₂ = r₂ at hx
  cases hx with
  | ok hnext =>
    rw [bind_of_ok h₁, bind_of_ok h₂]
    exact (hf _).alike hnext
  | stuck hnext =>
    rw [bind_of_error h₁, bind_of_error h₂]
    exact .stuck hnext
  | stepLimit hn₁ hn₂ hnext =>
    rw [bind_of_error h₁, bind_of_error h₂]
    exact .stepLimit hn₁ hn₂ hnext
  | outOfFuel hnext =>
    rw [bind_of_error h₁, bind_of_error h₂]
    exact .outOfFuel hnext

/-- Both machines get back the entities that both had. -/
theorem speculate (hx : Budgeted x) : Budgeted (speculate x) := by
  refine ⟨fun {a b m₁ m₂} h => ?_⟩
  have hx := hx.alike h
  unfold Eval.speculate
  generalize x m₁ = r₁ at hx
  generalize x m₂ = r₂ at hx
  cases hx with
  | ok hnext => exact .ok hnext
  | stuck hnext => exact .ok ⟨h.entities, hnext.choices, hnext.stallDetection, hnext.left, hnext.steps⟩
  | stepLimit hn₁ hn₂ hnext => exact .stepLimit hn₁ hn₂ hnext
  | outOfFuel hnext => exact .outOfFuel hnext

theorem recover (hx : Budgeted x) : Budgeted (recover x) := by
  refine ⟨fun {a b m₁ m₂} h => ?_⟩
  have hx := hx.alike h
  unfold Eval.recover
  generalize x m₁ = r₁ at hx
  generalize x m₂ = r₂ at hx
  cases hx with
  | ok hnext => exact .ok hnext
  | stuck hnext => exact .ok hnext
  | stepLimit hn₁ hn₂ hnext => exact .stepLimit hn₁ hn₂ hnext
  | outOfFuel hnext => exact .outOfFuel hnext

theorem withGiven {value : Term} (hx : Budgeted x) : Budgeted (withGiven value x) := by
  refine ⟨fun {a b m₁ m₂} h => ?_⟩
  have hgiven : Machine.Abreast a b { m₁ with entities := m₁.entities.put Entity.givenValue value }
      { m₂ with entities := m₂.entities.put Entity.givenValue value } :=
    ⟨by rw [h.entities], h.choices, h.stallDetection, h.left, h.steps⟩
  have hx := hx.alike hgiven
  -- what was bound before is the same on both
  have hback : ∀ {n₁ n₂ : Machine}, n₁.Abreast a b n₂ → Machine.Abreast a b
      { n₁ with entities := n₁.entities.assign Entity.givenValue (m₁.entities.find? Entity.givenValue) }
      { n₂ with entities := n₂.entities.assign Entity.givenValue (m₂.entities.find? Entity.givenValue) } :=
    fun hn => ⟨by rw [hn.entities, h.entities], hn.choices, hn.stallDetection, hn.left, hn.steps⟩
  unfold Rules.withGiven
  simp only
  generalize x _ = r₁ at hx
  generalize x _ = r₂ at hx
  cases hx with
  | ok hnext => exact .ok (hback hnext)
  | stuck hnext => exact .stuck (hback hnext)
  | stepLimit hn₁ hn₂ hnext => exact .stepLimit hn₁ hn₂ (hback hnext)
  | outOfFuel hnext => exact .outOfFuel (hback hnext)

theorem takeYield : Budgeted takeYield :=
  .entities_bind fun _ => .bind (.modifyEntities _) fun _ => .pure _

/-- However much fuel it takes on one machine, it takes as much on the other. -/
theorem settle {x : Nat → Eval α} (hsteady : Steady x) (hx : ∀ fuel, Budgeted (x fuel)) : Budgeted (settle x) := by
  refine ⟨fun {a b m₁ m₂} h => ?_⟩
  by_cases hends : ∃ fuel, Finished (x fuel m₁)
  · obtain ⟨fuel, hfuel⟩ := hends
    have halike := (hx fuel).alike h
    rw [settle_eq_of_finished hsteady hfuel, settle_eq_of_finished hsteady (halike.finished_iff.mp hfuel)]
    exact halike
  · have hnever : ∀ fuel, ¬ Finished (x fuel m₁) := fun fuel hfuel => hends ⟨fuel, hfuel⟩
    rw [settle_of_never hnever, settle_of_never fun fuel hfuel => hnever fuel (((hx fuel).alike h).finished_iff.mpr hfuel)]
    exact .outOfFuel h

end Budgeted

end Eval

/-! ## The engine -/

namespace Engine

/-- Stall detection looks at the entities and not at the count. -/
theorem advanceWith_budgeted {step : Term → Eval Term} {t : Term} (hs : Budgeted (step t)) :
    Budgeted (advanceWith step t) := by
  refine ⟨fun {a b m₁ m₂} h => ?_⟩
  rw [advanceWith, bind_of_ok (get_apply m₁), bind_of_ok (get_apply m₂), h.stallDetection, h.entities]
  refine (Budgeted.bind hs fun next => .entities_bind fun s => ?_).alike h
  split
  · exact .stuck _
  · exact .pure _

/-- A rule that steps no argument counts nothing. -/
theorem rule_budgeted {step advance : Term → Eval Term} {rounds : Nat} {op : Operator} {params : List Term}
    (hop : stepsArgument op = false) : Budgeted (applyRule step advance rounds op params) := by
  refine ⟨fun {a b m₁ m₂} h => ?_⟩
  let other : Machine → Machine := fun m => { m with config := m₂.config, steps := m₂.steps }
  have haside : Machine.Aside other := ⟨fun _ _ => rfl, fun _ _ => rfl⟩
  have hother : m₂ = other m₁ := by
    obtain ⟨config₁, s₁, choices₁, steps₁⟩ := m₁
    obtain ⟨config₂, s₂, choices₂, steps₂⟩ := m₂
    obtain rfl : s₂ = s₁ := h.entities
    obtain rfl : choices₂ = choices₁ := h.choices
    rfl
  rw [show applyRule step advance rounds op params m₂ = onMachine other (applyRule step advance rounds op params m₁) from
    hother ▸ applyRule_unseen haside params hop m₁]
  rcases applyRule_cases hop (rfl : applyRule step advance rounds op params m₁ = _) with ⟨reason, hr⟩ | ⟨t, m, hfired, hr⟩
  · rw [hr]
    exact .stuck (hother ▸ h)
  · obtain ⟨hconfig, hsteps⟩ := hfired.steps
    rw [hr]
    refine .ok ⟨rfl, rfl, ?_, ?_, ?_⟩
    · rw [hconfig]
      exact h.stallDetection
    · rw [Machine.left, Machine.left, hconfig, hsteps]
      exact h.left
    · rw [hsteps]
      exact h.steps

theorem composes_budgeted : Composes fun _ x => Budgeted x where
  pure v := .pure v
  stuck cause := .stuck cause
  outOfFuel := .outOfFuel
  bind hx hf := .bind hx hf
  charge := .charge
  speculate hx := .speculate hx
  recover hx := .recover hx
  withGiven hx := .withGiven hx
  takeYield := .takeYield
  advance hs := advanceWith_budgeted hs
  rule hop := rule_budgeted hop

end Engine

theorem step_budgeted (t : Term) : Budgeted (step t) :=
  .settle (Engine.stepFor_steady t) fun fuel => Engine.composes_budgeted.stepFor fuel t

theorem run_budgeted (t : Term) : Budgeted (run t) :=
  .settle (Engine.runFor_steady t) fun fuel => Engine.composes_budgeted.runFor fuel t

theorem execute_budgeted (t : Term) (inputs : List Term) : Budgeted (execute t inputs) := by
  have hsupply : Budgeted (Execution.supply inputs) := by
    unfold Execution.supply
    simp only
    split
    · exact .pure _
    · exact .modifyEntities _
  refine .settle (Execution.executeFor_steady t inputs) fun fuel => .bind hsupply fun _ => .bind ?_ fun outcome => ?_
  · exact Engine.composes_budgeted.driveWith (Engine.composes_budgeted.advanceFor fuel) fuel t
  · exact .entities_bind fun _ => .pure _

/-! ## A program for each number of steps -/

/-- A term that takes so many steps to null, whatever the entities hold. -/
def Term.idle : Nat → Term
  | 0 => .null
  | n + 1 => .node (.flow .ifTrueElse) [.bool true, idle n, .null]

theorem Term.idle_ne (n : Nat) : idle n ≠ idle (n + 1) := by
  induction n with
  | zero => simp [idle]
  | succ n ih => simpa [idle] using ih

theorem advanceFor_idle (fuel n : Nat) {m : Machine} (hm : m.config.stepLimit = none) :
    Engine.advanceFor (fuel + 1) (idle (n + 1)) m = .ok (idle n) { m with steps := m.steps + 1 } := by
  have hstep : Engine.stepFor (fuel + 1) (idle (n + 1)) m = .ok (idle n) { m with steps := m.steps + 1 } :=
    stepNode_of_pending_nil rfl hm
  exact advanceWith_of_ne hstep (idle_ne n)

theorem driveWith_idle {fuel rounds n : Nat} (hrounds : n ≤ rounds) {m : Machine} (hm : m.config.stepLimit = none) :
    Execution.driveWith (Engine.advanceFor (fuel + 1)) rounds (idle n) m =
      .ok (.value .null) { m with steps := m.steps + n } := by
  induction n generalizing rounds m with
  | zero => unfold Execution.driveWith; rfl
  | succ n ih =>
    obtain ⟨rounds, rfl⟩ : ∃ k, rounds = k + 1 := ⟨rounds - 1, by omega⟩
    have hadvance := recover_eq_ok.mpr (.inl ⟨_, rfl, advanceFor_idle fuel n hm⟩)
    rw [Execution.driveWith, if_neg (by simp [idle, isValue]), bind_of_ok hadvance]
    refine (ih (by omega) (m := { m with steps := m.steps + 1 }) hm).trans ?_
    rw [Nat.add_assoc, Nat.add_comm 1]

/-- Without a limit, it counts exactly these. -/
theorem execute_idle (n : Nat) {m : Machine} (hm : m.config.stepLimit = none) :
    ∃ execution, execute (idle n) [] m = .ok execution { m with steps := m.steps + n } := by
  have hfor : Execution.executeFor (n + 1) (idle n) [] m = .ok ⟨.value .null, m.entities.stream Entity.standardOut,
      m.entities.get Entity.store⟩ { m with steps := m.steps + n } := by
    have hsupply : Execution.supply [] m = .ok () m := rfl
    rw [Execution.executeFor, bind_of_ok hsupply, bind_of_ok (driveWith_idle (Nat.le_succ n) hm)]
    rfl
  exact ⟨_, (execute_eq_iff (by trivial)).mpr ⟨n + 1, hfor⟩⟩

/-! ## One execution after others -/

theorem execute_later (t : Term) (inputs : List Term) : Keeps Machine.Later (execute t inputs) :=
  keeps_execute allows_later (Execution.supply_cutsOff inputs).later t

/-- The machine after a series of executions, each on the machine that the one before left, whatever that ended with. -/
def Machine.serve (m : Machine) (programs : List (Term × List Term)) : Machine :=
  programs.foldl (fun m program => machineAfter (execute program.1 program.2 m)) m

/-- No execution sets the count back. -/
theorem Machine.later_serve (m : Machine) (programs : List (Term × List Term)) : m.Later (m.serve programs) := by
  induction programs generalizing m with
  | nil => exact allows_later.refl m
  | cons program programs ih =>
    exact allows_later.trans (execute_later program.1 program.2 m) (ih _)

theorem Execution.exceeds_iff_of_ok {limit : Nat} {t : Term} {inputs : List Term} {m m' : Machine} {execution : Execution}
    (hm : m.config.stepLimit = none) (hsteps : m.steps ≤ limit) (h : execute t inputs m = .ok execution m') :
    Exceeds limit t inputs m ↔ limit < m'.steps := by
  have hiff := exceeds_iff_of_finished (executeFor_steady t inputs) (fun fuel => executeFor_cutsOff fuel t inputs) hm
    hsteps (show Finished (execute t inputs m) by rw [h]; trivial)
  rwa [show Eval.settle (fun fuel => executeFor fuel t inputs) m = .ok execution m' from h] at hiff

section
variable {limit : Nat} {m : Machine} (hlimit : m.config.stepLimit = some limit)
include hlimit

theorem Machine.abreast_renewed : m.Abreast m.steps 0 (m.renewed (some (limit - m.steps))) :=
  ⟨rfl, rfl, rfl, by simp [left, renewed, limited, hlimit], by simp [renewed, limited]⟩

/-- Only the steps that are left decide whether the limit is exceeded. -/
theorem execute_exceeds_iff (t : Term) (inputs : List Term) :
    (∃ m', execute t inputs m = .error (.stepLimit limit) m') ↔
      Execution.Exceeds (limit - m.steps) t inputs (m.renewed none) := by
  have halike := (execute_budgeted t inputs).alike (Machine.abreast_renewed hlimit)
  have hiff := settle_exceeds_iff (Execution.executeFor_steady t inputs)
    (fun fuel => Execution.executeFor_cutsOff fuel t inputs) (m := m.renewed none) rfl (Nat.zero_le (limit - m.steps))
  have hconfig := (execute_later t inputs m).2
  have hconfig' := (execute_later t inputs (m.renewed (some (limit - m.steps)))).2
  exact (halike.exceeds_iff (by rw [hconfig, hlimit]) (by rw [hconfig']; rfl)).trans hiff

/-- As long as a step was counted before, some execution that keeps to the limit by itself exceeds it. -/
theorem exceeds_by_itself_iff (hpos : 0 < limit) :
    (∀ t inputs, (∃ m', execute t inputs m = .error (.stepLimit limit) m') →
      Execution.Exceeds limit t inputs (m.renewed none)) ↔ m.steps = 0 := by
  constructor
  · intro hitself
    by_contra hsteps
    -- a program of as many steps as the limit allows
    obtain ⟨execution, hexecute⟩ := execute_idle limit (m := m.renewed none) rfl
    have hcount : ∀ n, Execution.Exceeds n (idle limit) [] (m.renewed none) ↔ n < 0 + limit := fun n =>
      Execution.exceeds_iff_of_ok rfl (Nat.zero_le n) hexecute
    have hexceeds := hitself (idle limit) [] ((execute_exceeds_iff hlimit _ _).mpr ((hcount _).mpr (by omega)))
    have hlt := (hcount limit).mp hexceeds
    omega
  · intro hsteps t inputs hexceeds
    simpa [hsteps] using (execute_exceeds_iff hlimit t inputs).mp hexceeds

end

/-- An execution after any others, on a machine with a step limit. It ends as it does on a machine that has counted nothing,
has the same entities and choices, and whose limit is what the executions before have left; the steps it counts come on top
of theirs. So the limit is exceeded exactly if the execution by itself counts more than is left. If the limit allows any
step, that it counts more than the limit itself holds of all executions exactly if none of those before has counted one. -/
theorem limit_spans_executions {limit : Nat} {m : Machine} (hlimit : m.config.stepLimit = some limit)
    (programs : List (Term × List Term)) :
    let later := m.serve programs
    m.Later later ∧
    (∀ t inputs, Alike later.steps 0 (execute t inputs later)
      (execute t inputs (later.renewed (some (limit - later.steps))))) ∧
    (∀ t inputs, (∃ m', execute t inputs later = .error (.stepLimit limit) m') ↔
      Execution.Exceeds (limit - later.steps) t inputs (later.renewed none)) ∧
    (0 < limit → ((∀ t inputs, (∃ m', execute t inputs later = .error (.stepLimit limit) m') →
      Execution.Exceeds limit t inputs (later.renewed none)) ↔ later.steps = 0)) := by
  intro later
  have hlater : m.Later later := m.later_serve programs
  have hlimit : later.config.stepLimit = some limit := by rw [hlater.2, hlimit]
  exact ⟨hlater, fun t inputs => (execute_budgeted t inputs).alike (Machine.abreast_renewed hlimit),
    execute_exceeds_iff hlimit, exceeds_by_itself_iff hlimit⟩

/-- Printing a number and reading one each count a step. Under a limit of three, a sum with an argument to compute can be
executed after one of them but not after both. -/
theorem limit_spans_executions_sum :
    let print : Term := .node (.effect .print) [.seq [.int 1]]
    let sum : Term := .node (.arithmetic .add) [.seq [.int 1, .node (.effect .read) []]]
    let m : Machine := ⟨{ stepLimit := some 3 }, .empty, ⟨0⟩, 0⟩
    let later := m.serve [(print, []), (print, [])]
    later.steps = 2 ∧ later.entities.stream Entity.standardOut = [.int 1, .int 1] ∧
      (∃ m', execute sum [.int 5] later = .error (.stepLimit 3) m') ∧
      ∃ t inputs, (∃ m', execute t inputs later = .error (.stepLimit 3) m') ∧
        ¬ Execution.Exceeds 3 t inputs (later.renewed none) := by
  intro print sum m later
  have hprint : ∀ m₁ execution m', Execution.executeFor 4 print [] m₁ = .ok execution m' →
      execute print [] m₁ = .ok execution m' := fun _ _ _ h => (execute_eq_iff (by trivial)).mpr ⟨4, h⟩
  have hlater : later = ⟨{ stepLimit := some 3 }, ⟨[(Entity.standardOut, .seq [.int 1, .int 1])]⟩, ⟨0⟩, 2⟩ := by
    simp only [later, Machine.serve, List.foldl_cons, List.foldl_nil]
    rw [hprint m _ _ rfl, hprint _ _ _ rfl]
    rfl
  obtain ⟨-, -, hexceeds, hitself⟩ := limit_spans_executions (m := m) rfl [(print, []), (print, [])]
  have hsum : (∃ m', execute sum [.int 5] later = .error (.stepLimit 3) m') := by
    refine (hexceeds sum [.int 5]).mpr ⟨4, ?_⟩
    show 3 - later.steps < (machineAfter (Execution.executeFor 4 sum [.int 5] (later.renewed none))).steps
    rw [hlater]
    decide
  have hcounted : later.steps ≠ 0 := by
    rw [hlater]
    decide
  refine ⟨by rw [hlater], by rw [hlater]; rfl, hsum, ?_⟩
  simpa using mt (hitself (by decide)).mp hcounted

/-- Two executions of one step each, with no failure in either, under a limit of one. The second exceeds the limit, and by
itself it counts no more than the first. -/
theorem second_execution_exceeds :
    let t : Term := .node (.effect .yield) []
    let m : Machine := ⟨{ stepLimit := some 1 }, .empty, ⟨0⟩, 0⟩
    ∃ execution m₁ m₂, execute t [] m = .ok execution m₁ ∧ execute t [] m₁ = .error (.stepLimit 1) m₂ ∧
      ¬ Execution.Exceeds 1 t [] (m₁.renewed none) := by
  intro t m
  let m₁ : Machine := ⟨{ stepLimit := some 1 }, ⟨[(Entity.yielded, signal)]⟩, ⟨0⟩, 1⟩
  have hfirst : Execution.executeFor 4 t [] m = .ok ⟨.value .null, [], .empty⟩ m₁ := rfl
  have hsecond : Execution.executeFor 4 t [] m₁ = .error (.stepLimit 1) { m₁ with steps := 2 } := rfl
  have hitself : Execution.executeFor 4 t [] (m₁.renewed none) =
      .ok ⟨.value .null, [], .empty⟩ { m₁.renewed none with steps := 1 } := rfl
  refine ⟨_, m₁, _, (execute_eq_iff (by trivial)).mpr ⟨4, hfirst⟩, (execute_eq_iff (by trivial)).mpr ⟨4, hsecond⟩, ?_⟩
  rw [Execution.exceeds_iff_of_ok rfl (by decide) ((execute_eq_iff (by trivial)).mpr ⟨4, hitself⟩)]
  decide

end TermMachine
