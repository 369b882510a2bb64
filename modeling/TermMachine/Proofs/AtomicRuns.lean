import TermMachine.Proofs.SequenceRuns
import TermMachine.Proofs.Signals
import TermMachine.Proofs.Stateless
import TermMachine.Proofs.StepBudget

/-!
# An `atomic` whose body does not yield

The body of an `atomic` takes the same steps as in a run of its own. That one more step has been counted before it makes
no difference where there is no limit (`Uncounted`). A run of a term without `yield` raises no signal: a node with that
operator would have to come from the term or from an entity, and no rule makes one (`Yieldless`, a discipline).

So on a silent machine one step of the `atomic` does all that a run of the body does. A signal that was raised before,
however, is still there after the first step of the body, unless an `atomic` inside has cleared it, and it ends the
step: the whole run is done in one step only if the first step of the body comes to a value or the signal is gone after
it.

Proved:
* `Uncounted.of_budgeted`: what was counted before makes no difference to steps and runs.
* `stepFor_hushed`: a step without `yield` leaves a silent machine silent.
* `atomic_runs_to_the_end_iff`: when one step of an `atomic` does what a run of its body does.
* `atomic_stops_at_an_earlier_signal`: a signal from before the step ends it.
-/

namespace TermMachine

open Term Eval Rules Engine

/-! ## The number of steps taken before -/

/-- Without a limit, any two counts are abreast. -/
theorem Machine.abreast_after {m : Machine} (hm : m.config.stepLimit = none) (k : Nat) : m.Abreast 0 k (m.after k) :=
  ⟨rfl, rfl, rfl, by simp [left, after, hm], by simp [after]⟩

theorem Machine.Abreast.eq_after {m₁ m₂ : Machine} {k : Nat} (h : m₁.Abreast 0 k m₂) (hconfig : m₂.config = m₁.config) :
    m₂ = m₁.after k := by
  obtain ⟨config₁, s₁, choices₁, steps₁⟩ := m₁
  obtain ⟨config₂, s₂, choices₂, steps₂⟩ := m₂
  obtain rfl : s₂ = s₁ := h.entities
  obtain rfl : choices₂ = choices₁ := h.choices
  obtain rfl : config₂ = config₁ := hconfig
  obtain rfl : steps₁ + k = steps₂ := h.steps
  rfl

namespace Eval

variable {α : Type}

/-- On a machine without a step limit, a computation does the same whatever was counted before. -/
structure Uncounted (x : Eval α) : Prop where
  config : Keeps (fun m m' => m'.config = m.config) x
  shift : ∀ {m : Machine}, m.config.stepLimit = none → ∀ k, x (m.after k) = onMachine (·.after k) (x m)

theorem Uncounted.of_budgeted {x : Eval α} (hconfig : Keeps (fun m m' => m'.config = m.config) x) (hx : Budgeted x) :
    Uncounted x where
  config := hconfig
  shift {m} hm k := by
    have halike := hx.alike (Machine.abreast_after hm k)
    have h₁ := hconfig m
    have h₂ := hconfig (m.after k)
    generalize x (m.after k) = r₂ at halike h₂
    generalize x m = r₁ at halike h₁
    have hconfig : (machineAfter r₂).config = (machineAfter r₁).config := h₂.trans h₁.symm
    cases halike with
    | ok h => rw [h.eq_after hconfig]; rfl
    | stuck h => rw [h.eq_after hconfig]; rfl
    | stepLimit hn₁ _ _ =>
      have hnone := (congrArg Config.stepLimit h₁).trans hm
      cases hn₁.symm.trans hnone
    | outOfFuel h => rw [h.eq_after hconfig]; rfl

/-- A result on the machine with the greater count comes from one on the other. -/
theorem Uncounted.ok_of_after {x : Eval α} (hx : Uncounted x) {m m' : Machine} (hm : m.config.stepLimit = none) {k : Nat}
    {a : α} (h : x (m.after k) = .ok a m') : ∃ m₁, x m = .ok a m₁ ∧ m' = m₁.after k := by
  rw [hx.shift hm] at h
  rcases hr : x m with ⟨b, m₁⟩ | ⟨halt, m₁⟩
  · rw [hr] at h
    cases h
    exact ⟨m₁, rfl, rfl⟩
  · rw [hr] at h
    cases h

end Eval

namespace Engine

variable (fuel rounds : Nat) (t : Term)

theorem advanceFor_uncounted : Uncounted (advanceFor fuel t) :=
  .of_budgeted (advanceWith_keeps (stepFor_keeps allows_config fuel t)) (composes_budgeted.advanceFor fuel t)

theorem runWith_uncounted : Uncounted (runWith (advanceFor fuel) rounds t) :=
  .of_budgeted ((composes_keeps allows_config).runWith (fun t => (advanceFor_uncounted fuel t).config) rounds t)
    (composes_budgeted.runWith (composes_budgeted.advanceFor fuel) rounds t)

end Engine

theorem step_uncounted (t : Term) : Uncounted (step t) := .of_budgeted (keeps_step allows_config t) (step_budgeted t)

theorem run_uncounted (t : Term) : Uncounted (run t) := .of_budgeted (keeps_run allows_config t) (run_budgeted t)

/-! ## Terms without `yield` -/

/-- The operators whose rule raises the signal. -/
def Operator.yields : Operator → Bool
  | .effect .yield | .effect .yieldOnValue => true
  | _ => false

def Term.Yieldless (t : Term) : Prop := ∀ op params, .node op params ∈ t.parts → op.yields = false

instance (t : Term) : Decidable t.Yieldless :=
  decidable_of_iff (∀ u ∈ t.parts, (match u with | .node op _ => op.yields | _ => false) = false) <| by
    constructor
    · intro h op params hmem
      exact h _ hmem
    · intro h u hu
      cases u with
      | node op params => exact h op params hu
      | _ => rfl

def Entities.Yieldless (s : Entities) : Prop := ∀ name t, s.find? name = some t → t.Yieldless

/-- To be without `yield`, as a discipline. Nothing is asked but of operators. -/
def yieldlessNodes : Discipline Unit where
  element _ := True
  node op _ := op.yields = false
  data _ _ _ := True
  type _ := True
  ledger _ _ _ := True
  excuse _ := True
  element_of_not_isSequence _ := trivial
  node_update h _ := h
  data_mono _ _ := trivial
  data_other _ _ _ := trivial
  data_named _ _ _ _ := trivial
  ledger_use _ _ := trivial
  ledger_allocate _ _ := Discipline.same_world _
  ledger_assign _ _ _ _ _ := trivial
  excuse_ordinary _ := trivial
  excuse_malformed _ _ _ := trivial
  excuse_unallocated _ _ _ := trivial

theorem admits_yieldlessNodes {w : Unit} {t : Term} : yieldlessNodes.Admits w t ↔ t.Yieldless := by
  constructor
  · intro h op params hmem
    exact h _ hmem
  · intro h u hu
    cases u with
    | node op params => exact h op params hu
    | _ => simp [Discipline.Fits, yieldlessNodes]

theorem stored_yieldlessNodes {w : Unit} {s : Entities} : yieldlessNodes.Stored w s ↔ s.Yieldless := by
  constructor
  · intro h name t ht
    exact admits_yieldlessNodes.mp (h.admits ht)
  · intro h
    exact ⟨fun {name t} ht => admits_yieldlessNodes.mpr (h name t ht), trivial⟩

namespace Term.Yieldless

variable {t u : Term}

theorem part (h : t.Yieldless) (hu : u ∈ t.parts) : u.Yieldless :=
  fun op params hmem => h op params (parts_trans hu hmem)

theorem param {op : Operator} {params : List Term} (h : (Term.node op params).Yieldless) (hu : u ∈ params) :
    u.Yieldless :=
  h.part (mem_parts_node.mpr (.inr ⟨u, hu, mem_parts_self u⟩))

theorem item {items : List Term} (h : (Term.seq items).Yieldless) (hu : u ∈ items) : u.Yieldless :=
  h.part (mem_parts_seq.mpr (.inr ⟨u, hu, mem_parts_self u⟩))

end Term.Yieldless

theorem Entities.Yieldless.put {s : Entities} (h : s.Yieldless) {value : Term} (hvalue : value.Yieldless)
    (name : String) : (s.put name value).Yieldless := by
  intro other t ht
  rw [find?_put] at ht
  by_cases hname : other = name
  · rw [if_pos hname] at ht
    cases ht
    exact hvalue
  · rw [if_neg hname] at ht
    exact h other t ht

/-- A step brings no `yield` into the term or into an entity. -/
theorem yieldless_of_stepFor {fuel : Nat} {t t' : Term} {m m' : Machine} (ht : t.Yieldless) (hm : m.entities.Yieldless)
    (h : stepFor fuel t m = .ok t' m') : t'.Yieldless ∧ m'.entities.Yieldless := by
  have hupheld := Discipline.stepFor_upholds fuel () t (admits_yieldlessNodes.mpr ht) m (stored_yieldlessNodes.mpr hm)
  rw [h] at hupheld
  obtain ⟨_, -, hs, ht'⟩ := hupheld
  exact ⟨admits_yieldlessNodes.mp ht'.1, stored_yieldlessNodes.mp hs⟩

/-! ## Steps without `yield` raise no signal -/

/-- The term and the entities are without `yield`, and the signal is not raised. -/
structure Hushed (t : Term) (m : Machine) : Prop where
  term : t.Yieldless
  entities : m.entities.Yieldless
  silent : m.Silent

def Hushes (step : Term → Eval Term) : Prop := ∀ t m t' m', Hushed t m → step t m = .ok t' m' → m'.Silent

namespace Engine

/-- The rules that step no argument raise no signal, but for those of `yield`. -/
theorem Fired.silent {params : List Term} {op : Operator} {t : Term} {m m' : Machine} (h : Fired params m op t m')
    (hop : op.yields = false) (hm : m.Silent) : m'.Silent := by
  have hput : ∀ {s : Entities} {name : String} {value : Term}, name ≠ Entity.yielded → s.find? Entity.yielded = none →
      (s.put name value).find? Entity.yielded = none := by
    intro s name value hname hs
    rw [Entities.find?_put, if_neg hname.symm]
    exact hs
  cases h with
  | entities he =>
    show Entities.find? _ _ = none
    cases he with
    | yield => cases hop
    | yieldOnValue => cases hop
    | given => exact hm
    | assigned => exact hm
    | print => exact hput (by decide) hm
    | read hpop =>
      unfold Entities.popFirst at hpop
      split at hpop <;> cases hpop
      exact hput (by decide) hm
    | useAtomNotIn => exact hput (by decide) hm
    | allocateVariable _ hs' =>
      subst hs'
      exact hput (by decide) (hput (by decide) hm)
    | assign => exact hput (by decide) hm
  | _ => exact hm

section
variable {step : Term → Eval Term} (hs : Hushes step) {params : List Term} {t' : Term} {m m' : Machine}
include hs

theorem stepOne_hushed {op : Operator} {choose : List Term → Option Nat} (hchoose : ChoosesReducible choose)
    (hm : Hushed (.node op params) m) (h : stepOne step op choose params m = .ok t' m') : m'.Silent := by
  rcases stepOne_cases h with ⟨reason, hr⟩ | ⟨items, hitems, ⟨-, hr⟩ | ⟨index, hindex, hr⟩⟩
  · cases hr
  · cases hr
    exact hm.silent
  · obtain ⟨next, m₁, hstep, hr⟩ := Eval.bind_eq_ok.mp hr.symm
    cases hr
    obtain ⟨u, hu, -⟩ := hchoose items index hindex
    rw [Sequence.get_of_getElem? hu] at hstep
    have hseq : (Term.seq items).Yieldless := hm.term.param (List.mem_of_getElem? hitems)
    exact hs _ _ _ _ ⟨hseq.item (List.mem_of_getElem? hu), hm.entities, hm.silent⟩ hstep

theorem sequential_hushed (hm : Hushed (.node (.flow .sequential) params) m)
    (h : sequential step params m = .ok t' m') : m'.Silent := by
  rcases sequential_cases h with ⟨reason, hr⟩ | ⟨statements, last, hst, -, hcase⟩
  · cases hr
  rcases hcase with ⟨-, hr⟩ | ⟨first, rest, rfl, ⟨-, hr⟩ | ⟨-, -, hr⟩ | ⟨-, -, hr⟩⟩
  · cases hr
    exact hm.silent
  · obtain ⟨next, m₁, hstep, hr⟩ := Eval.bind_eq_ok.mp hr.symm
    cases hr
    have hseq : (Term.seq (first :: rest)).Yieldless := hm.term.param (List.mem_of_getElem? hst)
    exact hs _ _ _ _ ⟨hseq.item List.mem_cons_self, hm.entities, hm.silent⟩ hstep
  · cases hr
    exact hm.silent
  · cases hr
    exact hm.silent

theorem give_hushed (hm : Hushed (.node (.effect .give) params) m) (h : give step params m = .ok t' m') :
    m'.Silent := by
  rcases give_cases h with ⟨reason, hr⟩ | ⟨value, body, hvalue, hbody, ⟨-, hr⟩ | ⟨-, hr⟩⟩
  · cases hr
  · cases hr
    exact hm.silent
  · obtain ⟨next, m₁, hgiven, hr⟩ := Eval.bind_eq_ok.mp hr.symm
    cases hr
    obtain ⟨m₂, hstep, rfl⟩ := withGiven_eq_ok.mp hgiven
    have hvalue : value.Yieldless := hm.term.param (List.mem_of_getElem? hvalue)
    have hbody : body.Yieldless := hm.term.param (List.mem_of_getElem? hbody)
    show Entities.find? _ _ = none
    rw [Entities.find?_assign_of_ne (by decide)]
    exact hs _ _ _ _ ⟨hbody, hm.entities.put hvalue _, hm.silent.given value⟩ hstep

end

theorem applyRule_hushed {fuel : Nat} (hs : Hushes (stepFor fuel)) {op : Operator} {params : List Term} {t' : Term}
    {m m' : Machine} (hm : Hushed (.node op params) m)
    (h : applyRule (stepFor fuel) (advanceFor fuel) fuel op params m = .ok t' m') : m'.Silent := by
  by_cases hstep : stepsArgument op = true
  · unfold stepsArgument at hstep
    split at hstep
    · exact stepOne_hushed hs firstReducible?_chooses hm h
    · exact stepOne_hushed hs lastReducible?_chooses hm h
    · exact sequential_hushed hs hm h
    · exact give_hushed hs hm h
    · rcases bind_ofRule_cases h with ⟨reason, hr⟩ | ⟨body, -, hbody⟩
      · cases hr
      · exact (atomicWithin_ok hbody).2 (.inl hm.silent)
    · cases hstep
  · rcases applyRule_cases (by simpa using hstep) h with ⟨reason, hr⟩ | ⟨t, m₁, hfired, hr⟩
    · cases hr
    · cases hr
      exact hfired.silent (hm.term op params (mem_parts_self _)) hm.silent

/-- A run goes from one hushed state to the next. -/
theorem runWith_hushed {fuel : Nat} (hs : Hushes (stepFor fuel)) {rounds : Nat} {t v : Term} {m m' : Machine}
    (hm : Hushed t m) (h : runWith (advanceFor fuel) rounds t m = .ok v m') : m'.Silent := by
  induction rounds generalizing t m with
  | zero =>
    unfold runWith at h
    split at h <;> cases h
    exact hm.silent
  | succ rounds ih =>
    unfold runWith at h
    split at h
    · cases h
      exact hm.silent
    · obtain ⟨next, m₁, hadvance, hrest⟩ := Eval.bind_eq_ok.mp h
      have hstep : stepFor fuel t m = .ok next m₁ := advanceWith_ok hadvance
      obtain ⟨hnext, hm₁⟩ := yieldless_of_stepFor hm.term hm.entities hstep
      exact ih ⟨hnext, hm₁, hs t m next m₁ hm hstep⟩ hrest

theorem stepNode_hushed {fuel : Nat} (hs : Hushes (stepFor fuel)) {op : Operator} {params : List Term} {t' : Term}
    {m m' : Machine} (hm : Hushed (.node op params) m) (h : stepNode (fuel + 1) op params m = .ok t' m') :
    m'.Silent := by
  rcases stepNode_ok h with ⟨index, argument, value, m₁, m₂, hmem, hm₁, hrun, hreplace⟩ | ⟨-, hrule⟩
  · obtain ⟨_, -, -, hargument, -⟩ := mem_pending.mp hmem
    obtain ⟨rfl, -⟩ := replaceParam_ok hreplace
    have hsilent : m₁.Silent := by
      rw [Machine.Silent, hm₁]
      exact hm.silent
    have hhushed : Hushed argument m₁ := ⟨hm.term.param (List.mem_of_getElem? hargument), hm₁ ▸ hm.entities, hsilent⟩
    exact runWith_hushed hs hhushed hrun
  · have hcounted : Hushed (.node op params) { m with steps := m.steps + 1 } := ⟨hm.term, hm.entities, hm.silent⟩
    exact applyRule_hushed hs hcounted hrule

/-- If nodes leave the machine silent then so do the sequences around them. -/
theorem stepWith_hushed {s : Operator → List Term → Eval Term}
    (hs : ∀ op params m t' m', Hushed (.node op params) m → s op params m = .ok t' m' → m'.Silent) :
    Hushes (stepWith s) := by
  intro t
  induction hsize : t.size using Nat.strongRecOn generalizing t with
  | ind n ih =>
    intro m t' m' hm h
    by_cases hv : t.isValue = true
    · rw [stepWith_of_isValue hv] at h
      cases h
      exact hm.silent
    have hv : t.isValue = false := by simpa using hv
    by_cases hseq : t.isSequence = true
    · obtain ⟨wrap, before, u, after, next, m₁, hwrap, rfl, hu, hm₁, hstep, rfl⟩ := stepWith_sequence_ok hseq hv h
      have hmem : u ∈ before ++ u :: after := by simp
      have hsmaller := size_le_of_mem hmem
      have hpart : u ∈ (wrap (before ++ u :: after)).parts ∧ u.size < (wrap (before ++ u :: after)).size := by
        rcases hwrap with rfl | rfl
        · exact ⟨mem_parts_seq.mpr (.inr ⟨u, hmem, mem_parts_self u⟩), by simp only [Term.size]; omega⟩
        · exact ⟨mem_parts_spread.mpr (.inr ⟨u, hmem, mem_parts_self u⟩), by simp only [Term.size]; omega⟩
      have hsilent : m₁.Silent := by
        rw [Machine.Silent, hm₁]
        exact hm.silent
      exact ih u.size (by omega) u rfl m₁ next m' ⟨hm.term.part hpart.1, hm₁ ▸ hm.entities, hsilent⟩ hstep
    · cases t with
      | node op params => exact hs op params m t' m' hm (by simpa only [stepWith] using h)
      | seq items => exact absurd rfl hseq
      | spread items => exact absurd rfl hseq
      | _ => simp [isValue] at hv

theorem stepFor_hushed (fuel : Nat) : Hushes (stepFor fuel) := by
  induction fuel with
  | zero =>
    refine stepWith_hushed fun op params m t' m' _ h => ?_
    cases h
  | succ fuel ih => exact stepWith_hushed fun op params m t' m' hm h => stepNode_hushed ih hm h

end Engine

/-! ## The body of an `atomic` as a run -/

/-- A run of a term that is not a value begins with a step. -/
theorem Engine.runWith_first {fuel rounds : Nat} {t v : Term} {m m' : Machine} (hv : t.isValue = false)
    (h : runWith (advanceFor fuel) rounds t m = .ok v m') :
    ∃ rest next m₁, rounds = rest + 1 ∧ advanceFor fuel t m = .ok next m₁ ∧
      runWith (advanceFor fuel) rest next m₁ = .ok v m' := by
  unfold runWith at h
  rw [if_neg (by simp [hv])] at h
  cases rounds with
  | zero => cases h
  | succ rest =>
    obtain ⟨next, m₁, hadvance, hrest⟩ := Eval.bind_eq_ok.mp h
    exact ⟨rest, next, m₁, rfl, hadvance, hrest⟩

/-- Without a signal, the body of an `atomic` goes on as a run does. -/
theorem atomicWithin_of_runWith {fuel rounds : Nat} {t v : Term} {m m' : Machine} (hm : Hushed t m)
    (h : runWith (advanceFor fuel) rounds t m = .ok v m') : atomicWithin (advanceFor fuel) rounds t m = .ok v m' := by
  induction rounds generalizing t m with
  | zero =>
    unfold runWith at h
    unfold atomicWithin
    exact h
  | succ rounds ih =>
    rcases hv : t.isValue with _ | _
    · obtain ⟨rest, next, m₁, hrounds, hadvance, hrest⟩ := runWith_first hv h
      obtain rfl : rounds = rest := by omega
      have hstep : stepFor fuel t m = .ok next m₁ := advanceWith_ok hadvance
      have hsilent := stepFor_hushed fuel t m next m₁ hm hstep
      obtain ⟨hnext, hm₁⟩ := yieldless_of_stepFor hm.term hm.entities hstep
      rw [atomicWithin_of_silent hv hadvance hsilent]
      exact ih ⟨hnext, hm₁, hsilent⟩ hrest
    · rw [runWith, if_pos hv] at h
      rw [atomicWithin, if_pos hv]
      exact h

section
variable {X v : Term} {m m₁ : Machine} (hm : m.config.stepLimit = none)
include hm

theorem step_atomic {fuel : Nat} {t : Term} {m' : Machine}
    (h : atomicWithin (advanceFor fuel) fuel X (m.after 1) = .ok t m') :
    step (.node (.effect .atomic) [X]) m = .ok t m' := by
  refine step_eq_ok.mpr ⟨fuel + 1, ?_⟩
  exact (stepNode_of_pending_nil (pending_atomic [X]) hm).trans h

/-- On a silent machine, one step of the `atomic` does what a run of the body does, and counts one more. -/
theorem step_atomic_of_hushed (hX : Hushed X m) (hrun : run X m = .ok v m₁) :
    step (.node (.effect .atomic) [X]) m = .ok v (m₁.after 1) := by
  obtain ⟨fuel, hfuel⟩ := run_eq_ok.mp hrun
  have hshift : runFor fuel X (m.after 1) = .ok v (m₁.after 1) := by
    rw [runFor, (runWith_uncounted fuel fuel X).shift hm 1, show runWith (advanceFor fuel) fuel X m = _ from hfuel]
    rfl
  have hcounted : Hushed X (m.after 1) := ⟨hX.term, hX.entities, hX.silent⟩
  exact step_atomic hm (atomicWithin_of_runWith hcounted hshift)

/-- The first step of the body decides how far the `atomic` goes. -/
theorem step_atomic_of_first (hX : X.Yieldless) (hs : m.entities.Yieldless) (hv : X.isValue = false)
    (hrun : run X m = .ok v m₁) :
    ∃ X' m', step X m = .ok X' m' ∧ (X'.isValue = true → v = X' ∧ m₁ = m') ∧
      (m'.Silent → step (.node (.effect .atomic) [X]) m = .ok v (m₁.after 1)) ∧
      (¬ m'.Silent → step (.node (.effect .atomic) [X]) m = .ok (if X'.isValue then X' else .node (.effect .atomic) [X'])
        ({ m' with entities := m'.entities.remove Entity.yielded }.after 1)) := by
  obtain ⟨fuel, hfuel⟩ := run_eq_ok.mp hrun
  obtain ⟨rest, X', m', rfl, hadvance, hrest⟩ := runWith_first hv hfuel
  have hstep : stepFor (rest + 1) X m = .ok X' m' := advanceWith_ok hadvance
  have hadvance₁ : advanceFor (rest + 1) X (m.after 1) = .ok X' (m'.after 1) := by
    rw [(advanceFor_uncounted (rest + 1) X).shift hm 1, hadvance]
    rfl
  refine ⟨X', m', step_eq_ok.mpr ⟨rest + 1, hstep⟩, ?_, ?_, ?_⟩
  · intro hvalue
    unfold runWith at hrest
    rw [if_pos hvalue] at hrest
    cases hrest
    exact ⟨rfl, rfl⟩
  · intro hsilent
    obtain ⟨hX', hs'⟩ := yieldless_of_stepFor hX hs hstep
    have hm' : m'.config.stepLimit = none := by
      rw [config_of_step (step_eq_ok.mpr ⟨rest + 1, hstep⟩), hm]
    have hrest₁ : runWith (advanceFor (rest + 1)) rest X' (m'.after 1) = .ok v (m₁.after 1) := by
      have hshift := (runWith_uncounted (rest + 1) rest X').shift hm' 1
      rw [hshift, hrest]
      rfl
    have hcounted : Hushed X' (m'.after 1) := ⟨hX', hs', hsilent⟩
    apply step_atomic hm
    rw [atomicWithin_of_silent hv hadvance₁ hsilent]
    exact atomicWithin_of_runWith hcounted hrest₁
  · intro hraised
    apply step_atomic hm
    exact atomicWithin_of_raised hv hadvance₁ hraised

end

/-- A run of a term without `yield`, on entities without it and without a step limit, is done by one step of the
`atomic` around the term, if the signal is not raised beforehand. Whether it is or not, the step comes to the value of
the run, with all other entities as the run leaves them, exactly if the term is a value, or its first step comes to one
or leaves the signal not raised. -/
theorem atomic_runs_to_the_end_iff {X v : Term} {m m₁ : Machine} (hm : m.config.stepLimit = none) (hX : X.Yieldless)
    (hs : m.entities.Yieldless) (hrun : run X m = .ok v m₁) :
    (m.Silent → step (.node (.effect .atomic) [X]) m = .ok v { m₁ with steps := m₁.steps + 1 }) ∧
    ((∃ m', step (.node (.effect .atomic) [X]) m = .ok v m' ∧
        ∀ name, name ≠ Entity.yielded → m'.entities.find? name = m₁.entities.find? name) ↔
      X.isValue = true ∨ ∃ X' m', step X m = .ok X' m' ∧ (X'.isValue = true ∨ m'.Silent)) := by
  refine ⟨fun hsilent => step_atomic_of_hushed hm ⟨hX, hs, hsilent⟩ hrun, ?_⟩
  rcases hv : X.isValue with _ | _
  · obtain ⟨X', m', hstep, hvalue, hsilent, hraised⟩ := step_atomic_of_first hm hX hs hv hrun
    constructor
    · rintro ⟨m₂, hatomic, -⟩
      refine .inr ⟨X', m', hstep, ?_⟩
      by_cases hm' : m'.Silent
      · exact .inr hm'
      · by_cases hX' : X'.isValue = true
        · exact .inl hX'
        · -- the step ends with an `atomic`, and a run ends with a value
          have hstopped := hraised hm'
          rw [if_neg hX'] at hstopped
          cases hatomic.symm.trans hstopped
          have hrunValue := (trace_of_run hrun).isValue
          simp [isValue] at hrunValue
    · rintro (hfalse | ⟨Y, m₂, hY, hend⟩)
      · cases hfalse
      cases hstep.symm.trans hY
      by_cases hm' : m'.Silent
      · exact ⟨_, hsilent hm', fun _ _ => rfl⟩
      · rcases hend with hX' | hm''
        · obtain ⟨rfl, rfl⟩ := hvalue hX'
          have hstopped := hraised hm'
          rw [if_pos hX'] at hstopped
          refine ⟨_, hstopped, ?_⟩
          intro name hname
          show Entities.find? (Entities.remove _ _) name = _
          rw [Entities.find?_remove, if_neg hname]
        · exact absurd hm'' hm'
  · cases hrun.symm.trans (run_of_isValue hv m)
    have hatomic : atomicWithin (advanceFor 0) 0 X (m.after 1) = .ok X (m.after 1) := by
      rw [atomicWithin, if_pos hv]
      rfl
    have hdone := step_atomic hm hatomic
    exact ⟨fun _ => .inl rfl, fun _ => ⟨_, hdone, fun _ _ => rfl⟩⟩

/-- Printing two numbers on a silent machine, the first of them given, takes one step inside `atomic`. -/
theorem atomic_runs_to_the_end_iff_print :
    let X : Term := .node (.effect .give) [.int 1, .node (.flow .sequential)
      [.seq [.node (.effect .print) [.seq [.node (.effect .given) []]], .node (.effect .print) [.seq [.int 2]]], .int 3]]
    let m : Machine := ⟨{ stepLimit := none }, .empty, ⟨0⟩, 0⟩
    let m₁ : Machine := ⟨{ stepLimit := none }, ⟨[(Entity.standardOut, .seq [.int 1, .int 2])]⟩, ⟨0⟩, 15⟩
    X.Yieldless ∧ m.entities.Yieldless ∧ m.Silent ∧ run X m = .ok (.int 3) m₁ ∧
      step (.node (.effect .atomic) [X]) m = .ok (.int 3) { m₁ with steps := 16 } ∧
      ∃ X' m', step X m = .ok X' m' ∧ (X'.isValue = true ∨ m'.Silent) := by
  intro X m m₁
  have hX : X.Yieldless := by decide
  have hs : m.entities.Yieldless := by
    intro name t ht
    cases ht
  have hrun : run X m = .ok (.int 3) m₁ := run_eq_ok.mpr ⟨12, by decide +kernel +zetaReduce⟩
  obtain ⟨hsilent, hiff⟩ := atomic_runs_to_the_end_iff rfl hX hs hrun
  have hstep := hsilent rfl
  have hfirst := hiff.mp ⟨_, hstep, fun _ _ => rfl⟩
  exact ⟨hX, hs, rfl, hrun, hstep, hfirst.resolve_left (by decide)⟩

/-- A run of `yield` leaves the signal raised, and the next `atomic` ends after the first step of its body. Nothing in
it yields, and a run of the body would have printed both numbers. -/
theorem atomic_stops_at_an_earlier_signal :
    let print : Int → Term := fun n => .node (.effect .print) [.seq [.int n]]
    let X : Term := .node (.flow .sequential) [.seq [print 1, print 2], .int 3]
    let X' : Term := .node (.flow .sequential) [.seq [.null, print 2], .int 3]
    let m₀ : Machine := ⟨{ stepLimit := none }, .empty, ⟨0⟩, 0⟩
    let m : Machine := ⟨{ stepLimit := none }, ⟨[(Entity.yielded, signal)]⟩, ⟨0⟩, 1⟩
    run (.node (.effect .yield) []) m₀ = .ok .null m ∧ X.Yieldless ∧ m.entities.Yieldless ∧
      ∃ m₁ m₂, run X m = .ok (.int 3) m₁ ∧ step (.node (.effect .atomic) [X]) m = .ok (.node (.effect .atomic) [X']) m₂ ∧
        m₁.entities.stream Entity.standardOut = [.int 1, .int 2] ∧ m₂.entities.stream Entity.standardOut = [.int 1] := by
  intro print X X' m₀ m
  have hyield : run (.node (.effect .yield) []) m₀ = .ok .null m := run_eq_ok.mpr ⟨4, rfl⟩
  have hs : m.entities.Yieldless := by
    intro name t ht
    simp only [m, Entities.find?, Entities.search] at ht
    split at ht
    · cases ht
      decide
    · cases ht
  have hrun : run X m = .ok (.int 3) { m with
      entities := ⟨[(Entity.yielded, signal), (Entity.standardOut, .seq [.int 1, .int 2])]⟩, steps := 7 } :=
    run_eq_ok.mpr ⟨12, by decide +kernel +zetaReduce⟩
  have hstep : step (.node (.effect .atomic) [X]) m = .ok (.node (.effect .atomic) [X']) { m with
      entities := ⟨[(Entity.standardOut, .seq [.int 1])]⟩, steps := 4 } :=
    step_eq_ok.mpr ⟨12, by decide +kernel +zetaReduce⟩
  exact ⟨hyield, by decide, hs, _, _, hrun, hstep, rfl, rfl⟩

end TermMachine
