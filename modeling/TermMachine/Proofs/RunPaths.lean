import TermMachine.Proofs.Descent
import TermMachine.Proofs.Parts
import TermMachine.Proofs.StuckSteps

/-!
# The path of a run

A run is a row of steps. In the course of a step the engine turns to terms inside: to an element of a row or to a parameter
of a node, once those before it were tried and taken back, to the argument that a lazy rule steps, and to the body of an
`atomic`. A parameter and the body of an `atomic` take steps of their own there. So a state of a run has a past, the steps
that were taken on the way to it, and the two belong together: what is said of the past of a state is said of this run and
no other. An argument that no step turns to, such as the branch that is not taken, is on no path.

Proved:
* `TurnsTo.carries`: what holds of the parts of a term, and is kept by steps, holds where the engine turns to.
* `stands_of_execute`: an execution ends where the run stands after its last step.
-/

namespace TermMachine

open Term Eval Engine Rules

namespace Term

variable {u : Term} {items : List Term}

theorem mem_parts_of_param {op : Operator} (hu : u ∈ items) : u ∈ (node op items).parts :=
  mem_parts_node.mpr (.inr ⟨u, hu, mem_parts_self u⟩)

theorem mem_parts_of_item (hu : u ∈ items) : u ∈ (seq items).parts := mem_parts_seq.mpr (.inr ⟨u, hu, mem_parts_self u⟩)

theorem mem_parts_of_element {t : Term} (hu : u ∈ t.elements) : u ∈ t.parts := by
  cases t with
  | seq items => exact mem_parts_of_item hu
  | spread items => exact mem_parts_spread.mpr (.inr ⟨u, hu, mem_parts_self u⟩)
  | _ =>
    rw [List.mem_singleton.mp hu]
    exact mem_parts_self _

end Term

/-! ## Inside a step -/

/-- Attempts that are made one after the other, where each gets stuck and is taken back. -/
inductive GivesUp {α : Type} (attempt : α → Eval Term) : List α → Machine → Machine → Prop
  | nil {m : Machine} : GivesUp attempt [] m m
  | cons {a : α} {rest : List α} {cause : Stuck} {m m₁ m' : Machine} : speculate (attempt a) m = .ok (.error cause) m₁ →
      GivesUp attempt rest m₁ m' → GivesUp attempt (a :: rest) m m'

/-- A term is advanced, and each step ends on a machine with the property. The steps that were taken are listed with the
machines on which they were, the last one first. -/
inductive Takes (P : Machine → Prop) (t : Term) (m : Machine) : List (Term × Machine) → Term → Machine → Prop
  | none : Takes P t m [] t m
  | step {taken : List (Term × Machine)} {u v : Term} {m₁ m' : Machine} : Takes P t m taken u m₁ → u.isValue = false →
      advanceWith step u m₁ = .ok v m' → P m' → Takes P t m ((u, m₁) :: taken) v m'

/-- In the course of a step of the first term on the first machine, the engine turns to the second on the second. What
stands there has taken these steps since the first of them began. -/
inductive TurnsTo : Term → Machine → List (Term × Machine) → Term → Machine → Prop
  | element {t u : Term} {items before after : List Term} {m m' : Machine} : t = .seq items ∨ t = .spread items →
      items.filter isReducible = before ++ u :: after → GivesUp step before m m' → TurnsTo t m [] u m'
  | parameter {op : Operator} {params : List Term} {index : Nat} {u v : Term} {before after : List (Nat × Term)}
      {taken : List (Term × Machine)} {m m₁ m₂ m' : Machine} : charge m = .ok () m₁ →
      pending op params = before ++ (index, u) :: after →
      GivesUp (fun p => run p.2 >>= replaceParam op params p.1) before m₁ m₂ → Takes (fun _ => True) u m₂ taken v m' →
      TurnsTo (.node op params) m taken v m'
  | argument {op : Operator} {params : List Term} {u : Term} {s : Entities} {m m₁ : Machine} : charge m = .ok () m₁ →
      pending op params = [] → Defers params m₁.entities op u s →
      TurnsTo (.node op params) m [] u { m₁ with entities := s }
  | body {params : List Term} {X u : Term} {taken : List (Term × Machine)} {m m₁ m' : Machine} :
      charge m = .ok () m₁ → params[0]? = some X → Takes Machine.Silent X m₁ taken u m' →
      TurnsTo (.node (.effect .atomic) params) m taken u m'

/-- In the course of a step the engine comes to a step of a term in it, or of the term itself. -/
inductive Enters (t : Term) (m : Machine) : Term → Machine → Prop
  | here : Enters t m t m
  | inside {u v : Term} {taken : List (Term × Machine)} {m₁ m' : Machine} : Enters t m u m₁ → TurnsTo u m₁ taken v m' →
      Enters t m v m'

/-! ## The states of a run -/

/-- Where a run stands before a step: the steps taken on the way, the terms that are being run, the innermost first, and the
machine. Of the outermost term one step is taken after the other, also when one has halted. -/
inductive Stands (t₀ : Term) (m₀ : Machine) : List (Term × Machine) → List Term → Machine → Prop
  | start : Stands t₀ m₀ [] [t₀] m₀
  | step {taken : List (Term × Machine)} {t t' : Term} {m m' : Machine} : Stands t₀ m₀ taken [t] m →
      step t m = .ok t' m' → Stands t₀ m₀ ((t, m) :: taken) [t'] m'
  | halt {taken : List (Term × Machine)} {t : Term} {m m' : Machine} {halt : Halt} : Stands t₀ m₀ taken [t] m →
      step t m = .error halt m' → Stands t₀ m₀ ((t, m) :: taken) [t] m'
  | inside {taken more : List (Term × Machine)} {t u : Term} {outer : List Term} {m m' : Machine} :
      Stands t₀ m₀ taken (t :: outer) m → TurnsTo t m more u m' → Stands t₀ m₀ (more ++ taken) (u :: t :: outer) m'

/-- The states that a run passes through: where it stands, and what a step leaves there. -/
inductive Passes (t₀ : Term) (m₀ : Machine) : List (Term × Machine) → List Term → Machine → Prop
  | before {taken : List (Term × Machine)} {terms : List Term} {m : Machine} : Stands t₀ m₀ taken terms m →
      Passes t₀ m₀ taken terms m
  | after {taken : List (Term × Machine)} {t t' : Term} {outer : List Term} {m m' : Machine} :
      Stands t₀ m₀ taken (t :: outer) m → step t m = .ok t' m' → Passes t₀ m₀ ((t, m) :: taken) (t' :: outer) m'
  | halt {taken : List (Term × Machine)} {t : Term} {outer : List Term} {m m' : Machine} {halt : Halt} :
      Stands t₀ m₀ taken (t :: outer) m → step t m = .error halt m' → Passes t₀ m₀ ((t, m) :: taken) (t :: outer) m'

/-- Some term is always being run. -/
theorem Passes.innermost {t₀ : Term} {m₀ m : Machine} {taken : List (Term × Machine)} {terms : List Term}
    (h : Passes t₀ m₀ taken terms m) : ∃ t outer, terms = t :: outer := by
  cases h with
  | before hstands => cases hstands <;> exact ⟨_, _, rfl⟩
  | after _ _ => exact ⟨_, _, rfl⟩
  | halt _ _ => exact ⟨_, _, rfl⟩

/-! ## Where nothing is entered -/

/-- A rule that steps no argument turns to none, whichever of them it gives back. -/
theorem not_turnsTo_of_rule {op : Operator} {params : List Term} {taken : List (Term × Machine)} {u : Term} {m m' : Machine}
    (hpending : pending op params = []) (hop : stepsArgument op = false) : ¬ TurnsTo (.node op params) m taken u m' := by
  intro h
  cases h with
  | element ht _ _ => rcases ht with ht | ht <;> cases ht
  | parameter _ hsplit _ _ =>
    rw [hpending] at hsplit
    simp at hsplit
  | argument _ _ hdefers =>
    cases hdefers with
    | _ => cases hop
  | body _ _ _ => cases hop

theorem enters_of_rule {op : Operator} {params : List Term} {u : Term} {m m' : Machine} (hpending : pending op params = [])
    (hop : stepsArgument op = false) (h : Enters (.node op params) m u m') : u = .node op params ∧ m' = m := by
  induction h with
  | here => exact ⟨rfl, rfl⟩
  | inside _ hturns ih =>
    obtain ⟨rfl, rfl⟩ := ih
    exact absurd hturns (not_turnsTo_of_rule hpending hop)

/-! ## What carries over -/

/-- What was given up has left the entities as they were. -/
theorem GivesUp.entities {α : Type} {attempt : α → Eval Term} {tried : List α} {m m' : Machine}
    (h : GivesUp attempt tried m m') : m'.entities = m.entities := by
  induction h with
  | nil => rfl
  | cons hstuck _ ih =>
    rcases speculate_eq_ok.mp hstuck with ⟨_, hok, -⟩ | ⟨_, m₂, -, -, rfl⟩
    · cases hok
    · exact ih

/-- What a term is run to, it has come to by steps. -/
theorem Takes.runWith {fuel rounds : Nat} {taken : List (Term × Machine)} {t u v : Term} {m m₁ m' : Machine}
    (htakes : Takes (fun _ => True) t m taken u m₁) (h : Engine.runWith (advanceFor fuel) rounds u m₁ = .ok v m') :
    ∃ taken, Takes (fun _ => True) t m taken v m' := by
  induction rounds generalizing taken u m₁ with
  | zero =>
    unfold Engine.runWith at h
    split at h <;> cases h
    exact ⟨taken, htakes⟩
  | succ rounds ih =>
    unfold Engine.runWith at h
    split at h
    · cases h
      exact ⟨taken, htakes⟩
    · rename_i hv
      obtain ⟨next, m₂, hnext, h⟩ := Eval.bind_eq_ok.mp h
      exact ih (htakes.step (by simpa using hv) (advanceFor_ok hnext) trivial) h

/-- A parameter that some amount of fuel gets stuck with is stuck. -/
theorem Engine.run_bind_of_runFor_stuck {fuel : Nat} {t : Term} {f : Term → Eval Term} {m m' : Machine} {cause : Stuck}
    (h : (runFor fuel t >>= f) m = .error (.stuck cause) m') : (run t >>= f) m = .error (.stuck cause) m' := by
  have hrun : Refines (runFor fuel t) (run t) := fun _ => run_eq_of_fuel
  rw [hrun.bind (fun _ => .refl _) m (by rw [h]; trivial), h]

/-- What is known of a term and of the entities, given the steps taken before, is known again after a step. -/
def KeptBySteps (State : List (Term × Machine) → Term → Entities → Prop) : Prop :=
  ∀ past t t' m m', State past t m.entities → t.isValue = false → step t m = .ok t' m' →
    State ((t, m) :: past) t' m'.entities

section
variable {State : List (Term × Machine) → Term → Entities → Prop} (hState : KeptBySteps State)
include hState

theorem Takes.carries {P : Machine → Prop} {taken past : List (Term × Machine)} {t u : Term} {m m' : Machine}
    (h : Takes P t m taken u m') (ht : State past t m.entities) : State (taken ++ past) u m'.entities := by
  induction h with
  | none => exact ht
  | step _ hv hadvance _ ih => exact hState _ _ _ _ _ ih hv (advanceWith_ok hadvance)

/-- What is kept by steps, and holds of the parts of a term and of the body of `give` with the value given, holds where the
engine turns to in the course of a step. -/
theorem TurnsTo.carries {taken : List (Term × Machine)} {t u : Term} {m m' : Machine} (h : TurnsTo t m taken u m')
    (past : List (Term × Machine)) (part : ∀ u ∈ t.parts, State past u m.entities)
    (given : ∀ {params value body}, t = .node (.effect .give) params → pending (.effect .give) params = [] →
      params[0]? = some value → params[1]? = some body → State past body (m.entities.put Entity.givenValue value)) :
    State (taken ++ past) u m'.entities := by
  cases h with
  | @element _ _ items before after _ _ ht hsplit hgives =>
    rw [hgives.entities]
    have hmem : u ∈ items := List.mem_of_mem_filter (hsplit ▸ by simp : u ∈ items.filter isReducible)
    refine part u (mem_parts_of_element ?_)
    rcases ht with rfl | rfl
    · exact hmem
    · exact hmem
  | @parameter op params index first _ before after _ _ m₁ m₂ _ hcharge hpending hgives htakes =>
    have hmem : (index, first) ∈ pending op params := hpending ▸ by simp
    obtain ⟨_, -, -, hparam, -⟩ := mem_pending.mp hmem
    refine htakes.carries hState ?_
    rw [hgives.entities, charge_eq_ok hcharge]
    exact part first (mem_parts_of_param (List.mem_of_getElem? hparam))
  | @argument op params _ s _ m₁ hcharge hpending hdefers =>
    obtain rfl := charge_eq_ok hcharge
    have hrow : ∀ {items : List Term}, params[0]? = some (.seq items) → ∀ v ∈ items, State past v m.entities := by
      intro items hitems v hv
      exact part v (parts_trans (mem_parts_of_param (List.mem_of_getElem? hitems)) (mem_parts_of_item hv))
    cases hdefers with
    | leftToRight hitems hindex =>
      obtain ⟨v, hv, -⟩ := firstReducible?_chooses _ _ hindex
      rw [Sequence.get_of_getElem? hv]
      exact hrow hitems v (List.mem_of_getElem? hv)
    | rightToLeft hitems hindex =>
      obtain ⟨v, hv, -⟩ := lastReducible?_chooses _ _ hindex
      rw [Sequence.get_of_getElem? hv]
      exact hrow hitems v (List.mem_of_getElem? hv)
    | sequential hitems _ => exact hrow hitems _ (by simp)
    | give hvalue hbody _ => exact given rfl hpending hvalue hbody
  | @body params X _ _ _ m₁ _ hcharge hX htakes =>
    refine htakes.carries hState ?_
    rw [charge_eq_ok hcharge]
    exact part X (mem_parts_of_param (List.mem_of_getElem? hX))

end

/-! ## Executions -/

/-- A program is advanced by steps, so it ends where its run stands. -/
theorem stands_of_driveWith {fuel rounds : Nat} {t₀ t : Term} {taken : List (Term × Machine)} {m₀ m m' : Machine}
    {outcome : Outcome} (hstands : Stands t₀ m₀ taken [t] m)
    (h : Execution.driveWith (advanceFor fuel) rounds t m = .ok outcome m') :
    ∃ taken last, Stands t₀ m₀ taken [last] m' ∧
      (last.isValue = true ∧ outcome = .value (Execution.normalize last) ∨ ∃ cause, outcome = .stuck last cause) := by
  induction rounds generalizing taken t m with
  | zero =>
    unfold Execution.driveWith at h
    split at h
    · cases h
      exact ⟨taken, t, hstands, .inl ⟨‹_›, rfl⟩⟩
    · cases h
  | succ rounds ih =>
    unfold Execution.driveWith at h
    split at h
    · cases h
      exact ⟨taken, t, hstands, .inl ⟨‹_›, rfl⟩⟩
    · obtain ⟨r, m₁, hr, h⟩ := Eval.bind_eq_ok.mp h
      rcases recover_eq_ok.mp hr with ⟨next, rfl, hadvance⟩ | ⟨cause, rfl, hadvance⟩
      · exact ih (hstands.step (step_eq_ok.mpr ⟨fuel, advanceWith_ok hadvance⟩)) h
      · cases h
        rcases advanceWith_error hadvance with hstep | ⟨-, hstep, -⟩
        · exact ⟨_, t, hstands.halt (step_of_stepFor_error hstep), .inr ⟨cause, rfl⟩⟩
        · exact ⟨_, t, hstands.step (step_eq_ok.mpr ⟨fuel, hstep⟩), .inr ⟨cause, rfl⟩⟩

/-- An execution ends where the run of the program stands, once it has its inputs. -/
theorem stands_of_execute {t : Term} {inputs : List Term} {m m₀ m' : Machine} {execution : Execution}
    (hsupply : Execution.supply inputs m₀ = .ok () m) (h : execute t inputs m₀ = .ok execution m') :
    ∃ taken last, Stands t m taken [last] m' ∧
      (last.isValue = true ∧ execution.outcome = .value (Execution.normalize last) ∨
        ∃ cause, execution.outcome = .stuck last cause) ∧
      execution.standardOut = m'.entities.stream Entity.standardOut ∧ execution.store = m'.entities.get Entity.store := by
  obtain ⟨fuel, hfuel⟩ := (execute_eq_iff (by trivial)).mp h
  obtain ⟨_, m₁, hm₁, hrest⟩ := Eval.bind_eq_ok.mp hfuel
  cases hsupply.symm.trans hm₁
  obtain ⟨outcome, m₂, hdrive, hreport⟩ := Eval.bind_eq_ok.mp hrest
  cases hreport
  obtain ⟨taken, last, hstands, hend⟩ := stands_of_driveWith .start hdrive
  exact ⟨taken, last, hstands, hend, rfl, rfl⟩

end TermMachine
