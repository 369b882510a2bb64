import TermMachine.Proofs.Composition
import TermMachine.Proofs.Fuel

/-!
# Relations that the engine keeps

The engine changes a machine in few ways: it counts steps, draws choices, puts the entities back after
a failed attempt, applies the rules on entities, binds `given-value` around a step and clears the
signal of `atomic`. A relation between machines that allows these (`Allows`) holds between the machine
before and the machine after a computation of the engine, whatever it ended with.

Proved:
* `composes_keeps`: to stay within such a relation composes.
* `keeps_step` / `keeps_run`: `step` and `run` keep every such relation.
* `keeps_execute`: so does `execute`, if the relation allows for the inputs too.
* `allows_config`: the configuration is one of the things that never change.
-/

namespace TermMachine

open Term Eval Rules

namespace Eval

variable {α β : Type}

def machineAfter : EStateM.Result Halt Machine α → Machine
  | .ok _ m => m
  | .error _ m => m

@[simp] theorem machineAfter_ok (a : α) (m : Machine) :
    machineAfter (.ok a m : EStateM.Result Halt Machine α) = m := rfl

@[simp] theorem machineAfter_error (halt : Halt) (m : Machine) :
    machineAfter (.error halt m : EStateM.Result Halt Machine α) = m := rfl

/-- A computation stays within a relation, whatever it ends with. -/
def Keeps (R : Machine → Machine → Prop) (x : Eval α) : Prop := ∀ m, R m (machineAfter (x m))

end Eval

/-- A relation between machines that allows every change the engine makes. -/
structure Allows (R : Machine → Machine → Prop) : Prop where
  refl : ∀ m, R m m
  trans : ∀ {m₁ m₂ m₃}, R m₁ m₂ → R m₂ m₃ → R m₁ m₃
  charge : ∀ m, R m { m with steps := m.steps + 1 }
  choices : ∀ m choices, R m { m with choices }
  restore : ∀ {m m'}, R m m' → R m { m' with entities := m.entities }
  effect : ∀ {m params op t s}, Effected params m.entities op t s → R m { m with entities := s }
  bound : ∀ {m m'} value, R { m with entities := m.entities.put Entity.givenValue value } m' →
    R m { m' with entities := m'.entities.assign Entity.givenValue (m.entities.find? Entity.givenValue) }
  cleared : ∀ m, R m { m with entities := m.entities.remove Entity.yielded }

namespace Eval.Keeps

variable {α β : Type} {R : Machine → Machine → Prop} (hR : Allows R)
include hR

theorem pure (a : α) : Keeps R (pure a) := fun m => hR.refl m

theorem stuck (cause : Stuck) : Keeps R (stuck cause : Eval α) := fun m => hR.refl m

theorem bind {x : Eval α} {f : α → Eval β} (hx : Keeps R x) (hf : ∀ a, Keeps R (f a)) :
    Keeps R (x >>= f) := by
  intro m
  have h₁ := hx m
  rcases hr : x m with ⟨a, m₁⟩ | ⟨halt, m₁⟩
  · rw [hr] at h₁
    rw [bind_of_ok hr]
    exact hR.trans h₁ (hf a m₁)
  · rw [hr] at h₁
    rw [bind_of_error hr]
    exact h₁

theorem charge : Keeps R Eval.charge := by
  intro m
  rcases hr : Eval.charge m with ⟨u, m₁⟩ | ⟨halt, m₁⟩
  · rw [charge_eq_ok hr]
    exact hR.charge m
  · unfold Eval.charge at hr
    simp only at hr
    split at hr
    · split at hr <;> cases hr
      exact hR.charge m
    · cases hr

theorem speculate {x : Eval α} (hx : Keeps R x) : Keeps R (speculate x) := by
  intro m
  have h := hx m
  unfold Eval.speculate
  rcases hr : x m with ⟨a, m₁⟩ | ⟨halt, m₁⟩
  · rw [hr] at h
    exact h
  · rw [hr] at h
    cases halt with
    | stuck cause => exact hR.restore h
    | stepLimit limit => exact h
    | outOfFuel => exact h

theorem withGiven {value : Term} {x : Eval α} (hx : Keeps R x) : Keeps R (withGiven value x) := by
  intro m
  have h := hx { m with entities := m.entities.put Entity.givenValue value }
  unfold Rules.withGiven
  rcases hr : x { m with entities := m.entities.put Entity.givenValue value } with ⟨a, m₁⟩ | ⟨halt, m₁⟩
  · rw [hr] at h
    exact hR.bound value h
  · rw [hr] at h
    exact hR.bound value h

theorem takeYield : Keeps R takeYield := fun m => hR.cleared m

omit hR in
theorem recover {x : Eval α} (hx : Keeps R x) : Keeps R (recover x) := by
  intro m
  have h := hx m
  unfold Eval.recover
  rcases hr : x m with ⟨a, m₁⟩ | ⟨halt, m₁⟩
  · rw [hr] at h
    exact h
  · rw [hr] at h
    cases halt with
    | _ => exact h

end Eval.Keeps

namespace Engine

variable {R : Machine → Machine → Prop}

theorem advanceWith_keeps {step : Term → Eval Term} {t : Term} (hs : Keeps R (step t)) : Keeps R (advanceWith step t) := by
  intro m
  have h := hs m
  rw [advanceWith, bind_of_ok (get_apply m)]
  rcases hr : step t m with ⟨next, m₁⟩ | ⟨halt, m₁⟩
  · rw [hr] at h
    rw [bind_of_ok hr, bind_of_ok (entities_apply m₁)]
    split
    · exact h
    · exact h
  · rw [hr] at h
    rw [bind_of_error hr]
    exact h

variable (hR : Allows R)
include hR

theorem fired_keeps {params : List Term} {op : Operator} {t : Term} {m m' : Machine}
    (h : Fired params m op t m') : R m m' := by
  cases h with
  | choice => exact hR.choices _ _
  | collection => exact hR.choices _ _
  | entities he => exact hR.effect he
  | _ => exact hR.refl _

theorem composes_keeps : Composes fun _ x => Keeps R x where
  pure a := .pure hR a
  stuck cause := .stuck hR cause
  outOfFuel m := hR.refl m
  bind hx hf := .bind hR hx hf
  charge := .charge hR
  speculate hx := .speculate hR hx
  recover hx := .recover hx
  withGiven hx := .withGiven hR hx
  takeYield := .takeYield hR
  advance hs := advanceWith_keeps hs
  rule hop m := by
    rcases applyRule_cases hop (rfl : applyRule _ _ _ _ _ m = _) with ⟨reason, hr⟩ | ⟨t, m', hfired, hr⟩
    · rw [hr]
      exact hR.refl m
    · rw [hr]
      exact fired_keeps hR hfired

theorem stepFor_keeps (fuel : Nat) (t : Term) : Keeps R (stepFor fuel t) := (composes_keeps hR).stepFor fuel t

theorem runFor_keeps (fuel : Nat) (t : Term) : Keeps R (runFor fuel t) := (composes_keeps hR).runFor fuel t

end Engine

theorem settle_keeps {α : Type} {R : Machine → Machine → Prop} (hR : Allows R) {x : Nat → Eval α}
    (hx : ∀ fuel, Keeps R (x fuel)) : Keeps R (settle x) := by
  intro m
  unfold settle
  rcases hr : attempt x m m.fuel with _ | r
  · exact hR.refl m
  · obtain ⟨-, n, rfl⟩ := attempt_eq_some hr
    exact hx n m

theorem keeps_step {R : Machine → Machine → Prop} (hR : Allows R) (t : Term) : Keeps R (step t) :=
  settle_keeps hR fun fuel => Engine.stepFor_keeps hR fuel t

theorem keeps_run {R : Machine → Machine → Prop} (hR : Allows R) (t : Term) : Keeps R (run t) :=
  settle_keeps hR fun fuel => Engine.runFor_keeps hR fuel t

/-! ## Executions -/

theorem keeps_execute {R : Machine → Machine → Prop} (hR : Allows R) {inputs : List Term}
    (hsupply : Keeps R (Execution.supply inputs)) (t : Term) : Keeps R (execute t inputs) := by
  refine settle_keeps hR fun fuel => .bind hR hsupply fun _ => .bind hR ?_ fun outcome => fun m => hR.refl m
  exact (Engine.composes_keeps hR).driveWith ((Engine.composes_keeps hR).advanceFor fuel) fuel t

/-! ## The configuration -/

theorem allows_config : Allows fun m m' => m'.config = m.config where
  refl _ := rfl
  trans h₁ h₂ := h₂.trans h₁
  charge _ := rfl
  choices _ _ := rfl
  restore h := h
  effect _ := rfl
  bound _ h := h
  cleared _ := rfl

end TermMachine
