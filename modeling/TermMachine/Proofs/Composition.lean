import TermMachine.Execution
import TermMachine.Proofs.RuleCases

/-!
# How the engine puts computations together

The engine has few primitives of its own: it counts a step, makes an attempt, gives a value, clears the signal, compares
a term with the one before, and applies a rule that steps no argument. All else is put together from these, in sequence
and by recursion on fuel. A property of computations that holds of the primitives and is kept by these compositions
(`Composes`) holds of every step, run and execution.

Of the machine, a rule that steps no argument sees the entities and the choices only. A change of the machine beside
these makes no difference to what it does (`Unseen`).

Proved:
* `Composes.stepFor`, `Composes.runFor`, `Composes.driveWith`: what composes holds of the engine.
* `applyRule_unseen`: what a rule makes of a machine that was changed beside the entities and the choices.
-/

namespace TermMachine

open Term Eval Rules

/-! ## Properties that compose -/

/-- A property that the primitives of the engine have, and that every way to put computations together keeps. -/
structure Composes (P : (α : Type) → Eval α → Prop) : Prop where
  pure : ∀ {α : Type} (a : α), P α (pure a)
  stuck : ∀ {α : Type} (cause : Stuck), P α (stuck cause)
  outOfFuel : ∀ {α : Type}, P α (throw .outOfFuel)
  bind : ∀ {α β : Type} {x : Eval α} {f : α → Eval β}, P α x → (∀ a, P β (f a)) → P β (x >>= f)
  charge : P Unit charge
  speculate : ∀ {α : Type} {x : Eval α}, P α x → P (Except Stuck α) (speculate x)
  recover : ∀ {α : Type} {x : Eval α}, P α x → P (Except Stuck α) (recover x)
  withGiven : ∀ {α : Type} {value : Term} {x : Eval α}, P α x → P α (withGiven value x)
  takeYield : P Bool takeYield
  advance : ∀ {step : Term → Eval Term} {t : Term}, P Term (step t) → P Term (Engine.advanceWith step t)
  rule : ∀ {step advance : Term → Eval Term} {rounds : Nat} {op : Operator} {params : List Term},
    Engine.stepsArgument op = false → P Term (Engine.applyRule step advance rounds op params)

namespace Composes

variable {P : (α : Type) → Eval α → Prop} (hP : Composes P)
include hP

theorem ofRule {α : Type} (op : Operator) (r : Except Reason α) : P α (ofRule op r) := by
  cases r with
  | ok a => exact hP.pure a
  | error reason => exact hP.stuck _

mutual
theorem stepWith {s : Operator → List Term → Eval Term} (hs : ∀ op params, P Term (s op params)) (t : Term) :
    P Term (Engine.stepWith s t) := by
  cases t with
  | seq items =>
    simp only [Engine.stepWith]
    split
    · exact hP.pure _
    · exact hP.bind (stepFirst hs none items) fun _ => hP.pure _
  | spread items =>
    simp only [Engine.stepWith]
    split
    · exact hP.pure _
    · exact hP.bind (stepFirst hs none items) fun _ => hP.pure _
  | node op params =>
    simp only [Engine.stepWith]
    exact hs op params
  | _ =>
    simp only [Engine.stepWith]
    exact hP.pure _

theorem stepFirst {s : Operator → List Term → Eval Term} (hs : ∀ op params, P Term (s op params))
    (blocked : Option Stuck) (items : List Term) : P (List Term) (Engine.stepFirst s blocked items) := by
  match items with
  | [] =>
    cases blocked with
    | none =>
      simp only [Engine.stepFirst]
      exact hP.pure _
    | some cause =>
      simp only [Engine.stepFirst]
      exact hP.stuck _
  | t :: rest =>
    simp only [Engine.stepFirst]
    split
    · exact hP.bind (stepFirst hs blocked rest) fun _ => hP.pure _
    · refine hP.bind (hP.speculate (stepWith hs t)) fun r => ?_
      cases r with
      | ok next => exact hP.pure _
      | error cause => exact hP.bind (stepFirst hs (some cause) rest) fun _ => hP.pure _
end

/-! ## Loops and rules -/

section
variable {step : Term → Eval Term} (hs : ∀ t, P Term (step t))
include hs

theorem runWith (rounds : Nat) (t : Term) : P Term (Engine.runWith step rounds t) := by
  induction rounds generalizing t with
  | zero =>
    unfold Engine.runWith
    split
    · exact hP.pure _
    · exact hP.outOfFuel
  | succ rounds ih =>
    unfold Engine.runWith
    split
    · exact hP.pure _
    · exact hP.bind (hs t) ih

theorem reducePending (op : Operator) (params : List Term) (blocked : Option Stuck) (rest : List (Nat × Term)) :
    P (Option Term) (Engine.reducePending step op params blocked rest) := by
  induction rest generalizing blocked with
  | nil =>
    cases blocked with
    | none => exact hP.pure _
    | some cause => exact hP.stuck _
  | cons p rest ih =>
    obtain ⟨index, t⟩ := p
    have hreplace : ∀ value, P Term (Engine.replaceParam op params index value) := by
      intro value
      unfold Engine.replaceParam
      split
      · split
        · split
          · exact hP.pure _
          · exact hP.stuck _
        · exact hP.pure _
      · exact hP.pure _
    simp only [Engine.reducePending]
    refine hP.bind (hP.speculate (hP.bind (hs t) hreplace)) fun r => ?_
    cases r with
    | ok next => exact hP.pure _
    | error cause => exact ih _

theorem stepOne (op : Operator) (choose : List Term → Option Nat) (params : List Term) :
    P Term (Rules.stepOne step op choose params) := by
  refine hP.bind (hP.ofRule _ _) fun items => ?_
  split
  · exact hP.pure _
  · exact hP.bind (hs _) fun _ => hP.pure _

theorem sequential (params : List Term) : P Term (Rules.sequential step params) := by
  refine hP.bind (hP.ofRule _ _) fun statements => hP.bind (hP.ofRule _ _) fun last => ?_
  split
  · exact hP.pure _
  · split
    · exact hP.bind (hs _) fun _ => hP.pure _
    · split
      · exact hP.pure _
      · exact hP.stuck _

theorem give (params : List Term) : P Term (Rules.give step params) := by
  refine hP.bind (hP.ofRule _ _) fun value => hP.bind (hP.ofRule _ _) fun body => ?_
  split
  · exact hP.pure _
  · exact hP.bind (hP.withGiven (hs body)) fun _ => hP.pure _

theorem atomicWithin (rounds : Nat) (body : Term) : P Term (Rules.atomicWithin step rounds body) := by
  induction rounds generalizing body with
  | zero =>
    unfold Rules.atomicWithin
    split
    · exact hP.pure _
    · exact hP.outOfFuel
  | succ rounds ih =>
    unfold Rules.atomicWithin
    split
    · exact hP.pure _
    · refine hP.bind (hs body) fun next => hP.bind hP.takeYield fun raised => ?_
      cases raised with
      | true => exact hP.pure _
      | false => exact ih next

theorem driveWith (rounds : Nat) (t : Term) : P Outcome (Execution.driveWith step rounds t) := by
  induction rounds generalizing t with
  | zero =>
    unfold Execution.driveWith
    split
    · exact hP.pure _
    · exact hP.outOfFuel
  | succ rounds ih =>
    unfold Execution.driveWith
    split
    · exact hP.pure _
    · refine hP.bind (hP.recover (hs t)) fun r => ?_
      cases r with
      | ok next => exact ih next
      | error cause => exact hP.pure _

end

theorem applyRule {step advance : Term → Eval Term} (hs : ∀ t, P Term (step t)) (ha : ∀ t, P Term (advance t))
    (rounds : Nat) (op : Operator) (params : List Term) :
    P Term (Engine.applyRule step advance rounds op params) := by
  by_cases hop : Engine.stepsArgument op = true
  · unfold Engine.stepsArgument at hop
    split at hop
    · exact hP.stepOne hs _ _ _
    · exact hP.stepOne hs _ _ _
    · exact hP.sequential hs _
    · exact hP.give hs _
    · exact hP.bind (hP.ofRule _ _) fun body => hP.atomicWithin ha rounds body
    · cases hop
  · exact hP.rule (by simpa using hop)

/-! ## Steps -/

theorem stepNode (fuel : Nat) (op : Operator) (params : List Term) : P Term (Engine.stepNode fuel op params) := by
  induction fuel generalizing op params with
  | zero => exact hP.outOfFuel
  | succ fuel ih =>
    have hstep := hP.stepWith ih
    have hadvance : ∀ t, P Term (Engine.advanceFor fuel t) := fun t => hP.advance (hstep t)
    refine hP.bind hP.charge fun _ => hP.bind ?_ fun r => ?_
    · exact hP.reducePending (hP.runWith hadvance fuel) op params none _
    · cases r with
      | some next => exact hP.pure _
      | none => exact hP.applyRule hstep hadvance fuel op params

theorem stepFor (fuel : Nat) (t : Term) : P Term (Engine.stepFor fuel t) := hP.stepWith (hP.stepNode fuel) t

theorem advanceFor (fuel : Nat) (t : Term) : P Term (Engine.advanceFor fuel t) := hP.advance (hP.stepFor fuel t)

theorem runFor (fuel : Nat) (t : Term) : P Term (Engine.runFor fuel t) := hP.runWith (hP.advanceFor fuel) fuel t

end Composes

/-! ## What a rule does not see -/

/-- A change of the machine that leaves the entities and the choices alone. -/
structure Machine.Aside (f : Machine → Machine) : Prop where
  entities : ∀ m s, f { m with entities := s } = { f m with entities := s }
  choices : ∀ m choices, f { m with choices } = { f m with choices }

namespace Machine.Aside

variable {f : Machine → Machine} (hf : Aside f)
include hf

theorem entities_apply (m : Machine) : (f m).entities = m.entities := by
  calc
    (f m).entities = ({ f m with entities := m.entities } : Machine).entities :=
      congrArg Machine.entities (hf.entities m m.entities)
    _ = m.entities := rfl

theorem choices_apply (m : Machine) : (f m).choices = m.choices := by
  calc
    (f m).choices = ({ f m with choices := m.choices } : Machine).choices :=
      congrArg Machine.choices (hf.choices m m.choices)
    _ = m.choices := rfl

end Machine.Aside

namespace Eval

variable {α β : Type}

def onMachine (f : Machine → Machine) : EStateM.Result Halt Machine α → EStateM.Result Halt Machine α
  | .ok a m => .ok a (f m)
  | .error halt m => .error halt (f m)

/-- A computation does not see the change, and leaves it as it is. -/
def Unseen (f : Machine → Machine) (x : Eval α) : Prop := ∀ m, x (f m) = onMachine f (x m)

namespace Unseen

variable {f : Machine → Machine}

theorem pure (a : α) : Unseen f (pure a) := fun _ => rfl

theorem stuck (cause : Stuck) : Unseen f (stuck cause : Eval α) := fun _ => rfl

theorem ofRule (op : Operator) (r : Except Reason α) : Unseen f (ofRule op r) := by
  cases r with
  | ok a => exact pure a
  | error reason => exact stuck _

theorem bind {x : Eval α} {g : α → Eval β} (hx : Unseen f x) (hg : ∀ a, Unseen f (g a)) : Unseen f (x >>= g) := by
  intro m
  have h := hx m
  rcases hr : x m with ⟨a, m₁⟩ | ⟨halt, m₁⟩
  · rw [hr] at h
    rw [bind_of_ok hr, bind_of_ok h]
    exact hg a m₁
  · rw [hr] at h
    rw [bind_of_error hr, bind_of_error h]
    rfl

variable (hf : Machine.Aside f)
include hf

theorem entities_bind {g : Entities → Eval α} (hg : ∀ s, Unseen f (g s)) : Unseen f (entities >>= g) := by
  intro m
  rw [bind_of_ok (entities_apply m), bind_of_ok (entities_apply (f m)), hf.entities_apply]
  exact hg m.entities m

theorem modifyEntities (g : Entities → Entities) : Unseen f (modifyEntities g) := by
  intro m
  rw [modifyEntities_apply, modifyEntities_apply, hf.entities_apply, ← hf.entities]
  rfl

/-- What draws choices and gives the rest of them back. -/
theorem drawn (draw : ChoiceStream → Except Stuck (α × ChoiceStream)) {x : Eval α}
    (hx : ∀ m, x m = match draw m.choices with
      | .ok (a, choices) => .ok a { m with choices }
      | .error cause => .error (.stuck cause) m) : Unseen f x := by
  intro m
  rw [hx, hx, hf.choices_apply]
  rcases draw m.choices with cause | ⟨a, choices⟩
  · rfl
  · simp only [← hf.choices]
    rfl

end Unseen

end Eval

namespace Engine

variable {f : Machine → Machine} (hf : Machine.Aside f)
include hf

theorem choose_unseen (params : List Term) : Unseen f (choose params) := by
  refine .bind (.ofRule _ _) fun options => ?_
  refine .drawn hf (fun choices => match Sequence.pick options choices with
    | some picked => .ok picked
    | none => .error (.rule (.flow .choice) .nothingToChoose)) ?_
  intro m
  rw [bind_of_ok (get_apply m)]
  rcases Sequence.pick options m.choices with _ | ⟨t, choices⟩ <;> rfl

theorem useAtom_unseen (excluded : List Term) : Unseen f (useAtom excluded) :=
  .entities_bind hf fun _ => .bind (.modifyEntities hf _) fun _ => .pure _

theorem effect_unseen {step advance : Term → Eval Term} {rounds : Nat} {op : Operator.Effect} (params : List Term)
    (hop : stepsArgument (.effect op) = false) : Unseen f (effect step advance rounds op params) := by
  cases op with
  | atomic => cases hop
  | give => cases hop
  | yield => exact .bind (.modifyEntities hf _) fun _ => .pure _
  | yieldOnValue => exact .bind (.ofRule _ _) fun _ => .bind (.modifyEntities hf _) fun _ => .pure _
  | given =>
    refine .entities_bind hf fun s => ?_
    split
    · exact .pure _
    · exact .stuck _
  | print => exact .bind (.ofRule _ _) fun _ => .bind (.modifyEntities hf _) fun _ => .pure _
  | read =>
    refine .entities_bind hf fun s => ?_
    split
    · exact .bind (.modifyEntities hf _) fun _ => .pure _
    · exact .stuck _
  | useAtomNotIn => exact .bind (.ofRule _ _) fun _ => useAtom_unseen hf _
  | allocateVariable =>
    exact .bind (.ofRule _ _) fun _ => .bind (useAtom_unseen hf _) fun _ => .bind (.modifyEntities hf _) fun _ => .pure _
  | assign => exact .entities_bind hf fun _ => .bind (.ofRule _ _) fun _ => .bind (.modifyEntities hf _) fun _ => .pure _
  | assigned => exact .entities_bind hf fun _ => .ofRule _ _

/-- A rule that steps no argument sees the entities and the choices only. -/
theorem applyRule_unseen {step advance : Term → Eval Term} {rounds : Nat} {op : Operator} (params : List Term)
    (hop : stepsArgument op = false) : Unseen f (applyRule step advance rounds op params) := by
  cases op with
  | flow g =>
    cases g with
    | leftToRight => cases hop
    | rightToLeft => cases hop
    | sequential => cases hop
    | effect => exact .bind (.ofRule _ _) fun _ => .pure _
    | choice => exact choose_unseen hf _
    | ifTrueElse => exact .ofRule _ _
    | stuck => exact .stuck _
    | fail => exact .stuck _
  | effect g => exact effect_unseen hf params hop
  | collection g =>
    refine .drawn hf (fun choices => match collection g params choices with
      | .ok drawn => .ok drawn
      | .error reason => .error (.rule (.collection g) reason)) ?_
    intro m
    rw [applyRule, bind_of_ok (get_apply m)]
    rcases collection g params m.choices with reason | ⟨t, choices⟩ <;> rfl
  | _ => exact .ofRule _ _

end Engine

end TermMachine
