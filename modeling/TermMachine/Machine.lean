import TermMachine.ChoiceStream
import TermMachine.Config
import TermMachine.Entities
import TermMachine.Stuck

/-!
# The machine

The state in which terms are evaluated: the entities, the stream of choices, the number of steps
taken and the configuration. A computation (`Eval`) changes the state and may halt without a
result; what it did before it halted is kept, and it is `speculate` that takes back the changes to
the entities when a part of a term turns out to be stuck. Choices drawn and steps taken are never
taken back.

A computation halts because a term is stuck, because the step limit is exceeded, or because it
used up its fuel. Only the first can be recovered from. The fuel bounds the depth of evaluation
and the length of its loops. `settle` gives a computation as much of it as it takes, so that what
comes out does not depend on fuel any more: `outOfFuel` is then what is said of a computation that
goes on forever.
-/

namespace TermMachine

structure Machine where
  config : Config
  entities : Entities
  choices : ChoiceStream
  steps : Nat
  deriving DecidableEq

inductive Halt where
  | stuck (cause : Stuck)
  | stepLimit (limit : Nat)
  | outOfFuel
  deriving DecidableEq

def Halt.message : Halt → String
  | stuck cause => cause.message
  | stepLimit limit => "step limit of " ++ toString limit ++ " exceeded"
  | outOfFuel => "out of fuel"

abbrev Eval := EStateM Halt Machine

namespace Machine

def start (config : Config) : Except ConfigError Machine :=
  match config.validate with
  | .error err => .error err
  | .ok () => .ok ⟨config, .empty, .ofSeed config.seed, 0⟩

def unlimitedFuel : Nat := 0x4000000000000000

/-- The fuel to begin with: for the steps that the limit still allows and for the one that exceeds
it. -/
def fuel (m : Machine) : Nat :=
  match m.config.stepLimit with
  | some limit => limit - m.steps + 1
  | none => unlimitedFuel

end Machine

namespace Eval

variable {α : Type}

instance decidableEqResult {ε σ : Type} [DecidableEq ε] [DecidableEq σ] [DecidableEq α] :
    DecidableEq (EStateM.Result ε σ α)
  | .ok a s, .ok b s' => decidable_of_iff (a = b ∧ s = s') (by simp)
  | .error a s, .error b s' => decidable_of_iff (a = b ∧ s = s') (by simp)
  | .ok _ _, .error _ _ => isFalse nofun
  | .error _ _, .ok _ _ => isFalse nofun

def stuck (cause : Stuck) : Eval α := throw (.stuck cause)

/-- Count a step, which may exceed the limit. The count is a number without bound. Kept in a word of 64 bits it is the same as
long as the step that exceeds the limit can still be counted, so a limit is presupposed to be less than `2 ^ 64 - 1`. -/
def charge : Eval Unit := fun m =>
  let m := { m with steps := m.steps + 1 }
  match m.config.stepLimit with
  | some limit => if limit < m.steps then .error (.stepLimit limit) m else .ok () m
  | none => .ok () m

/-- Run a computation; if it gets stuck, say why. -/
def recover (x : Eval α) : Eval (Except Stuck α) := fun m =>
  match x m with
  | .ok a m' => .ok (.ok a) m'
  | .error (.stuck cause) m' => .ok (.error cause) m'
  | .error halt m' => .error halt m'

/-- Run a computation; if it gets stuck, put the entities back as they were and say why. -/
def speculate (x : Eval α) : Eval (Except Stuck α) := fun m =>
  match x m with
  | .ok a m' => .ok (.ok a) m'
  | .error (.stuck cause) m' => .ok (.error cause) { m' with entities := m.entities }
  | .error halt m' => .error halt m'

def entities : Eval Entities := fun m => .ok m.entities m

def modifyEntities (f : Entities → Entities) : Eval Unit := fun m =>
  .ok () { m with entities := f m.entities }

section
variable (x : Nat → Eval α) (m : Machine)

/-- The result with the first amount of fuel that is enough, doubling it each time; nothing if no
amount is. -/
def attempt (fuel : Nat) : Option (EStateM.Result Halt Machine α) :=
  match x fuel m with
  | .error .outOfFuel _ => by apply attempt; exact 2 * fuel
  | result => some result
partial_fixpoint

end

/-- A computation with as much fuel as it takes. -/
def settle (x : Nat → Eval α) : Eval α := fun m =>
  (attempt x m m.fuel).getD (.error .outOfFuel m)

def ofRule (op : Operator) : Except Reason α → Eval α
  | .ok a => pure a
  | .error reason => stuck (.rule op reason)

end Eval

end TermMachine
