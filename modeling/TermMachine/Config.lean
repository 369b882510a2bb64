/-!
# Configuration of a machine
-/

namespace TermMachine

structure Config where
  /-- The greatest number of steps, or none for no limit. -/
  stepLimit : Option Nat := some 100000
  /-- The seed of the stream of choices. -/
  seed : UInt64 := 0x5EED
  /-- Whether a step that changes nothing counts as stuck. -/
  stallDetection : Bool := true
  deriving DecidableEq, Repr

inductive ConfigError where
  | zeroStepLimit
  deriving DecidableEq, Repr

def ConfigError.message : ConfigError → String
  | zeroStepLimit => "invalid interpreter configuration: step_limit must be > 0"

/-- A step limit, if there is one, must allow a step. -/
def Config.validate (c : Config) : Except ConfigError Unit :=
  if c.stepLimit = some 0 then .error .zeroStepLimit else .ok ()

end TermMachine
