/-!
# The stream of choices

An operator that chooses among options draws from a SplitMix64 stream, so that a seed determines
every choice of a run. A draw advances the state by a fixed odd number and scrambles the new state
by two multiplications and three shifts.

Proved: an index drawn below a positive count is below it (`nextIndex_lt`).
-/

namespace TermMachine

/-- A SplitMix64 stream. -/
structure ChoiceStream where
  state : UInt64
  deriving DecidableEq, Repr

namespace ChoiceStream

/-- The number that every draw adds to the state. -/
def increment : UInt64 := 0x9E3779B97F4A7C15

/-- The stream of a seed. The seed zero starts where the seed `increment` does. -/
def ofSeed (seed : UInt64) : ChoiceStream := ⟨if seed = 0 then increment else seed⟩

def scramble (state : UInt64) : UInt64 :=
  let z := (state ^^^ (state >>> 30)) * 0xBF58476D1CE4E5B9
  let z := (z ^^^ (z >>> 27)) * 0x94D049BB133111EB
  z ^^^ (z >>> 31)

def next (s : ChoiceStream) : UInt64 × ChoiceStream :=
  let state := s.state + increment
  (scramble state, ⟨state⟩)

/-- Draw an index below `count`, which must not be zero. -/
def nextIndex (s : ChoiceStream) (count : Nat) : Nat × ChoiceStream :=
  let (drawn, s) := s.next
  (drawn.toNat % count, s)

theorem nextIndex_lt (s : ChoiceStream) {count : Nat} (h : 0 < count) :
    (s.nextIndex count).1 < count := Nat.mod_lt _ h

end ChoiceStream

end TermMachine
