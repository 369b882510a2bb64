import TermMachine.Proofs.Fuel
import TermMachine.Proofs.StepCases

/-!
# A step limit ends everything

Nothing is known of the term here. It may have nodes with too few parameters or none at all, collections that hide nodes,
and entities that hold terms which come back to themselves. What ends it is the count alone. A node counts its step before
it does anything else, so steps are not nested deeper than the limit allows; and a term that is not a value has a node that
every step of the term tries, so no loop goes round without counting.

A computation is metered on a machine when it ended there, with a count that is no lower than before and within the
limit, or one above it if the limit was exceeded. Along with that goes the least number of steps that a result took: none
for a value, one for every other term. Fuel is ample when it is more than the steps that are left, and it stays so: a step
into a node uses up one of each, and so does a round of a loop.

Proved:
* `Meters.bind`, `Meters.speculate_bind`, `Meters.withGiven`: how the counts of computations add up.
* `stepNode_meters`, by induction on the fuel, and `runWith_meters`, `driveWith_meters` for the loops.
* `limited_computations_end`: with a step limit every step, run and execution ends, and its count is as the limit says.
-/

namespace TermMachine

open Term Eval Rules

namespace Eval

variable {α β : Type}

/-- A computation from `m` ended, and its count of steps is as the limit says: at least `least` were taken for a result. -/
def Metered (limit least : Nat) (m : Machine) : EStateM.Result Halt Machine α → Prop
  | .ok _ m' => m'.config = m.config ∧ m.steps + least ≤ m'.steps ∧ m'.steps ≤ limit
  | .error (.stuck _) m' => m'.config = m.config ∧ m.steps ≤ m'.steps ∧ m'.steps ≤ limit
  | .error (.stepLimit exceeded) m' => exceeded = limit ∧ m'.steps = limit + 1
  | .error .outOfFuel _ => False

structure Ample (limit fuel : Nat) (m : Machine) : Prop where
  limited : m.config.stepLimit = some limit
  within : m.steps ≤ limit
  enough : limit < m.steps + fuel

def Meters (limit fuel least : Nat) (x : Eval α) : Prop := ∀ m, Ample limit fuel m → Metered limit least m (x m)

variable {limit fuel least : Nat} {m m₁ : Machine}

theorem Ample.later (h : Ample limit fuel m) (hconfig : m₁.config = m.config) (hsteps : m.steps ≤ m₁.steps)
    (hwithin : m₁.steps ≤ limit) : Ample limit fuel m₁ where
  limited := by rw [hconfig, h.limited]
  within := hwithin
  enough := by
    have := h.enough
    omega

/-- A step that was counted pays for a unit of fuel. -/
theorem Ample.paid (h : Ample limit (fuel + 1) m) (hconfig : m₁.config = m.config) (hsteps : m.steps + 1 ≤ m₁.steps)
    (hwithin : m₁.steps ≤ limit) : Ample limit fuel m₁ where
  limited := by rw [hconfig, h.limited]
  within := hwithin
  enough := by
    have := h.enough
    omega

theorem not_ample_zero : ¬ Ample limit 0 m := by
  intro h
  have hwithin := h.within
  have henough := h.enough
  omega

theorem Metered.finished {r : EStateM.Result Halt Machine α} (h : Metered limit least m r) : Finished r := by
  cases r with
  | ok a m' => trivial
  | error halt m' =>
    cases halt with
    | outOfFuel => exact h.elim
    | _ => trivial

/-- The steps counted before a computation are steps of the whole. -/
theorem Metered.after {r : EStateM.Result Halt Machine α} {before : Nat} (h : Metered limit least m₁ r)
    (hconfig : m₁.config = m.config) (hsteps : m.steps + before ≤ m₁.steps) : Metered limit (before + least) m r := by
  cases r with
  | ok a m' =>
    obtain ⟨hc, hs, hw⟩ := h
    exact ⟨hc.trans hconfig, by omega, hw⟩
  | error halt m' =>
    cases halt with
    | stuck cause =>
      obtain ⟨hc, hs, hw⟩ := h
      exact ⟨hc.trans hconfig, by omega, hw⟩
    | stepLimit exceeded => exact h
    | outOfFuel => exact h

/-- Why a computation has no result does not depend on what the result was to be. -/
theorem Metered.error {halt : Halt} {other : Nat}
    (h : Metered limit least m (.error halt m₁ : EStateM.Result Halt Machine α)) :
    Metered limit other m (.error halt m₁ : EStateM.Result Halt Machine β) := by
  cases halt with
  | _ => exact h

namespace Meters

theorem pure (a : α) : Meters limit fuel 0 (pure a) := fun _ h => ⟨rfl, Nat.le_refl _, h.within⟩

theorem stuck (cause : Stuck) : Meters limit fuel least (stuck cause : Eval α) := fun _ h => ⟨rfl, Nat.le_refl _, h.within⟩

theorem ofRule (op : Operator) (r : Except Reason α) : Meters limit fuel 0 (ofRule op r) := by
  cases r with
  | ok a => exact pure a
  | error reason => exact stuck _

theorem weaken {x : Eval α} (h : Meters limit fuel least x) : Meters limit fuel 0 x := by
  intro m hm
  have hx := h m hm
  rcases hr : x m with ⟨a, m₁⟩ | ⟨halt, m₁⟩
  · rw [hr] at hx
    obtain ⟨hc, hs, hw⟩ := hx
    exact ⟨hc, by omega, hw⟩
  · rw [hr] at hx
    exact hx.error

theorem bind {x : Eval α} {f : α → Eval β} (hx : Meters limit fuel least x) (hf : ∀ a, Meters limit fuel 0 (f a)) :
    Meters limit fuel least (x >>= f) := by
  intro m hm
  have h := hx m hm
  rcases hr : x m with ⟨a, m₁⟩ | ⟨halt, m₁⟩
  · rw [hr] at h
    obtain ⟨hc, hs, hw⟩ := h
    rw [bind_of_ok hr]
    exact (hf a m₁ (hm.later hc (by omega) hw)).after hc hs
  · rw [hr] at h
    rw [bind_of_error hr]
    exact h.error

/-- Counting a step pays for the fuel of what comes after. -/
theorem charge_bind {f : Unit → Eval α} (hf : Meters limit fuel 0 (f ())) :
    Meters limit (fuel + 1) 1 (charge >>= f) := by
  intro m hm
  by_cases hexceeded : limit < m.steps + 1
  · have hcharge : charge m = .error (.stepLimit limit) { m with steps := m.steps + 1 } := by
      simp [charge, hm.limited, hexceeded]
    have hwithin := hm.within
    rw [bind_of_error hcharge]
    exact ⟨rfl, by simp only; omega⟩
  · have hcharge : charge m = .ok () { m with steps := m.steps + 1 } := by
      simp [charge, hm.limited, hexceeded]
    have hpaid : Ample limit fuel { m with steps := m.steps + 1 } := hm.paid rfl (Nat.le_refl _) (by simp only; omega)
    rw [bind_of_ok hcharge]
    exact (hf _ hpaid).after rfl (Nat.le_refl (m.steps + 1))

/-- An attempt that fails leaves it to what comes after to count as many steps. -/
theorem speculate_bind {x : Eval α} {f : Except Stuck α → Eval β} (hx : Meters limit fuel least x)
    (hok : ∀ a, Meters limit fuel 0 (f (.ok a))) (herror : ∀ cause, Meters limit fuel least (f (.error cause))) :
    Meters limit fuel least (speculate x >>= f) := by
  intro m hm
  have h := hx m hm
  rcases hr : x m with ⟨a, m₁⟩ | ⟨halt, m₁⟩
  · rw [hr] at h
    obtain ⟨hc, hs, hw⟩ := h
    rw [bind_of_ok (speculate_eq_ok.mpr (.inl ⟨a, rfl, hr⟩))]
    exact (hok a m₁ (hm.later hc (by omega) hw)).after hc hs
  · rw [hr] at h
    cases halt with
    | stuck cause =>
      obtain ⟨hc, hs, hw⟩ := h
      rw [bind_of_ok (speculate_eq_ok.mpr (.inr ⟨cause, m₁, rfl, hr, rfl⟩))]
      have hm₁ : Ample limit fuel { m₁ with entities := m.entities } := hm.later hc hs hw
      have hrest : Metered limit (0 + least) m _ := (herror cause _ hm₁).after hc hs
      rwa [Nat.zero_add] at hrest
    | stepLimit exceeded =>
      rw [bind_of_error (speculate_eq_error.mpr ⟨hr, by simp⟩)]
      exact h
    | outOfFuel => exact h.elim

theorem withGiven {value : Term} {x : Eval α} (hx : Meters limit fuel least x) :
    Meters limit fuel least (withGiven value x) := by
  intro m hm
  have h := hx { m with entities := m.entities.put Entity.givenValue value } ⟨hm.limited, hm.within, hm.enough⟩
  rcases hr : x { m with entities := m.entities.put Entity.givenValue value } with ⟨a, m₁⟩ | ⟨halt, m₁⟩
  · rw [hr] at h
    rw [withGiven_eq_ok.mpr ⟨m₁, hr, rfl⟩]
    exact h
  · rw [hr] at h
    rw [withGiven_eq_error.mpr ⟨m₁, hr, rfl⟩]
    cases halt with
    | _ => exact h

end Meters

end Eval

namespace Engine

variable {limit fuel : Nat}

def least (t : Term) : Nat := if t.isValue then 0 else 1

def Counts (limit fuel : Nat) (step : Term → Eval Term) : Prop := ∀ t, Meters limit fuel (least t) (step t)

/-! ## Sequences -/

mutual
theorem stepWith_counts {s : Operator → List Term → Eval Term} (hs : ∀ op params, Meters limit fuel 1 (s op params)) :
    Counts limit fuel (stepWith s) := by
  intro t
  cases t with
  | seq items =>
    simp only [stepWith, least, isValue]
    by_cases hv : allValues items = true
    · simp only [hv, if_true]
      exact .pure _
    · have hfirst : Meters limit fuel 1 (stepFirst s none items) := by
        simpa [hv] using stepFirst_meters hs none items
      simp only [hv]
      exact .bind hfirst fun _ => .pure _
  | spread items =>
    simp only [stepWith, least, isValue]
    by_cases hv : allValues items = true
    · simp only [hv, if_true]
      exact .pure _
    · have hfirst : Meters limit fuel 1 (stepFirst s none items) := by
        simpa [hv] using stepFirst_meters hs none items
      simp only [hv]
      exact .bind hfirst fun _ => .pure _
  | node op params =>
    simp only [stepWith, least, isValue]
    exact hs op params
  | _ => simp only [stepWith]; exact .pure _

/-- Only values are passed over without counting. -/
theorem stepFirst_meters {s : Operator → List Term → Eval Term} (hs : ∀ op params, Meters limit fuel 1 (s op params))
    (blocked : Option Stuck) (items : List Term) :
    Meters limit fuel (if blocked.isNone && allValues items then 0 else 1) (stepFirst s blocked items) := by
  match items with
  | [] =>
    cases blocked with
    | none => simp only [stepFirst]; exact .pure _
    | some cause => simp only [stepFirst]; exact .stuck _
  | t :: rest =>
    simp only [stepFirst]
    by_cases hv : t.isValue = true
    · simp only [hv, if_true, allValues, Bool.true_and]
      exact .bind (stepFirst_meters hs blocked rest) fun _ => .pure _
    · have ht : Meters limit fuel 1 (stepWith s t) := by
        simpa [least, hv] using stepWith_counts hs t
      simp only [hv, allValues, Bool.false_and, Bool.and_false, Bool.false_eq_true, if_false]
      refine .speculate_bind ht (fun next => .pure _) fun cause => ?_
      exact .bind (stepFirst_meters hs (some cause) rest) fun _ => .pure _
end

/-! ## Loops -/

section
variable {step : Term → Eval Term} (hs : Counts limit fuel step)
include hs

theorem advanceWith_counts : Counts limit fuel (advanceWith step) := by
  intro t m hm
  have h := hs t m hm
  rw [advanceWith, bind_of_ok (get_apply m)]
  rcases hr : step t m with ⟨next, m₁⟩ | ⟨halt, m₁⟩
  · rw [hr] at h
    obtain ⟨hc, hsteps, hw⟩ := h
    rw [bind_of_ok hr, bind_of_ok (entities_apply m₁)]
    split
    · exact ⟨hc, by omega, hw⟩
    · exact ⟨hc, hsteps, hw⟩
  · rw [hr] at h
    rw [bind_of_error hr]
    exact h

/-- A round of a loop that is not over takes a step, which pays for the round. -/
theorem round_paid {rounds : Nat} {t : Term} {m : Machine} (hv : t.isValue = false) (hm : Ample limit fuel m)
    (hrounds : Ample limit (rounds + 1) m) {next : Term} {m₁ : Machine} (h : step t m = .ok next m₁) :
    m₁.config = m.config ∧ m.steps ≤ m₁.steps ∧ Ample limit fuel m₁ ∧ Ample limit rounds m₁ := by
  have hcount := hs t m hm
  rw [h] at hcount
  simp only [Metered, least, hv] at hcount
  obtain ⟨hc, hsteps, hw⟩ := hcount
  exact ⟨hc, by omega, hm.later hc (by omega) hw, hrounds.paid hc (by simpa using hsteps) hw⟩

/-- What the rest of a loop counts comes on top of its first round. -/
theorem round_metered {α : Type} {rounds : Nat} {t : Term} {f : Term → Eval α} {m : Machine} (hv : t.isValue = false)
    (hm : Ample limit fuel m) (hrounds : Ample limit (rounds + 1) m)
    (hf : ∀ next m₁, Ample limit fuel m₁ → Ample limit rounds m₁ → Metered limit 0 m₁ (f next m₁)) :
    Metered limit 0 m ((step t >>= f) m) := by
  rcases hr : step t m with ⟨next, m₁⟩ | ⟨halt, m₁⟩
  · obtain ⟨hc, hsteps, hm₁, hrounds₁⟩ := round_paid hs hv hm hrounds hr
    rw [bind_of_ok hr]
    exact (hf next m₁ hm₁ hrounds₁).after hc hsteps
  · have h := hs t m hm
    rw [hr] at h
    rw [bind_of_error hr]
    exact h.error

theorem runWith_meters {rounds : Nat} {t : Term} {m : Machine} (hm : Ample limit fuel m)
    (hrounds : Ample limit rounds m) : Metered limit 0 m (runWith step rounds t m) := by
  induction rounds generalizing t m with
  | zero => exact absurd hrounds not_ample_zero
  | succ rounds ih =>
    rcases hv : t.isValue with _ | _
    · simp only [runWith, hv, Bool.false_eq_true, if_false]
      exact round_metered hs hv hm hrounds fun next m₁ hm₁ hrounds₁ => ih hm₁ hrounds₁
    · simp only [runWith, hv, if_true]
      exact Meters.pure t m hm

theorem atomicWithin_meters {rounds : Nat} {body : Term} {m : Machine} (hm : Ample limit fuel m)
    (hrounds : Ample limit rounds m) : Metered limit 0 m (atomicWithin step rounds body m) := by
  induction rounds generalizing body m with
  | zero => exact absurd hrounds not_ample_zero
  | succ rounds ih =>
    rcases hv : body.isValue with _ | _
    · simp only [atomicWithin, hv, Bool.false_eq_true, if_false]
      refine round_metered hs hv hm hrounds fun next m₁ hm₁ hrounds₁ => ?_
      -- clearing the signal leaves the count alone
      have hcleared : takeYield m₁ = .ok (m₁.entities.contains Entity.yielded)
          { m₁ with entities := m₁.entities.remove Entity.yielded } := rfl
      rw [bind_of_ok hcleared]
      split
      · exact ⟨rfl, Nat.le_refl _, hm₁.within⟩
      · exact ih (m := { m₁ with entities := m₁.entities.remove Entity.yielded })
          ⟨hm₁.limited, hm₁.within, hm₁.enough⟩ ⟨hrounds₁.limited, hrounds₁.within, hrounds₁.enough⟩
    · simp only [atomicWithin, hv, if_true]
      exact Meters.pure body m hm

/-! ## Parameters and rules -/

theorem stepOne_meters (op : Operator) (choose : List Term → Option Nat) (params : List Term) :
    Meters limit fuel 0 (stepOne step op choose params) := by
  refine .bind (.ofRule _ _) fun items => ?_
  split
  · exact .pure _
  · exact .bind (hs _).weaken fun _ => .pure _

theorem sequential_meters (params : List Term) : Meters limit fuel 0 (sequential step params) := by
  refine .bind (.ofRule _ _) fun statements => .bind (.ofRule _ _) fun last => ?_
  split
  · exact .pure _
  · split
    · exact .bind (hs _).weaken fun _ => .pure _
    · split
      · exact .pure _
      · exact .stuck _

theorem give_meters (params : List Term) : Meters limit fuel 0 (give step params) := by
  refine .bind (.ofRule _ _) fun value => .bind (.ofRule _ _) fun body => ?_
  split
  · exact .pure _
  · exact .bind (hs body).weaken.withGiven fun _ => .pure _

end

theorem replaceParam_meters (op : Operator) (params : List Term) (index : Nat) (value : Term) :
    Meters limit fuel 0 (replaceParam op params index value) := by
  intro m hm
  rcases hr : replaceParam op params index value m with ⟨t, m₁⟩ | ⟨halt, m₁⟩
  · obtain ⟨rfl, -⟩ := replaceParam_ok hr
    exact ⟨rfl, Nat.le_refl _, hm.within⟩
  · obtain ⟨rfl, cause, rfl⟩ := replaceParam_error hr
    exact ⟨rfl, Nat.le_refl _, hm.within⟩

theorem reducePending_meters {run : Term → Eval Term} (hrun : ∀ t, Meters limit fuel 0 (run t)) (op : Operator)
    (params : List Term) (blocked : Option Stuck) (rest : List (Nat × Term)) :
    Meters limit fuel 0 (reducePending run op params blocked rest) := by
  induction rest generalizing blocked with
  | nil =>
    cases blocked with
    | none => exact .pure _
    | some cause => exact .stuck _
  | cons p rest ih =>
    obtain ⟨index, t⟩ := p
    simp only [reducePending]
    refine .speculate_bind ?_ (fun next => .pure _) fun cause => ih _
    exact .bind (hrun t) fun value => replaceParam_meters op params index value

/-- A rule that steps no argument counts nothing. -/
theorem Fired.steps {params : List Term} {op : Operator} {t : Term} {m m' : Machine} (h : Fired params m op t m') :
    m'.config = m.config ∧ m'.steps = m.steps := by
  cases h with
  | _ => exact ⟨rfl, rfl⟩

theorem applyRule_meters {step advance : Term → Eval Term} (hs : Counts limit fuel step)
    (ha : Counts limit fuel advance) (op : Operator) (params : List Term) :
    Meters limit fuel 0 (applyRule step advance fuel op params) := by
  by_cases hstep : stepsArgument op = true
  · unfold stepsArgument at hstep
    split at hstep
    · exact stepOne_meters hs _ _ _
    · exact stepOne_meters hs _ _ _
    · exact sequential_meters hs _
    · exact give_meters hs _
    · exact .bind (.ofRule _ _) fun body m hm => atomicWithin_meters ha hm hm
    · cases hstep
  · intro m hm
    rcases applyRule_cases (by simpa using hstep) (rfl : applyRule step advance fuel op params m = _) with
      ⟨reason, hr⟩ | ⟨t, m', hfired, hr⟩
    · rw [hr]
      exact ⟨rfl, Nat.le_refl _, hm.within⟩
    · obtain ⟨hc, hsteps⟩ := hfired.steps
      rw [hr]
      exact ⟨hc, by omega, by have := hm.within; omega⟩

/-! ## Steps -/

theorem stepNode_meters (fuel : Nat) (op : Operator) (params : List Term) :
    Meters limit fuel 1 (stepNode fuel op params) := by
  induction fuel generalizing op params with
  | zero => exact fun m hm => absurd hm not_ample_zero
  | succ fuel ih =>
    have hstep := stepWith_counts ih
    have hadvance := advanceWith_counts hstep
    have hruns : ∀ t, Meters limit fuel 0 (runFor fuel t) := fun t m hm => runWith_meters hadvance hm hm
    refine .charge_bind (.bind (reducePending_meters hruns op params none _) fun r => ?_)
    cases r with
    | some next => exact .pure _
    | none => exact applyRule_meters hstep hadvance op params

theorem stepFor_counts (fuel : Nat) : Counts limit fuel (stepFor fuel) := stepWith_counts (stepNode_meters fuel)

theorem advanceFor_counts (fuel : Nat) : Counts limit fuel (advanceFor fuel) := advanceWith_counts (stepFor_counts fuel)

end Engine

namespace Execution

open Engine

variable {limit fuel : Nat}

theorem driveWith_meters {advance : Term → Eval Term} (ha : Counts limit fuel advance) {rounds : Nat} {t : Term}
    {m : Machine} (hm : Ample limit fuel m) (hrounds : Ample limit rounds m) :
    Metered limit 0 m (driveWith advance rounds t m) := by
  induction rounds generalizing t m with
  | zero => exact absurd hrounds not_ample_zero
  | succ rounds ih =>
    rcases hv : t.isValue with _ | _
    · simp only [driveWith, hv, Bool.false_eq_true, if_false]
      rcases hr : advance t m with ⟨next, m₁⟩ | ⟨halt, m₁⟩
      · obtain ⟨hc, hsteps, hm₁, hrounds₁⟩ := round_paid ha hv hm hrounds hr
        rw [bind_of_ok (recover_eq_ok.mpr (.inl ⟨next, rfl, hr⟩))]
        exact (ih hm₁ hrounds₁).after hc hsteps
      · have h := ha t m hm
        rw [hr] at h
        cases halt with
        | stuck cause =>
          rw [bind_of_ok (recover_eq_ok.mpr (.inr ⟨cause, rfl, hr⟩))]
          exact h
        | stepLimit exceeded =>
          have hrecover : recover (advance t) m = .error (.stepLimit exceeded) m₁ := by simp only [recover, hr]
          rw [bind_of_error hrecover]
          exact h
        | outOfFuel => exact h.elim
    · simp only [driveWith, hv, if_true]
      exact Meters.pure _ m hm

theorem executeFor_meters (t : Term) (inputs : List Term) : Meters limit fuel 0 (executeFor fuel t inputs) := by
  have hsupply : Meters limit fuel 0 (supply inputs) := by
    unfold supply
    simp only
    split
    · exact .pure _
    · exact fun m hm => ⟨rfl, Nat.le_refl _, hm.within⟩
  refine .bind hsupply fun _ => .bind ?_ fun outcome => ?_
  · exact fun m hm => driveWith_meters (advanceFor_counts fuel) hm hm
  · exact fun m hm => ⟨rfl, Nat.le_refl _, hm.within⟩

end Execution

/-! ## With a step limit -/

theorem Machine.ample_fuel {m : Machine} {limit : Nat} (hlimit : m.config.stepLimit = some limit)
    (hsteps : m.steps ≤ limit) : Ample limit m.fuel m where
  limited := hlimit
  within := hsteps
  enough := by
    simp only [Machine.fuel, hlimit]
    omega

section
variable {limit : Nat} {m : Machine} (hlimit : m.config.stepLimit = some limit) (hsteps : m.steps ≤ limit)
include hlimit hsteps

theorem step_metered (t : Term) : Metered limit 0 m (step t m) := by
  have h := (Engine.stepFor_counts m.fuel t).weaken m (m.ample_fuel hlimit hsteps)
  rwa [step_eq_of_fuel h.finished]

theorem run_metered (t : Term) : Metered limit 0 m (run t m) := by
  have hm := m.ample_fuel hlimit hsteps
  have h : Metered limit 0 m (Engine.runFor m.fuel t m) := Engine.runWith_meters (Engine.advanceFor_counts m.fuel) hm hm
  rwa [run_eq_of_fuel h.finished]

theorem execute_metered (t : Term) (inputs : List Term) : Metered limit 0 m (execute t inputs m) := by
  have h := Execution.executeFor_meters t inputs m (m.ample_fuel hlimit hsteps)
  rwa [execute_eq_of_fuel h.finished]

end

/-- On a machine with a step limit that is not exceeded yet, a step, a run and an execution of any terms end. The steps
counted are never fewer than before; they are within the limit when there is a result or the term is stuck, and one more
than the limit when it was exceeded. Steps and limit are numbers without bound here; for a count that is kept in a word of
64 bits, `limit + 1 < 2 ^ 64` is presupposed. -/
theorem limited_computations_end {limit : Nat} {m : Machine} (hlimit : m.config.stepLimit = some limit)
    (hsteps : m.steps ≤ limit) :
    (∀ t, Metered limit 0 m (step t m)) ∧ (∀ t, Metered limit 0 m (run t m)) ∧
      ∀ t inputs, Metered limit 0 m (execute t inputs m) :=
  ⟨step_metered hlimit hsteps, run_metered hlimit hsteps, execute_metered hlimit hsteps⟩

/-- A given value that asks for the given value comes back to itself, and nothing but the limit ends it. -/
theorem limited_computations_end_given :
    let given : Term := .node (.effect .given) []
    let m : Machine := ⟨{ stepLimit := some 3, stallDetection := false }, ⟨[(Entity.givenValue, given)]⟩, ⟨0⟩, 0⟩
    ∃ m', run given m = .error (.stepLimit 3) m' ∧ m'.steps = 4 := by
  intro given m
  have hfuel : Engine.runFor 4 given m = .error (.stepLimit 3) { m with steps := 4 } := rfl
  have hrun : run given m = .error (.stepLimit 3) { m with steps := 4 } := (run_eq_iff (by trivial)).mpr ⟨4, hfuel⟩
  have hmetered := (limited_computations_end (m := m) rfl (Nat.zero_le 3)).2.1 given
  rw [hrun] at hmetered
  exact ⟨_, hrun, hmetered.2⟩

end TermMachine
