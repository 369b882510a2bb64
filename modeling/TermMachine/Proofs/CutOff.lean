import TermMachine.Proofs.Invariant
import TermMachine.Proofs.StepLimit

/-!
# A step limit only cuts off

Two runs are compared, one without a step limit and one with it, that begin on machines which are otherwise the same. As
long as the count is within the limit they do the same. Where the first run counts a step too many the second one ends,
and it ends as a whole: what fails in an attempt because of the limit is not taken back, and no other part is tried
instead. So the count of the first run alone decides how the second one ends, and a limit that does not end a run does
not change it.

`CutsOff` says this of a computation. It is closed under all the ways in which the engine puts computations together,
for every amount of fuel; with too little fuel both runs end at the same place. A run without a limit may go on forever,
so what it counts is what it counts with some amount of fuel.

Proved:
* `CutsOff.bind`, `CutsOff.speculate`, `CutsOff.withGiven`: the laws.
* `composes_cutsOff`: to be cut off composes, so it holds of every execution (`executeFor_cutsOff`).
* `settle_of_within`, `settle_exceeds_iff`: how a limited run ends, read off the unlimited one.
* `limit_only_cuts_off`: an execution that ends within a limit is the same under every greater limit and under none, and
  the limit is exceeded exactly if the unlimited execution counts more steps.
-/

namespace TermMachine

open Term Eval Rules

def Machine.limited (m : Machine) (limit : Option Nat) : Machine :=
  { m with config := { m.config with stepLimit := limit } }

/-- No step is taken back, and the configuration stays. -/
def Machine.Later (m m' : Machine) : Prop := m.steps ≤ m'.steps ∧ m'.config = m.config

theorem allows_later : Allows Machine.Later where
  refl _ := ⟨Nat.le_refl _, rfl⟩
  trans h₁ h₂ := ⟨Nat.le_trans h₁.1 h₂.1, h₂.2.trans h₁.2⟩
  charge _ := ⟨Nat.le_succ _, rfl⟩
  choices _ _ := ⟨Nat.le_refl _, rfl⟩
  restore h := h
  effect _ := ⟨Nat.le_refl _, rfl⟩
  bound _ h := h
  cleared _ := ⟨Nat.le_refl _, rfl⟩

namespace Eval

variable {α β : Type}

/-- A run that ends with `full` without a limit ends with `short` with it: the same if the count is within the limit,
and otherwise because the limit is exceeded. -/
inductive Cut (limit : Nat) : EStateM.Result Halt Machine α → EStateM.Result Halt Machine α → Prop
  | ok {a : α} {m : Machine} : m.steps ≤ limit → Cut limit (.ok a m) (.ok a (m.limited (some limit)))
  | stuck {cause : Stuck} {m : Machine} : m.steps ≤ limit →
      Cut limit (.error (.stuck cause) m) (.error (.stuck cause) (m.limited (some limit)))
  | outOfFuel {m : Machine} : m.steps ≤ limit →
      Cut limit (.error .outOfFuel m) (.error .outOfFuel (m.limited (some limit)))
  | exceeded {full : EStateM.Result Halt Machine α} {m : Machine} : limit < (machineAfter full).steps →
      Cut limit full (.error (.stepLimit limit) m)

theorem steps_speculate (x : Eval α) (m : Machine) :
    (machineAfter (speculate x m)).steps = (machineAfter (x m)).steps := by
  unfold speculate
  split <;> simp only [*, machineAfter]

theorem machineAfter_recover (x : Eval α) (m : Machine) : machineAfter (recover x m) = machineAfter (x m) := by
  unfold recover
  split <;> simp only [*, machineAfter]

theorem steps_withGiven (value : Term) (x : Eval α) (m : Machine) : (machineAfter (withGiven value x m)).steps =
    (machineAfter (x { m with entities := m.entities.put Entity.givenValue value })).steps := by
  unfold withGiven
  simp only
  split <;> simp only [*, machineAfter]

/-- A step limit does nothing to a computation but cut it off. -/
structure CutsOff (x : Eval α) : Prop where
  later : Keeps Machine.Later x
  cut : ∀ {m limit}, m.config.stepLimit = none → m.steps ≤ limit → Cut limit (x m) (x (m.limited (some limit)))

namespace CutsOff

theorem pure (a : α) : CutsOff (pure a) := ⟨.pure allows_later a, fun _ => .ok⟩

theorem stuck (cause : Stuck) : CutsOff (stuck cause : Eval α) := ⟨.stuck allows_later cause, fun _ => .stuck⟩

theorem outOfFuel : CutsOff (throw .outOfFuel : Eval α) := ⟨allows_later.refl, fun _ => .outOfFuel⟩

theorem entities : CutsOff entities := ⟨allows_later.refl, fun _ => .ok⟩

theorem modifyEntities (f : Entities → Entities) : CutsOff (modifyEntities f) where
  later _ := ⟨Nat.le_refl _, rfl⟩
  cut {m _} _ hsteps := .ok (m := { m with entities := f m.entities }) hsteps

theorem charge : CutsOff charge where
  later := .charge allows_later
  cut {m limit} hm hsteps := by
    rw [charge_unlimited hm]
    by_cases hexceeded : limit < m.steps + 1
    · have hshort : Eval.charge (m.limited (some limit)) =
          .error (.stepLimit limit) { m.limited (some limit) with steps := m.steps + 1 } := by
        simp [Eval.charge, Machine.limited, hexceeded]
      rw [hshort]
      exact .exceeded hexceeded
    · have hshort : Eval.charge (m.limited (some limit)) =
          .ok () (Machine.limited { m with steps := m.steps + 1 } (some limit)) := by
        simp [Eval.charge, Machine.limited, hexceeded]
      rw [hshort]
      exact .ok (m := { m with steps := m.steps + 1 }) (Nat.le_of_not_lt hexceeded)

variable {x : Eval α}

theorem bind {f : α → Eval β} (hx : CutsOff x) (hf : ∀ a, CutsOff (f a)) : CutsOff (x >>= f) where
  later := .bind allows_later hx.later fun a => (hf a).later
  cut {m limit} hm hsteps := by
    have hlater := hx.later m
    have hcut := hx.cut hm hsteps
    generalize hshort : x (m.limited (some limit)) = short at hcut
    rcases hfull : x m with ⟨a, m₁⟩ | ⟨halt, m₁⟩
    · rw [hfull] at hcut hlater
      rw [bind_of_ok hfull]
      cases hcut with
      | ok hwithin =>
        rw [bind_of_ok hshort]
        have hm₁ : m₁.config = m.config := hlater.2
        exact (hf a).cut (by rw [hm₁, hm]) hwithin
      | exceeded hbeyond =>
        -- what comes after counts on from there
        rw [bind_of_error hshort]
        exact .exceeded (Nat.lt_of_lt_of_le hbeyond ((hf a).later m₁).1)
    · rw [hfull] at hcut
      rw [bind_of_error hfull]
      cases hcut with
      | stuck hwithin => rw [bind_of_error hshort]; exact .stuck hwithin
      | outOfFuel hwithin => rw [bind_of_error hshort]; exact .outOfFuel hwithin
      | exceeded hbeyond => rw [bind_of_error hshort]; exact .exceeded hbeyond

/-- What looks at the machine but not at the limit. -/
theorem get_bind {f : Machine → Eval α} (hf : ∀ m, CutsOff (f m)) (hlimit : ∀ m limit, f (m.limited limit) = f m) :
    CutsOff (get >>= f) where
  later m := (hf m).later m
  cut {m limit} hm hsteps := by
    rw [bind_of_ok (get_apply m), bind_of_ok (get_apply _), hlimit]
    exact (hf m).cut hm hsteps

/-- An attempt that exceeds the limit is not taken back. -/
theorem speculate (hx : CutsOff x) : CutsOff (speculate x) where
  later := .speculate allows_later hx.later
  cut {m limit} hm hsteps := by
    have hcut := hx.cut hm hsteps
    have hcount := steps_speculate x m
    unfold Eval.speculate at hcount ⊢
    generalize x (m.limited (some limit)) = short at hcut ⊢
    generalize x m = full at hcut hcount ⊢
    cases hcut with
    | ok hwithin => exact .ok hwithin
    | stuck hwithin => exact .ok hwithin
    | outOfFuel hwithin => exact .outOfFuel hwithin
    | exceeded hbeyond => exact .exceeded (by rwa [hcount])

theorem recover (hx : CutsOff x) : CutsOff (recover x) where
  later m := by
    rw [machineAfter_recover]
    exact hx.later m
  cut {m limit} hm hsteps := by
    have hcut := hx.cut hm hsteps
    have hcount := machineAfter_recover x m
    unfold Eval.recover at hcount ⊢
    generalize x (m.limited (some limit)) = short at hcut ⊢
    generalize x m = full at hcut hcount ⊢
    cases hcut with
    | ok hwithin => exact .ok hwithin
    | stuck hwithin => exact .ok hwithin
    | outOfFuel hwithin => exact .outOfFuel hwithin
    | exceeded hbeyond => exact .exceeded (by rwa [hcount])

theorem withGiven {value : Term} (hx : CutsOff x) : CutsOff (withGiven value x) where
  later := .withGiven allows_later hx.later
  cut {m limit} hm hsteps := by
    have hcut := hx.cut (m := { m with entities := m.entities.put Entity.givenValue value }) hm hsteps
    have hcount := steps_withGiven value x m
    generalize hshort : x (Machine.limited _ (some limit)) = short at hcut
    generalize hfull : x _ = full at hcut hcount
    cases hcut with
    | ok hwithin =>
      rw [withGiven_eq_ok.mpr ⟨_, hfull, rfl⟩, withGiven_eq_ok.mpr ⟨_, hshort, rfl⟩]
      exact .ok hwithin
    | stuck hwithin =>
      rw [withGiven_eq_error.mpr ⟨_, hfull, rfl⟩, withGiven_eq_error.mpr ⟨_, hshort, rfl⟩]
      exact .stuck hwithin
    | outOfFuel hwithin =>
      rw [withGiven_eq_error.mpr ⟨_, hfull, rfl⟩, withGiven_eq_error.mpr ⟨_, hshort, rfl⟩]
      exact .outOfFuel hwithin
    | exceeded hbeyond =>
      have hcut := withGiven_eq_error (m := m.limited (some limit)).mpr ⟨_, hshort, rfl⟩
      rw [hcut]
      exact .exceeded (by rwa [hcount])

theorem takeYield : CutsOff takeYield := .bind .entities fun _ => .bind (.modifyEntities _) fun _ => .pure _

end CutsOff

end Eval

/-! ## The engine -/

theorem Machine.aside_limited (limit : Option Nat) : Aside (·.limited limit) := ⟨fun _ _ => rfl, fun _ _ => rfl⟩

namespace Engine

/-- Stall detection does not look at the limit. -/
theorem advanceWith_cutsOff {step : Term → Eval Term} {t : Term} (hs : CutsOff (step t)) : CutsOff (advanceWith step t) := by
  refine .get_bind (fun before => .bind hs fun next => .bind .entities fun s => ?_) fun _ _ => rfl
  split
  · exact .stuck _
  · exact .pure _

/-- Neither does a rule that steps no argument, and nothing is counted for it. -/
theorem rule_cutsOff {step advance : Term → Eval Term} {rounds : Nat} {op : Operator} {params : List Term}
    (hop : stepsArgument op = false) : CutsOff (applyRule step advance rounds op params) where
  later := (composes_keeps allows_later).rule hop
  cut {m limit} _ hsteps := by
    rw [applyRule_unseen (Machine.aside_limited (some limit)) params hop]
    rcases applyRule_cases hop (rfl : applyRule step advance rounds op params m = _) with ⟨reason, hr⟩ | ⟨t, m', hfired, hr⟩
    · rw [hr]
      exact .stuck hsteps
    · rw [hr]
      exact .ok (by rw [hfired.steps.2]; exact hsteps)

theorem composes_cutsOff : Composes fun _ x => CutsOff x where
  pure := .pure
  stuck := .stuck
  outOfFuel := .outOfFuel
  bind := .bind
  charge := .charge
  speculate := .speculate
  recover := .recover
  withGiven := .withGiven
  takeYield := .takeYield
  advance := advanceWith_cutsOff
  rule := rule_cutsOff

end Engine

namespace Execution

theorem supply_cutsOff (inputs : List Term) : CutsOff (supply inputs) := by
  unfold supply
  simp only
  split
  · exact .pure _
  · exact .modifyEntities _

theorem executeFor_cutsOff (fuel : Nat) (t : Term) (inputs : List Term) : CutsOff (executeFor fuel t inputs) := by
  refine .bind (supply_cutsOff inputs) fun _ => .bind ?_ fun outcome => ?_
  · exact Engine.composes_cutsOff.driveWith (Engine.composes_cutsOff.advanceFor fuel) fuel t
  · exact .bind .entities fun _ => .pure _

end Execution

/-! ## Two runs -/

namespace Eval

variable {α : Type} {x : Nat → Eval α} (hsteady : Steady x) (hcut : ∀ fuel, CutsOff (x fuel))
include hsteady hcut

/-- A run that ends within the limit ends so without it. -/
theorem settle_of_within {m m' : Machine} {limit : Nat} {a : α} (hm : m.config.stepLimit = none)
    (hsteps : m.steps ≤ limit) (h : settle x (m.limited (some limit)) = .ok a m') :
    ∃ m₁, settle x m = .ok a m₁ ∧ m₁.steps ≤ limit ∧ m' = m₁.limited (some limit) := by
  obtain ⟨fuel, hfuel⟩ := (settle_eq_iff hsteady (by trivial)).mp h
  have hends := (hcut fuel).cut hm hsteps
  rw [hfuel] at hends
  generalize hfull : x fuel m = full at hends
  cases hends with
  | ok hwithin => exact ⟨_, (settle_eq_iff hsteady (by trivial)).mpr ⟨fuel, hfull⟩, hwithin, rfl⟩

/-- A run that counts no more steps than the limit ends so with it. -/
theorem settle_limited {m m₁ : Machine} {limit : Nat} {a : α} (hm : m.config.stepLimit = none)
    (hsteps : m.steps ≤ limit) (h : settle x m = .ok a m₁) (hwithin : m₁.steps ≤ limit) :
    settle x (m.limited (some limit)) = .ok a (m₁.limited (some limit)) := by
  obtain ⟨fuel, hfuel⟩ := (settle_eq_iff hsteady (by trivial)).mp h
  have hends := (hcut fuel).cut hm hsteps
  rw [hfuel] at hends
  generalize hshort : x fuel (m.limited (some limit)) = short at hends
  cases hends with
  | ok _ => exact (settle_eq_iff hsteady (by trivial)).mpr ⟨fuel, hshort⟩
  | exceeded hbeyond => exact absurd hwithin (Nat.not_le_of_lt hbeyond)

/-- The limit ends a run exactly if the run counts more steps without it. -/
theorem settle_exceeds_iff {m : Machine} {limit : Nat} (hm : m.config.stepLimit = none) (hsteps : m.steps ≤ limit) :
    (∃ m', settle x (m.limited (some limit)) = .error (.stepLimit limit) m') ↔
      ∃ fuel, limit < (machineAfter (x fuel m)).steps := by
  constructor
  · rintro ⟨m', h⟩
    obtain ⟨fuel, hfuel⟩ := (settle_eq_iff hsteady (by trivial)).mp h
    have hends := (hcut fuel).cut hm hsteps
    rw [hfuel] at hends
    refine ⟨fuel, ?_⟩
    generalize x fuel m = full at hends ⊢
    cases hends with
    | exceeded hbeyond => exact hbeyond
  · rintro ⟨fuel, hbeyond⟩
    have hends := (hcut fuel).cut hm hsteps
    generalize hshort : x fuel (m.limited (some limit)) = short at hends
    generalize x fuel m = full at hends hbeyond
    cases hends with
    | ok hwithin => exact absurd hwithin (Nat.not_le_of_lt hbeyond)
    | stuck hwithin => exact absurd hwithin (Nat.not_le_of_lt hbeyond)
    | outOfFuel hwithin => exact absurd hwithin (Nat.not_le_of_lt hbeyond)
    | exceeded _ => exact ⟨_, (settle_eq_iff hsteady (by trivial)).mpr ⟨fuel, hshort⟩⟩

/-- What a run that ends counts with any amount of fuel is within what it counts in the end. -/
theorem exceeds_iff_of_finished {m : Machine} {limit : Nat} (hm : m.config.stepLimit = none) (hsteps : m.steps ≤ limit)
    (h : Finished (settle x m)) :
    (∃ fuel, limit < (machineAfter (x fuel m)).steps) ↔ limit < (machineAfter (settle x m)).steps := by
  obtain ⟨enough, henough⟩ := exists_fuel_of_settle h
  constructor
  · intro hbeyond
    obtain ⟨m', hexceeds⟩ := (settle_exceeds_iff hsteady hcut hm hsteps).mpr hbeyond
    -- with enough fuel the limited run has ended too, so it is cut off there
    have hends := (hcut enough).cut hm hsteps
    rw [henough] at hends
    generalize hshort : x enough (m.limited (some limit)) = short at hends
    have hsettle : Finished short → settle x (m.limited (some limit)) = short := by
      rintro hfinished
      rw [settle_eq_of_finished hsteady (by rwa [hshort]), hshort]
    generalize settle x m = full at hends h
    cases hends with
    | ok _ => cases hexceeds.symm.trans (hsettle trivial)
    | stuck _ => cases hexceeds.symm.trans (hsettle trivial)
    | outOfFuel _ => exact h.elim
    | exceeded hbeyond => exact hbeyond
  · intro hbeyond
    exact ⟨enough, by rwa [henough]⟩

end Eval

/-- An attempt that exceeds the limit halts with it, and its machine is left as it is. -/
theorem Eval.Metered.speculate_exceeded {α : Type} {x : Eval α} {m : Machine} {limit least : Nat}
    (h : Metered limit least m (x m)) (hbeyond : limit < (machineAfter (x m)).steps) :
    speculate x m = .error (.stepLimit limit) (machineAfter (x m)) := by
  rcases hr : x m with ⟨a, m'⟩ | ⟨halt, m'⟩
  · rw [hr] at h hbeyond
    exact absurd h.2.2 (Nat.not_le_of_lt hbeyond)
  · rw [hr] at h hbeyond
    cases halt with
    | stuck cause => exact absurd h.2.2 (Nat.not_le_of_lt hbeyond)
    | stepLimit exceeded =>
      obtain ⟨rfl, -⟩ := h
      exact speculate_eq_error.mpr ⟨hr, by simp⟩
    | outOfFuel => exact h.elim

/-- At some point the execution has counted more steps than the limit; it need not end. -/
def Execution.Exceeds (limit : Nat) (t : Term) (inputs : List Term) (m : Machine) : Prop :=
  ∃ fuel, limit < (machineAfter (executeFor fuel t inputs m)).steps

/-- A machine that was started with a limit is the one started without it, but for the limit. -/
theorem Machine.start_limited {config : Config} {limit : Option Nat} {m m₀ : Machine}
    (h : Machine.start { config with stepLimit := limit } = .ok m)
    (h₀ : Machine.start { config with stepLimit := none } = .ok m₀) : m = m₀.limited limit := by
  unfold Machine.start at h h₀
  split at h <;> cases h
  split at h₀ <;> cases h₀
  rfl

/-- The execution of a program on a machine with a step limit, next to that on the same machine with another or none.
One that ends within the limit is the same with every greater limit and with none; and one is ended by the limit exactly
if without it more steps are counted, in the end or, if it never ends, at some point. An attempt in which the limit is
exceeded is neither taken back nor stuck. -/
theorem limit_only_cuts_off {config : Config} {limit : Nat} {m m₀ : Machine}
    (hm : Machine.start { config with stepLimit := some limit } = .ok m)
    (hm₀ : Machine.start { config with stepLimit := none } = .ok m₀) (t : Term) (inputs : List Term) :
    (∀ execution m', execute t inputs m = .ok execution m' → ∀ limit' m₁, (∀ n, limit' = some n → limit ≤ n) →
      Machine.start { config with stepLimit := limit' } = .ok m₁ → ∃ m₁', execute t inputs m₁ = .ok execution m₁' ∧
        m₁'.entities = m'.entities ∧ m₁'.choices = m'.choices ∧ m₁'.steps = m'.steps) ∧
    ((∃ m', execute t inputs m = .error (.stepLimit limit) m') ↔ Execution.Exceeds limit t inputs m₀) ∧
    (Finished (execute t inputs m₀) →
      (Execution.Exceeds limit t inputs m₀ ↔ limit < (machineAfter (execute t inputs m₀)).steps)) ∧
    ∀ u attempt m₁, attempt = step u ∨ attempt = run u → m₁.config.stepLimit = some limit → m₁.steps ≤ limit →
      limit < (machineAfter (attempt m₁)).steps →
      speculate attempt m₁ = .error (.stepLimit limit) (machineAfter (attempt m₁)) := by
  have hsteady := Execution.executeFor_steady t inputs
  have hcut := fun fuel => Execution.executeFor_cutsOff fuel t inputs
  obtain ⟨hfree, hfresh⟩ : m₀.config.stepLimit = none ∧ m₀.steps = 0 := by
    cases hm₀
    exact ⟨rfl, rfl⟩
  have hwithin : ∀ n, m₀.steps ≤ n := fun n => by omega
  obtain rfl := Machine.start_limited hm hm₀
  refine ⟨?_, settle_exceeds_iff hsteady hcut hfree (hwithin _), exceeds_iff_of_finished hsteady hcut hfree (hwithin _),
    ?_⟩
  · intro execution m' hexecute limit' m₁ hgreater hm₁
    obtain ⟨m₂, hfull, hcount, rfl⟩ := settle_of_within hsteady hcut hfree (hwithin _) hexecute
    obtain rfl := Machine.start_limited hm₁ hm₀
    cases limit' with
    | none =>
      have hnone : m₀.limited none = m₀ := by
        cases hm₀
        rfl
      exact ⟨m₂, by rw [hnone]; exact hfull, rfl, rfl, rfl⟩
    | some n =>
      have hn := hgreater n rfl
      exact ⟨_, settle_limited hsteady hcut hfree (hwithin _) hfull (Nat.le_trans hcount hn), rfl, rfl, rfl⟩
  · rintro u attempt m₁ hattempt hlimit hsteps hbeyond
    rcases hattempt with rfl | rfl
    · exact (step_metered hlimit hsteps u).speculate_exceeded hbeyond
    · exact (run_metered hlimit hsteps u).speculate_exceeded hbeyond

/-- A sum with an argument to compute first counts three steps, the second of them in an attempt. A limit of three does
not change it, and with a limit of one the attempt is the end. -/
theorem limit_only_cuts_off_sum :
    let t : Term := .node (.arithmetic .add) [.seq [.int 1, .node (.arithmetic .negate) [.int 2]]]
    let machine := fun limit => (⟨{ stepLimit := limit }, .empty, .ofSeed 0x5EED, 0⟩ : Machine)
    (∃ execution m', execute t [] (machine (some 3)) = .ok execution m' ∧ execution.outcome = .value (.int (-1)) ∧
      ∃ m₁, execute t [] (machine none) = .ok execution m₁ ∧ m₁.steps = 3) ∧
    ∃ m', execute t [] (machine (some 1)) = .error (.stepLimit 1) m' := by
  intro t machine
  have hfuel : ∃ execution m', Execution.executeFor 4 t [] (machine (some 3)) = .ok execution m' ∧
      execution.outcome = .value (.int (-1)) ∧ m'.steps = 3 := ⟨_, _, rfl, rfl, rfl⟩
  obtain ⟨execution, m', hfuel, hvalue, hcount⟩ := hfuel
  have hexecute : execute t [] (machine (some 3)) = .ok execution m' := (execute_eq_iff (by trivial)).mpr ⟨4, hfuel⟩
  have hthree := @limit_only_cuts_off {} 3 (machine (some 3)) (machine none) rfl rfl t []
  have hone := @limit_only_cuts_off {} 1 (machine (some 1)) (machine none) rfl rfl t []
  obtain ⟨m₁, hfree, -, -, hsteps⟩ := hthree.1 execution m' hexecute none _ (by simp) rfl
  refine ⟨⟨execution, m', hexecute, hvalue, m₁, hfree, hsteps.trans hcount⟩, hone.2.1.mpr ⟨4, ?_⟩⟩
  show 1 < 3
  decide

end TermMachine
