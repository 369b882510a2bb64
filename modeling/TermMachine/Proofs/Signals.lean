import TermMachine.Proofs.StuckSteps

/-!
# The signal of `yield` stays inside the `atomic`

A step of an `atomic` ends when its body has raised the signal, and clears it; until then none of the steps of the body
has left it raised. So a step that succeeds leaves the machine silent, if the body took a step at all or the machine was
silent.

A step that is stuck leaves what the evaluation found where it broke off. From a silent machine it gets there by steps
that have left the machine silent, and by giving values. A run that breaks off because it is where it was has not raised
the signal either: the entities that last have kept their places, so there is no room for one more in a store that is as
large as before.

A run of an `atomic` is a row of steps of `atomic` up to a value.

Proved:
* `silent_of_step_stuck`: a stuck step of any term leaves a silent machine silent.
* `atomic_of_step`: what a step of an `atomic` comes to, and that it leaves the machine silent.
* `yield_stays_in_atomic`: this for every step and every run.
-/

namespace TermMachine

open Term Eval Rules Engine

/-! ## Where the evaluation breaks off -/

/-- Stores that agree, and of which the second keeps the order of the first, are silent together. -/
theorem Entities.silent_of_agree {s s' : Entities} (hsilent : s.find? Entity.yielded = none) (hscope : s.KeepsScope s')
    (h : s.agree s' = true) : s'.find? Entity.yielded = none := by
  rw [agree, Bool.and_eq_true, beq_iff_eq] at h
  have hlasting : s.lasting = s.names := by
    rw [lasting, List.filter_eq_self]
    intro n hn
    have hout := find?_eq_none.mp hsilent
    grind
  have hle : s.names.length ≤ s'.lasting.length := hlasting ▸ hscope.order.length_le
  have hnames : s.names.length = s'.names.length := by simp [names, h.1]
  have hall : s'.lasting.length = s'.names.length :=
    Nat.le_antisymm (List.length_filter_le _ _) (by omega)
  rw [lasting, List.length_filter_eq_length_iff] at hall
  rw [find?_eq_none]
  intro hmem
  simpa using hall _ hmem

theorem Machine.Silent.given {m : Machine} (hm : m.Silent) (value : Term) :
    Machine.Silent { m with entities := m.entities.put Entity.givenValue value } := by
  show Entities.find? _ _ = none
  rw [Entities.find?_put, if_neg (by decide)]
  exact hm

theorem Steps.silent {t u : Term} {m m' : Machine} (h : Steps Machine.Silent t m u m') (hm : m.Silent) : m'.Silent := by
  induction h with
  | refl => exact hm
  | step _ _ hsilent _ ih => exact ih hsilent

theorem ComesTo.silent {t u : Term} {m m' : Machine} (h : ComesTo t m u m') (hm : m.Silent) : m'.Silent := by
  induction h with
  | here => exact hm
  | argument _ hdefers _ ih =>
    apply ih
    cases hdefers with
    | give => exact hm.given _
    | _ => exact hm
  | body _ hsteps _ _ ih =>
    apply ih
    exact hsteps.silent hm

theorem BreaksOff.silent {t : Term} {m : Machine} {s : Entities} (h : BreaksOff t m s) (hm : m.Silent) :
    s.find? Entity.yielded = none := by
  cases h with
  | parts => exact hm
  | rule => exact hm
  | stalled _ hstep hagree =>
    have hscope := keeps_step allows_keepsScope t m
    rw [hstep] at hscope
    exact Entities.silent_of_agree hm hscope hagree

theorem Leaves.silent {t : Term} {m m' : Machine} (h : Leaves t m m'.entities) (hm : m.Silent) : m'.Silent := by
  obtain ⟨u, m₁, s, hcomes, hbreaks, hm'⟩ := h
  rw [Machine.Silent, hm', Entities.find?_assign_of_ne (by decide)]
  exact hbreaks.silent (hcomes.silent hm)

/-- A stuck step of any term leaves a silent machine silent. -/
theorem silent_of_step_stuck {t : Term} {m m' : Machine} {cause : Stuck} (h : step t m = .error (.stuck cause) m')
    (hm : m.Silent) : m'.Silent := (step_stuck h).silent hm

/-! ## Steps and runs of `atomic` -/

theorem pending_atomic (params : List Term) : pending (.effect .atomic) params = [] := by
  rcases params with _ | ⟨X, rest⟩
  · rfl
  · rfl

/-- The steps of a body come to a value or to an `atomic` again. They leave the machine silent, unless there was nothing
to do on a machine that was not. -/
theorem Engine.atomicWithin_ok {fuel rounds : Nat} {body t : Term} {m m' : Machine}
    (h : atomicWithin (advanceFor fuel) rounds body m = .ok t m') :
    (t.isValue = true ∨ ∃ Y, t = .node (.effect .atomic) [Y]) ∧ (m.Silent ∨ body.isValue = false → m'.Silent) := by
  obtain ⟨u, m₁, hsteps, hend⟩ := atomicWithin_cases h
  rcases hend with ⟨hv, hr⟩ | ⟨-, next, m₂, -, hr⟩ | ⟨-, halt, m₂, -, hr⟩ | hr
  · cases hr
    refine ⟨.inl hv, ?_⟩
    intro hm
    cases hsteps with
    | refl =>
      rcases hm with hm | hbody
      · exact hm
      · rw [hv] at hbody
        cases hbody
    | step _ _ hsilent hrest => exact hrest.silent hsilent
  · cases hr
    constructor
    · by_cases hv : next.isValue = true
      · simp [hv]
      · simp [hv]
    · intro _
      show Entities.find? (Entities.remove _ _) _ = none
      rw [Entities.find?_remove, if_pos rfl]
  · cases hr
  · cases hr

theorem atomic_of_step {X t : Term} {m m' : Machine} (h : step (.node (.effect .atomic) [X]) m = .ok t m') :
    (t.isValue = true ∨ ∃ Y, t = .node (.effect .atomic) [Y]) ∧ (m.Silent ∨ X.isValue = false → m'.Silent) := by
  obtain ⟨fuel, hfuel⟩ := step_eq_ok.mp h
  cases fuel with
  | zero => cases hfuel
  | succ fuel =>
    have hrule :
        (charge >>= fun _ => applyRule (stepFor fuel) (advanceFor fuel) fuel (.effect .atomic) [X]) m = .ok t m' := by
      rw [← stepNode_eq_rule (pending_atomic [X])]
      exact hfuel
    obtain ⟨_, m₁, hcharge, hbody⟩ := Eval.bind_eq_ok.mp hrule
    obtain rfl := charge_eq_ok hcharge
    obtain ⟨hend, hsilent⟩ := atomicWithin_ok hbody
    exact ⟨hend, hsilent⟩

/-- A row of steps that begins with an `atomic` on a silent machine ends with a value or an `atomic` on a silent
machine. -/
theorem Steps.atomic {t u : Term} {m m' : Machine} (h : Steps (fun _ => True) t m u m')
    (ht : t.isValue = true ∨ ∃ X, t = .node (.effect .atomic) [X]) (hm : m.Silent) :
    (u.isValue = true ∨ ∃ X, u = .node (.effect .atomic) [X]) ∧ m'.Silent := by
  induction h with
  | refl => exact ⟨ht, hm⟩
  | step hv hstep _ _ ih =>
    rcases ht with ht | ⟨X, rfl⟩
    · rw [ht] at hv
      cases hv
    · obtain ⟨hnext, hsilent⟩ := atomic_of_step hstep
      exact ih hnext (hsilent (.inl hm))

/-- A run takes steps until it has a value or does not get any further. -/
theorem Engine.runWith_cases {fuel rounds : Nat} {t : Term} {m : Machine} {out : EStateM.Result Halt Machine Term}
    (h : runWith (advanceFor fuel) rounds t m = out) :
    ∃ u m₁, Steps (fun _ => True) t m u m₁ ∧ ((u.isValue = true ∧ out = .ok u m₁) ∨
      (∃ halt m₂, advanceFor fuel u m₁ = .error halt m₂ ∧ out = .error halt m₂) ∨ out = .error .outOfFuel m₁) := by
  induction rounds generalizing t m with
  | zero =>
    unfold runWith at h
    by_cases hv : t.isValue = true
    · rw [if_pos hv] at h
      exact ⟨t, m, .refl, .inl ⟨hv, h.symm⟩⟩
    · rw [if_neg hv] at h
      exact ⟨t, m, .refl, .inr (.inr h.symm)⟩
  | succ rounds ih =>
    unfold runWith at h
    by_cases hv : t.isValue = true
    · rw [if_pos hv] at h
      exact ⟨t, m, .refl, .inl ⟨hv, h.symm⟩⟩
    · rw [if_neg hv] at h
      change (advanceFor fuel t >>= runWith (advanceFor fuel) rounds) m = out at h
      rcases hadvance : advanceFor fuel t m with ⟨next, m₁⟩ | ⟨halt, m₁⟩
      · rw [bind_of_ok hadvance] at h
        obtain ⟨u, m₂, hsteps, hend⟩ := ih h
        have hstep : step t m = .ok next m₁ := step_eq_ok.mpr ⟨fuel, advanceWith_ok hadvance⟩
        exact ⟨u, m₂, .step (by simpa using hv) hstep trivial hsteps, hend⟩
      · rw [bind_of_error hadvance] at h
        exact ⟨t, m, .refl, .inr (.inl ⟨halt, m₁, hadvance, h.symm⟩)⟩

theorem silent_of_run_atomic {X : Term} {m : Machine} (hm : m.Silent)
    (hend : isOk (run (.node (.effect .atomic) [X]) m) = true ∨ isStuck (run (.node (.effect .atomic) [X]) m) = true) :
    (machineAfter (run (.node (.effect .atomic) [X]) m)).Silent := by
  have hfinished : Finished (run (.node (.effect .atomic) [X]) m) := by
    rcases hend with hok | hstuck
    · obtain ⟨v, m', h⟩ := exists_of_isOk hok
      rw [h]
      trivial
    · obtain ⟨cause, m', h⟩ := exists_of_isStuck hstuck
      rw [h]
      trivial
  obtain ⟨fuel, hfuel⟩ := (run_eq_iff hfinished).mp rfl
  rw [← hfuel] at hend ⊢
  obtain ⟨u, m₁, hsteps, hcase⟩ := runWith_cases (rfl : runWith (advanceFor fuel) fuel (.node (.effect .atomic) [X]) m = _)
  have hlast := (hsteps.atomic (.inr ⟨X, rfl⟩) hm).2
  change isOk (runWith (advanceFor fuel) fuel _ m) = true ∨ isStuck (runWith (advanceFor fuel) fuel _ m) = true at hend
  show (machineAfter (runWith (advanceFor fuel) fuel _ m)).Silent
  rcases hcase with ⟨-, hr⟩ | ⟨halt, m₂, hadvance, hr⟩ | hr
  · rw [hr]
    exact hlast
  · rw [hr] at hend ⊢
    cases halt with
    | stuck cause => exact (advanceFor_leaves stepFor_leaves hadvance).silent hlast
    | _ => simp [isOk, isStuck] at hend
  · rw [hr] at hend
    simp [isOk, isStuck] at hend

/-- On a machine where the signal is not raised, a step or a run of an `atomic` that comes to a result or gets stuck
leaves it not raised. A step of an `atomic` whose body is not a value leaves it not raised on every machine, if it
succeeds. -/
theorem yield_stays_in_atomic (X : Term) (m : Machine) :
    (m.Silent → ∀ out, out = step (.node (.effect .atomic) [X]) m ∨ out = run (.node (.effect .atomic) [X]) m →
      isOk out = true ∨ isStuck out = true → (machineAfter out).Silent) ∧
    (X.isValue = false → ∀ t m', step (.node (.effect .atomic) [X]) m = .ok t m' → m'.Silent) := by
  constructor
  · rintro hm out (rfl | rfl) hend
    · rcases hend with hok | hstuck
      · obtain ⟨t, m', h⟩ := exists_of_isOk hok
        rw [h]
        exact (atomic_of_step h).2 (.inl hm)
      · obtain ⟨cause, m', h⟩ := exists_of_isStuck hstuck
        rw [h]
        exact silent_of_step_stuck h hm
    · exact silent_of_run_atomic hm hend
  · intro hX t m' h
    exact (atomic_of_step h).2 (.inr hX)

/-- The signal is raised in an argument of `print` and as a statement, then inside an inner `atomic` that gets stuck.
The first step succeeds, the run is stuck, and with the signal raised beforehand the step clears it. -/
theorem yield_stays_in_atomic_nested :
    let X : Term := .node (.flow .sequential)
      [.seq [.node (.effect .print) [.seq [.node (.effect .yieldOnValue) [.int 7]]], .node (.effect .yield) []],
        .node (.effect .atomic) [.node (.flow .sequential) [.seq [.node (.effect .yield) []], .node (.flow .stuck) []]]]
    let t : Term := .node (.effect .atomic) [X]
    let m : Machine := ⟨{}, .empty, ⟨0⟩, 0⟩
    let raised : Machine := ⟨{}, ⟨[(Entity.yielded, signal)]⟩, ⟨0⟩, 0⟩
    (isOk (step t m) = true ∧ (machineAfter (step t m)).Silent) ∧
    (isStuck (run t m) = true ∧ (machineAfter (run t m)).Silent) ∧
    ¬ raised.Silent ∧ ∃ u m', step t raised = .ok u m' ∧ m'.Silent := by
  intro X t m raised
  have hstep : isOk (stepFor 12 t m) = true := by decide +kernel
  have hrun : isStuck (runFor 16 t m) = true := by decide +kernel
  have hraised : isOk (stepFor 12 t raised) = true := by decide +kernel
  obtain ⟨u, m₁, hstep⟩ := exists_of_isOk hstep
  obtain ⟨cause, m₂, hrun⟩ := exists_of_isStuck hrun
  obtain ⟨v, m₃, hraised⟩ := exists_of_isOk hraised
  have hstep : step t m = .ok u m₁ := step_eq_ok.mpr ⟨12, hstep⟩
  have hrun : run t m = .error (.stuck cause) m₂ := (run_eq_iff (by trivial)).mpr ⟨16, hrun⟩
  have hraised : step t raised = .ok v m₃ := step_eq_ok.mpr ⟨12, hraised⟩
  have hstepOk : isOk (step t m) = true := by rw [hstep]; rfl
  have hrunStuck : isStuck (run t m) = true := by rw [hrun]; rfl
  obtain ⟨hsilent, -⟩ := yield_stays_in_atomic X m
  obtain ⟨-, hcleared⟩ := yield_stays_in_atomic X raised
  refine ⟨⟨hstepOk, hsilent rfl _ (.inl rfl) (.inl hstepOk)⟩,
    ⟨hrunStuck, hsilent rfl _ (.inr rfl) (.inr hrunStuck)⟩, ?_, ?_⟩
  · intro h
    cases h
  · exact ⟨v, m₃, hraised, hcleared rfl v m₃ hraised⟩

end TermMachine
