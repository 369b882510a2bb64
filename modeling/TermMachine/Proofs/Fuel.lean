import TermMachine.Execution
import TermMachine.Proofs.Computation

/-!
# More fuel keeps a finished answer

Every function of the engine takes the steps of the parts inside as an argument, and makes no more
of a better step than a better result. So `stepNode` with more fuel refines `stepNode` with less, by
induction on the fuel, and with it all that is built from it.

Proved:
* `stepFor_steady` / `runFor_steady` / `executeFor_steady`: more fuel never changes a result.
* `runFor_of_advance`: a step and a run make a run.
* `step_eq_iff`, `run_eq_iff`, `execute_eq_iff`: what `step`, `run` and `execute` end with is what some
  amount of fuel gives.
-/

namespace TermMachine

open Eval Rules

namespace Engine

/-! ## Sequences -/

mutual
theorem stepWith_refines {s s' : Operator → List Term → Eval Term}
    (hs : ∀ op params, Refines (s op params) (s' op params)) (t : Term) :
    Refines (stepWith s t) (stepWith s' t) := by
  cases t with
  | seq items =>
    simp only [stepWith]
    split
    · exact .refl _
    · exact .bind (stepFirst_refines hs none items) fun _ => .refl _
  | spread items =>
    simp only [stepWith]
    split
    · exact .refl _
    · exact .bind (stepFirst_refines hs none items) fun _ => .refl _
  | node op params => simpa only [stepWith] using hs op params
  | _ => simp only [stepWith]; exact .refl _

theorem stepFirst_refines {s s' : Operator → List Term → Eval Term}
    (hs : ∀ op params, Refines (s op params) (s' op params)) (blocked : Option Stuck) (items : List Term) :
    Refines (stepFirst s blocked items) (stepFirst s' blocked items) := by
  match items with
  | [] => cases blocked <;> simp only [stepFirst] <;> exact .refl _
  | t :: rest =>
    simp only [stepFirst]
    split
    · exact .bind (stepFirst_refines hs blocked rest) fun _ => .refl _
    · refine .bind (stepWith_refines hs t).speculate fun r => ?_
      cases r with
      | ok next => exact .refl _
      | error cause => exact .bind (stepFirst_refines hs (some cause) rest) fun _ => .refl _
end

/-! ## Runs, nodes and rules -/

section
variable {step step' : Term → Eval Term} (hs : ∀ t, Refines (step t) (step' t))
include hs

theorem advanceWith_refines (t : Term) : Refines (advanceWith step t) (advanceWith step' t) :=
  .bind (.refl _) fun _ => .bind (hs t) fun _ => .refl _

theorem runWith_refines {n n' : Nat} (hn : n ≤ n') (t : Term) :
    Refines (runWith step n t) (runWith step' n' t) := by
  induction n generalizing n' t with
  | zero =>
    intro m h
    unfold runWith at h ⊢
    split
    · rfl
    · rename_i hv
      simp [hv] at h
  | succ n ih =>
    obtain ⟨n', rfl⟩ : ∃ k, n' = k + 1 := ⟨n' - 1, by omega⟩
    unfold runWith
    split
    · exact .refl _
    · exact .bind (hs t) fun next => ih (by omega) next

theorem reducePending_refines (op : Operator) (params : List Term) (blocked : Option Stuck)
    (rest : List (Nat × Term)) :
    Refines (reducePending step op params blocked rest) (reducePending step' op params blocked rest) := by
  induction rest generalizing blocked with
  | nil => cases blocked <;> exact .refl _
  | cons p rest ih =>
    obtain ⟨index, t⟩ := p
    simp only [reducePending]
    refine .bind (Refines.bind (hs t) fun _ => .refl _).speculate fun r => ?_
    cases r with
    | ok next => exact .refl _
    | error cause => exact ih _

theorem flow_refines (op : Operator.Flow) (params : List Term) :
    Refines (flow step op params) (flow step' op params) := by
  have hone : ∀ (op : Operator) (choose : List Term → Option Nat),
      Refines (stepOne step op choose params) (stepOne step' op choose params) := by
    intro op choose
    refine .bind (.refl _) fun items => ?_
    split
    · exact .refl _
    · exact .bind (hs _) fun _ => .refl _
  cases op with
  | leftToRight => exact hone _ _
  | rightToLeft => exact hone _ _
  | sequential =>
    refine .bind (.refl _) fun statements => .bind (.refl _) fun last => ?_
    split
    · exact .refl _
    · split
      · exact .bind (hs _) fun _ => .refl _
      · exact .refl _
  | _ => exact .refl _

theorem atomicWithin_refines {n n' : Nat} (hn : n ≤ n') (body : Term) :
    Refines (atomicWithin step n body) (atomicWithin step' n' body) := by
  induction n generalizing n' body with
  | zero =>
    intro m h
    unfold atomicWithin at h ⊢
    split
    · rfl
    · rename_i hv
      simp [hv] at h
  | succ n ih =>
    obtain ⟨n', rfl⟩ : ∃ k, n' = k + 1 := ⟨n' - 1, by omega⟩
    unfold atomicWithin
    split
    · exact .refl _
    · refine .bind (hs body) fun next => .bind (.refl _) fun raised => ?_
      cases raised with
      | true => exact .refl _
      | false => exact ih (by omega) next

end

theorem applyRule_refines {step step' advance advance' : Term → Eval Term} {n n' : Nat}
    (hs : ∀ t, Refines (step t) (step' t)) (ha : ∀ t, Refines (advance t) (advance' t)) (hn : n ≤ n')
    (op : Operator) (params : List Term) :
    Refines (applyRule step advance n op params) (applyRule step' advance' n' op params) := by
  cases op with
  | flow f => exact flow_refines hs f params
  | effect f =>
    cases f with
    | atomic => exact .bind (.refl _) fun body => atomicWithin_refines ha hn body
    | give =>
      refine .bind (.refl _) fun value => .bind (.refl _) fun body => ?_
      split
      · exact .refl _
      · exact .bind (withGiven_refines (hs body)) fun _ => .refl _
    | _ => exact .refl _
  | _ => exact .refl _

/-- One step of a node is refined by the same step with more fuel. -/
theorem stepNode_refines {n n' : Nat} (hn : n ≤ n') (op : Operator) (params : List Term) :
    Refines (stepNode n op params) (stepNode n' op params) := by
  induction n generalizing n' op params with
  | zero => intro m h; simp [stepNode] at h
  | succ n ih =>
    obtain ⟨n', rfl⟩ : ∃ k, n' = k + 1 := ⟨n' - 1, by omega⟩
    have hle : n ≤ n' := by omega
    have hstep := stepWith_refines fun op params => ih hle op params
    have hadvance := advanceWith_refines hstep
    refine .bind (.refl _) fun _ => .bind ?_ fun r => ?_
    · exact reducePending_refines (fun t => runWith_refines hadvance hle t) op params none _
    · cases r with
      | some next => exact .refl _
      | none => exact applyRule_refines hstep hadvance hle op params

theorem stepFor_steady (t : Term) : Steady fun fuel => stepFor fuel t :=
  fun _ _ hn => stepWith_refines (stepNode_refines hn) t

theorem stepFor_of_le {t : Term} {m : Machine} {n k : Nat} {out : EStateM.Result Halt Machine Term} (hnk : n ≤ k)
    (h : stepFor n t m = out) (hout : Finished out) : stepFor k t m = out := by
  subst h
  exact stepFor_steady t n k hnk m hout

theorem advanceFor_refines {n n' : Nat} (hn : n ≤ n') (t : Term) :
    Refines (advanceFor n t) (advanceFor n' t) :=
  advanceWith_refines (fun t => stepFor_steady t n n' hn) t

theorem runFor_steady (t : Term) : Steady fun fuel => runFor fuel t :=
  fun _ _ hn => runWith_refines (advanceFor_refines hn) hn t

/-- A run that begins with a step goes on as the run of the next term, with fuel enough for both. -/
theorem runFor_of_advance {t t' : Term} {m m₁ : Machine} {n k : Nat} (hv : t.isValue = false)
    (hadvance : advanceFor n t m = .ok t' m₁) (hrun : Finished (runFor k t' m₁)) :
    runFor (max n k + 1) t m = runFor k t' m₁ := by
  have hfirst : advanceFor (max n k + 1) t m = .ok t' m₁ := by
    have hfinished : Finished (advanceFor n t m) := by rw [hadvance]; trivial
    rw [advanceFor_refines (by omega : n ≤ max n k + 1) t m hfinished, hadvance]
  have hrest : runWith (advanceFor (max n k + 1)) (max n k) t' m₁ = runFor k t' m₁ := by
    have hle : k ≤ max n k + 1 := by omega
    exact runWith_refines (advanceFor_refines hle) (by omega : k ≤ max n k) t' m₁ hrun
  show runWith (advanceFor (max n k + 1)) (max n k + 1) t m = _
  unfold runWith
  rw [if_neg (by simp [hv])]
  show (advanceFor (max n k + 1) t >>= runWith (advanceFor (max n k + 1)) (max n k)) m = _
  rw [bind_of_ok hfirst, hrest]

end Engine

namespace Execution

theorem driveWith_refines {advance advance' : Term → Eval Term}
    (ha : ∀ t, Refines (advance t) (advance' t)) {n n' : Nat} (hn : n ≤ n') (t : Term) :
    Refines (driveWith advance n t) (driveWith advance' n' t) := by
  induction n generalizing n' t with
  | zero =>
    intro m h
    unfold driveWith at h ⊢
    split
    · rfl
    · rename_i hv
      simp [hv] at h
  | succ n ih =>
    obtain ⟨n', rfl⟩ : ∃ k, n' = k + 1 := ⟨n' - 1, by omega⟩
    unfold driveWith
    split
    · exact .refl _
    · refine .bind (ha t).recover fun r => ?_
      cases r with
      | ok next => exact ih (by omega) next
      | error cause => exact .refl _

theorem executeFor_steady (t : Term) (inputs : List Term) :
    Steady fun fuel => executeFor fuel t inputs := by
  intro n n' hn
  refine .bind (.refl _) fun _ => .bind ?_ fun _ => .refl _
  exact driveWith_refines (Engine.advanceFor_refines hn) hn t

end Execution

/-! ## Results of `step`, `run` and `execute` -/

section
variable {t : Term} {inputs : List Term} {m : Machine} {fuel : Nat}

theorem step_eq_of_fuel (h : Finished (Engine.stepFor fuel t m)) : step t m = Engine.stepFor fuel t m :=
  settle_eq_of_finished (Engine.stepFor_steady t) h

theorem run_eq_of_fuel (h : Finished (Engine.runFor fuel t m)) : run t m = Engine.runFor fuel t m :=
  settle_eq_of_finished (Engine.runFor_steady t) h

theorem execute_eq_of_fuel (h : Finished (Execution.executeFor fuel t inputs m)) :
    execute t inputs m = Execution.executeFor fuel t inputs m :=
  settle_eq_of_finished (Execution.executeFor_steady t inputs) h

theorem step_eq_iff {r : EStateM.Result Halt Machine Term} (hr : Finished r) :
    step t m = r ↔ ∃ fuel, Engine.stepFor fuel t m = r := settle_eq_iff (Engine.stepFor_steady t) hr

theorem run_eq_iff {r : EStateM.Result Halt Machine Term} (hr : Finished r) :
    run t m = r ↔ ∃ fuel, Engine.runFor fuel t m = r := settle_eq_iff (Engine.runFor_steady t) hr

theorem execute_eq_iff {r : EStateM.Result Halt Machine Execution} (hr : Finished r) :
    execute t inputs m = r ↔ ∃ fuel, Execution.executeFor fuel t inputs m = r :=
  settle_eq_iff (Execution.executeFor_steady t inputs) hr

theorem step_eq_ok {t' : Term} {m' : Machine} : step t m = .ok t' m' ↔ ∃ fuel, Engine.stepFor fuel t m = .ok t' m' :=
  step_eq_iff trivial

theorem run_eq_ok {v : Term} {m' : Machine} : run t m = .ok v m' ↔ ∃ fuel, Engine.runFor fuel t m = .ok v m' :=
  run_eq_iff trivial

/-- A run goes on with some amount of fuel as it does with as much as it takes. -/
theorem Engine.advanceFor_ok {t' : Term} {m' : Machine} (h : advanceFor fuel t m = .ok t' m') :
    advanceWith step t m = .ok t' m' := by
  have hfinished : Finished (advanceFor fuel t m) := by rw [h]; trivial
  rw [advanceWith_refines (fun _ _ => step_eq_of_fuel) t m hfinished]
  exact h

end

end TermMachine
