import TermMachine.Proofs.FullyEvaluated
import TermMachine.Proofs.LocalComposition

/-!
# Stall detection makes no difference

With stall detection, a step of a run that brings back the same term and the same entities is stuck. That would show:
an attempt that is stuck is taken back and the next part is tried. But a step from a closed term in a closed machine
comes down, so it never brings back both, and the check finds nothing, in the run of the program or in a run within a
step of it. What is read is closed.

That the check finds nothing is a fact about the machine in which a computation starts, and so is what follows from it
(`Indifferent`). The laws below say it of what is put together from such computations, each in the machine that it
comes to.

Proved:
* `advanceWith_eq_step`: the check finds nothing, so to advance is to step.
* `indifferent_composesAt`: so whether it is made makes no difference to what the engine does with closed terms.
* `stall_detection_is_invisible`: nor does it to an execution, and no program is ever stuck because of it.
-/

namespace TermMachine

open Term Eval Rules

/-! ## Steps from closed terms change something -/

namespace Entities

theorem search_mem {name : String} {t : Term} {entries : List (String × Term)} (h : search name entries = some t) :
    (name, t) ∈ entries := by
  induction entries with
  | nil => cases h
  | cons e rest ih =>
    obtain ⟨n, u⟩ := e
    unfold search at h
    split at h
    · next heq =>
      cases h
      simp [heq]
    · exact List.mem_cons_of_mem _ (ih h)

/-- What is set in a store is set to the same in one that agrees with it. -/
theorem find?_of_agree_some {s s' : Entities} {name : String} {t : Term} (hagree : s.agree s' = true)
    (h : s.find? name = some t) : s'.find? name = some t := by
  rw [agree, Bool.and_eq_true, List.all_eq_true] at hagree
  simpa using hagree.2 (name, t) (search_mem h)

theorem inputNodes_of_agree {s s' : Entities} (hagree : s.agree s' = true) : s.inputNodes ≤ s'.inputNodes := by
  rcases hf : s.find? Entity.standardIn with _ | t
  · simp [inputNodes, get, hf, Term.empty, Term.nodes, nodesIn]
  · simp [inputNodes, get, hf, find?_of_agree_some hagree hf]

end Entities

/-- What comes down does not come back. -/
theorem Descends.changes {t : Term} {s s' : Entities} (h : Descends t s t s') : s.agree s' = false := by
  rcases hagree : s.agree s' with _ | _
  · rfl
  · have hinput := Entities.inputNodes_of_agree hagree
    have hlower := h.lower
    simp only [weight] at hlower
    omega

theorem Engine.advanceWith_eq_step {step : Term → Eval Term} (hd : Descending step) {t : Term} {m : Machine}
    (hc : t.closed = true) (hm : m.entities.Closed) (hv : t.isValue = false) : advanceWith step t m = step t m := by
  rw [advanceWith, bind_of_ok (get_apply m)]
  rcases hr : step t m with ⟨next, m₁⟩ | ⟨halt, m₁⟩
  · rw [bind_of_ok hr, bind_of_ok (entities_apply m₁)]
    by_cases hsame : next = t
    · subst hsame
      simp [(hd next m next m₁ hc hm hv hr).changes]
    · simp [hsame]
  · rw [bind_of_error hr]

/-! ## Indifferent computations -/

def Machine.detecting (b : Bool) (m : Machine) : Machine :=
  { m with config := { m.config with stallDetection := b } }

theorem aside_detecting (b : Bool) : Machine.Aside (Machine.detecting b) := ⟨fun _ _ => rfl, fun _ _ => rfl⟩

/-- No term is stuck for a stall, however deep. -/
def Stuck.Progresses : Stuck → Prop
  | .noProgress _ => False
  | .parameter _ cause | .element cause => cause.Progresses
  | .rule _ _ | .misfit _ _ => True

/-- In the machine the computation does the same with stall detection on and off, a stall is not among the causes of its
getting stuck, and its result is as it should be. -/
structure Eval.Indifferent {α : Type} (post : α → Prop) (x : Eval α) (m : Machine) : Prop where
  same : ∀ b, x (m.detecting b) = onMachine (Machine.detecting b) (x m)
  cause : ∀ {cause m'}, x m = .error (.stuck cause) m' → cause.Progresses
  result : ∀ {a m'}, x m = .ok a m' → post a

namespace Eval.Indifferent

variable {α β : Type} {post : α → Prop} {x : Eval α} {m : Machine}

/-- A computation that has a result, whatever the configuration. -/
theorem of_ok {a : α} {m' : Machine} (hx : x m = .ok a m') (hb : ∀ b, x (m.detecting b) = .ok a (m'.detecting b))
    (ha : post a) : Indifferent post x m := by
  refine ⟨fun b => ?_, fun h => ?_, fun h => ?_⟩
  · rw [hb b, hx]
    rfl
  · cases hx.symm.trans h
  · cases hx.symm.trans h
    exact ha

/-- A computation that is halted, whatever the configuration. -/
theorem of_error {halt : Halt} (hx : ∀ m, x m = .error halt m) (hcause : ∀ cause, halt = .stuck cause → cause.Progresses) :
    Indifferent post x m := by
  refine ⟨fun b => ?_, fun h => ?_, fun h => ?_⟩
  · rw [hx, hx]
    rfl
  · cases (hx m).symm.trans h
    exact hcause _ rfl
  · cases (hx m).symm.trans h

theorem stuck {cause : Stuck} (h : cause.Progresses) : Indifferent post (stuck cause : Eval α) m := by
  refine of_error (fun _ => rfl) fun c hc => ?_
  cases hc
  exact h

theorem bind {mid : β → Prop} {y : Eval β} {f : β → Eval α} (hy : Indifferent mid y m)
    (hf : ∀ b m', y m = .ok b m' → mid b → Indifferent post (f b) m') : Indifferent post (y >>= f) m := by
  rcases hr : y m with ⟨a, m₁⟩ | ⟨halt, m₁⟩
  · have hrest := hf a m₁ hr (hy.result hr)
    refine ⟨fun b => ?_, fun h => ?_, fun h => ?_⟩
    · have hb := hy.same b
      rw [hr] at hb
      rw [bind_of_ok hr, bind_of_ok hb]
      exact hrest.same b
    · rw [bind_of_ok hr] at h
      exact hrest.cause h
    · rw [bind_of_ok hr] at h
      exact hrest.result h
  · refine ⟨fun b => ?_, fun h => ?_, fun h => ?_⟩
    · have hb := hy.same b
      rw [hr] at hb
      rw [bind_of_error hr, bind_of_error hb]
      rfl
    · rw [bind_of_error hr] at h
      cases h
      exact hy.cause hr
    · rw [bind_of_error hr] at h
      cases h

theorem charge : Indifferent (fun _ => True) charge m := by
  unfold Eval.charge
  rcases hlimit : m.config.stepLimit with _ | limit
  · exact ⟨fun b => by simp [Machine.detecting, hlimit, onMachine], fun h => by simp [hlimit] at h, fun _ => trivial⟩
  · by_cases hover : limit < m.steps + 1
    · exact ⟨fun b => by simp [Machine.detecting, hlimit, hover, onMachine], fun h => by simp [hlimit, hover] at h,
        fun _ => trivial⟩
    · exact ⟨fun b => by simp [Machine.detecting, hlimit, hover, onMachine], fun h => by simp [hlimit, hover] at h,
        fun _ => trivial⟩

theorem speculate (hx : Indifferent post x m) : Indifferent (Tried post Stuck.Progresses) (speculate x) m := by
  refine ⟨fun b => ?_, fun h => absurd rfl ((speculate_eq_error.mp h).2 _), fun h => ?_⟩
  · have hb := hx.same b
    rcases hr : x m with ⟨a, m₁⟩ | ⟨halt, m₁⟩
    · rw [hr] at hb
      simp only [Eval.speculate, hr, hb, onMachine]
    · rw [hr] at hb
      cases halt with
      | _ => simp only [Eval.speculate, hr, hb, onMachine] <;> rfl
  · rcases speculate_eq_ok.mp h with ⟨a, rfl, ha⟩ | ⟨cause, m₁, rfl, hcause, -⟩
    · exact hx.result ha
    · exact hx.cause hcause

theorem recover (hx : Indifferent post x m) : Indifferent (Tried post Stuck.Progresses) (recover x) m := by
  have hresult : ∀ {r m'}, Eval.recover x m = .ok r m' → Tried post Stuck.Progresses r := by
    intro r m' h
    rcases recover_eq_ok.mp h with ⟨a, rfl, ha⟩ | ⟨cause, rfl, hcause⟩
    · exact hx.result ha
    · exact hx.cause hcause
  have hb := hx.same
  rcases hr : x m with ⟨a, m₁⟩ | ⟨halt, m₁⟩
  · rw [hr] at hb
    exact ⟨fun b => by simp only [Eval.recover, hr, hb, onMachine], fun h => by simp [Eval.recover, hr] at h, hresult⟩
  · rw [hr] at hb
    cases halt with
    | _ => exact ⟨fun b => by simp only [Eval.recover, hr, hb, onMachine], fun h => by simp [Eval.recover, hr] at h, hresult⟩

theorem withGiven {value : Term} (hx : Indifferent post x { m with entities := m.entities.put Entity.givenValue value }) :
    Indifferent post (withGiven value x) m := by
  refine ⟨fun b => ?_, fun h => ?_, fun h => ?_⟩
  · have hb := hx.same b
    rcases hr : x { m with entities := m.entities.put Entity.givenValue value } with ⟨a, m₁⟩ | ⟨halt, m₁⟩
    · rw [hr] at hb
      rw [withGiven_eq_ok.mpr ⟨m₁, hr, rfl⟩, withGiven_eq_ok.mpr ⟨m₁.detecting b, hb, rfl⟩]
      rfl
    · rw [hr] at hb
      rw [withGiven_eq_error.mpr ⟨m₁, hr, rfl⟩, withGiven_eq_error.mpr ⟨m₁.detecting b, hb, rfl⟩]
      rfl
  · obtain ⟨m₁, h, -⟩ := withGiven_eq_error.mp h
    exact hx.cause h
  · obtain ⟨m₁, h, -⟩ := withGiven_eq_ok.mp h
    exact hx.result h

/-- The check is the one place that looks at whether stall detection is on, and it finds nothing either way. -/
theorem advanceFor {fuel : Nat} {t : Term} {post : Term → Prop} (hx : Indifferent post (Engine.stepFor fuel t) m)
    (hc : t.closed = true) (hm : m.entities.Closed) (hv : t.isValue = false) :
    Indifferent post (Engine.advanceFor fuel t) m := by
  have heq : ∀ m₁ : Machine, m₁.entities.Closed → Engine.advanceFor fuel t m₁ = Engine.stepFor fuel t m₁ :=
    fun m₁ hm₁ => Engine.advanceWith_eq_step (Engine.stepFor_descends fuel) hc hm₁ hv
  refine ⟨fun b => ?_, fun h => hx.cause (heq m hm ▸ h), fun h => hx.result (heq m hm ▸ h)⟩
  rw [heq m hm, heq (m.detecting b) hm]
  exact hx.same b

/-- What is settled does the same whether it ends or not. -/
theorem settle {x : Nat → Eval α} (hx : ∀ fuel, Indifferent post (x fuel) m) (hsteady : Steady x) :
    Indifferent post (settle x) m := by
  have hfinished : ∀ b fuel, Finished (x fuel (m.detecting b)) ↔ Finished (x fuel m) := by
    intro b fuel
    rw [(hx fuel).same b]
    rcases x fuel m with ⟨a, m₁⟩ | ⟨halt, m₁⟩
    · exact Iff.rfl
    · cases halt with
      | _ => exact Iff.rfl
  by_cases hends : ∃ fuel, Finished (x fuel m)
  · obtain ⟨fuel, hfuel⟩ := hends
    have hm := settle_eq_of_finished hsteady hfuel
    refine ⟨fun b => ?_, fun h => (hx fuel).cause (hm ▸ h), fun h => (hx fuel).result (hm ▸ h)⟩
    rw [hm, settle_eq_of_finished hsteady ((hfinished b fuel).mpr hfuel)]
    exact (hx fuel).same b
  · have hm : ∀ fuel, ¬ Finished (x fuel m) := fun fuel hfuel => hends ⟨fuel, hfuel⟩
    refine ⟨fun b => ?_, fun h => ?_, fun h => ?_⟩
    · rw [settle_of_never hm, settle_of_never fun fuel hfuel => hm fuel ((hfinished b fuel).mp hfuel)]
      rfl
    · rw [settle_of_never hm] at h
      cases h
    · rw [settle_of_never hm] at h
      cases h

end Eval.Indifferent

/-! ## What the engine does with closed terms -/

/-- Rules that step no argument do not look at the configuration. -/
theorem rule_indifferent {fuel : Nat} {op : Operator} {params : List Term} {m : Machine}
    (hop : Engine.stepsArgument op = false) : Indifferent (fun _ => True)
      (Engine.applyRule (Engine.stepFor fuel) (Engine.advanceFor fuel) fuel op params) m := by
  refine ⟨fun b => Engine.applyRule_unseen (aside_detecting b) params hop m, fun h => ?_, fun _ => trivial⟩
  rcases Engine.applyRule_cases hop h with ⟨_, hr⟩ | ⟨_, _, -, hr⟩
  · cases hr
    trivial
  · cases hr

theorem closed_keptBySteps : KeptBySteps fun _ t s => t.closed = true ∧ s.Closed := by
  intro _ t t' m m' h hv hstep
  have hdown := descends_of_step h.1 h.2 hv hstep
  exact ⟨hdown.closed, hdown.entities⟩

/-- Where the engine turns to in the course of a step of a closed term, that is closed too. -/
theorem TurnsTo.closed {taken : List (Term × Machine)} {t u : Term} {m m' : Machine} (h : TurnsTo t m taken u m')
    (ht : t.closed = true) (hm : m.entities.Closed) : u.closed = true ∧ m'.entities.Closed := by
  apply h.carries closed_keptBySteps [] (fun v hv => ⟨closed_of_mem_parts ht hv, hm⟩)
  rintro params value body rfl hpending hvalue hbody
  rw [Term.closed] at ht
  have hzero := Engine.evaluated_of_pending hpending ht 0 .eager _ rfl rfl hvalue
  exact ⟨(Engine.param_closed ht hbody).1, hm.put hzero⟩

theorem indifferent_composesAt :
    ComposesAt (fun t m => t.closed = true ∧ m.entities.Closed) (fun _ => True) Stuck.Progresses (fun _ => Indifferent) where
  inside h hturns := hturns.closed h.1 h.2
  good_part _ _ := trivial
  good_seq _ := trivial
  good_spread _ := trivial
  good_stepping _ _ := trivial
  good_replaced _ _ _ _ _ := trivial
  fine_rule _ _ := trivial
  fine_misfit _ _ := trivial
  fine_element h := h
  fine_parameter _ h := h
  pure ha := .of_ok rfl (fun _ => rfl) ha
  stuck := .stuck
  outOfFuel := .of_error (fun _ => rfl) (by simp)
  bind := .bind
  charge := .charge
  speculate := .speculate
  recover := .recover
  withGiven _ := .withGiven
  takeYield := .of_ok rfl (fun _ => rfl) trivial
  advance h hv hx := hx.advanceFor h.1 h.2 hv
  rule _ _ _ hop _ := rule_indifferent hop

/-! ## Executions -/

namespace Execution

variable {t : Term} {inputs : List Term} {m : Machine}

theorem supply_indifferent : Indifferent (fun _ => True) (supply inputs) m := by
  unfold supply
  by_cases hempty : (flatten inputs).isEmpty = true
  · simp only [hempty, if_true]
    exact .of_ok rfl (fun _ => rfl) trivial
  · simp only [hempty]
    exact .of_ok rfl (fun _ => rfl) trivial

section
variable (hc : t.closed = true) (hinputs : ∀ input ∈ inputs, input.closed = true) (hm : m.entities.Closed)
include hc hinputs hm

theorem executeFor_indifferent (fuel : Nat) :
    Indifferent (fun e => ∀ u cause, e.outcome = .stuck u cause → cause.Progresses) (executeFor fuel t inputs) m := by
  refine .bind supply_indifferent fun _ m₁ hsupply _ => ?_
  have hm₁ := (supply_closed hinputs hm hsupply).1
  have hdrive := indifferent_composesAt.driveWith (indifferent_composesAt.stepFor fuel) (closed_keptBySteps [] _ _ _ _) fuel
    ⟨hc, hm₁⟩ trivial
  exact .bind hdrive fun outcome m₂ _ hcause => .of_ok rfl (fun _ => rfl) hcause

theorem execute_indifferent :
    Indifferent (fun e => ∀ u cause, e.outcome = .stuck u cause → cause.Progresses) (execute t inputs) m :=
  .settle (fun fuel => executeFor_indifferent hc hinputs hm fuel) (executeFor_steady t inputs)

end

end Execution

/-- A program and its inputs as they are read, on a new machine, with any seed and any step limit or none. With stall
detection off the execution comes to the same as with it on: the same outcome, output and store or the same halt, the
same entities and choices, and the same number of steps. In no state that the program may pass through does the check for a
stall find anything, so that advancing is stepping there, and no program that is stuck is so because of a stall. -/
theorem stall_detection_is_invisible {source : String} {t : Term} {inputs : List Term} {config : Config} {on off m : Machine}
    (ht : readTerm source = .ok t) (hinputs : ∀ input ∈ inputs, ∃ source, readTerm source = .ok input)
    (hon : Machine.start { config with stallDetection := true } = .ok on)
    (hoff : Machine.start { config with stallDetection := false } = .ok off)
    (hsupply : Execution.supply inputs on = .ok () m) :
    execute t inputs off = onMachine (Machine.detecting false) (execute t inputs on) ∧
    (∀ u outer s, Visited t m.entities (u :: outer) s → u.isValue = false →
      ∀ m', m'.entities = s → ∀ fuel, Engine.advanceFor fuel u m' = Engine.stepFor fuel u m') ∧
    ∀ e m', execute t inputs on = .ok e m' → ∀ u cause, e.outcome = .stuck u cause → cause.Progresses := by
  have hc := closed_of_readTerm ht
  have hclosed : ∀ input ∈ inputs, input.closed = true := by
    intro input hinput
    obtain ⟨source, hread⟩ := hinputs input hinput
    exact closed_of_readTerm hread
  unfold Machine.start at hon hoff
  split at hon <;> cases hon
  split at hoff <;> cases hoff
  set on : Machine := ⟨{ config with stallDetection := true }, .empty, .ofSeed config.seed, 0⟩
  have hempty : on.entities.Closed := Entities.closed_empty
  have hexecute := Execution.execute_indifferent hc hclosed hempty
  refine ⟨hexecute.same false, ?_, fun e m' h => hexecute.result h⟩
  rintro u outer s hvisited hv m' rfl fuel
  have hm := (Execution.supply_closed hclosed hempty hsupply).1
  obtain ⟨hterms, hs⟩ := hvisited.closed hc hm
  exact Engine.advanceWith_eq_step (Engine.stepFor_descends fuel) (hterms u (by simp)) hs hv

/-- `list(fail,print(1))`: the failure is tried and set aside, then the other argument is run, and in the end the failure is
in the way. -/
theorem stall_detection_is_invisible_fail :
    let t : Term := .node (.composite .list) [.seq [.node (.flow .fail) [], .node (.effect .print) [.seq [.int 1]]]]
    let on : Machine := ⟨{}, .empty, .ofSeed 0x5EED, 0⟩
    let off : Machine := ⟨{ stallDetection := false }, .empty, .ofSeed 0x5EED, 0⟩
    ∃ e m' u cause, readTerm "list(fail,print(1))" = .ok t ∧ execute t [] on = .ok e m' ∧
      execute t [] off = .ok e (m'.detecting false) ∧ e.outcome = .stuck u cause ∧ cause.Progresses := by
  intro t on off
  have hread : readTerm "list(fail,print(1))" = .ok t := by decide +kernel +zetaReduce
  obtain ⟨e, m', u, cause, hfuel, hstuck⟩ : ∃ e m' u cause, Execution.executeFor 8 t [] on = .ok e m' ∧
      e.outcome = .stuck u cause := ⟨_, _, _, _, rfl, rfl⟩
  have hexecute : execute t [] on = .ok e m' := (execute_eq_iff (by trivial)).mpr ⟨8, hfuel⟩
  have hinputs : ∀ input ∈ ([] : List Term), ∃ source, readTerm source = .ok input := by simp
  have hon : Machine.start { ({} : Config) with stallDetection := true } = .ok on := rfl
  have hoff : Machine.start { ({} : Config) with stallDetection := false } = .ok off := rfl
  obtain ⟨hsame, -, hcause⟩ := stall_detection_is_invisible hread hinputs hon hoff
    (show Execution.supply [] on = .ok () on from rfl)
  rw [hexecute] at hsame
  exact ⟨e, m', u, cause, hread, hexecute, hsame, hstuck, hcause e m' hexecute u cause hstuck⟩

end TermMachine
