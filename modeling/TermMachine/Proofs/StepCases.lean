import TermMachine.Proofs.RuleCases

/-!
# What a step can come to

A sequence that takes a step does so in one element, and a node in one parameter or by its rule. The
parts that were tried before are stuck, and have left the entities as they were; each lemma here gives
the part that moved and the machine in which it did.

Proved:
* `stepFirst_ok`, `reducePending_some`, `stepNode_ok`: where a successful step took place.
* `mem_pending`: which parameters are run before the rule is tried.
* `advanceWith_ok`, `advanceWith_error`: what a run makes of a step.
-/

namespace TermMachine

open Term Eval Rules

namespace Engine

/-! ## Sequences -/

/-- A value stays as it is. -/
theorem stepWith_of_isValue {s : Operator → List Term → Eval Term} {t : Term} (hv : t.isValue = true) (m : Machine) :
    stepWith s t m = .ok t m := by
  cases t with
  | seq items =>
    rw [isValue] at hv
    simp [stepWith, hv]
  | spread items =>
    rw [isValue] at hv
    simp [stepWith, hv]
  | node op params => simp [isValue] at hv
  | _ => simp [stepWith]

/-- All terms are values and none was in the way, or one that is not a value took a step after those
before it were tried. -/
theorem stepFirst_ok {s : Operator → List Term → Eval Term} {blocked : Option Stuck} {items items' : List Term}
    {m m' : Machine} (h : stepFirst s blocked items m = .ok items' m') :
    (blocked = none ∧ allValues items = true) ∨
    ∃ before t after next m₁, items = before ++ t :: after ∧ t.isValue = false ∧
      m₁.entities = m.entities ∧ stepWith s t m₁ = .ok next m' ∧ items' = before ++ next :: after := by
  induction items generalizing blocked m items' with
  | nil =>
    cases blocked with
    | none => exact Or.inl ⟨rfl, rfl⟩
    | some c => cases h
  | cons t rest ih =>
    simp only [stepFirst] at h
    split at h
    · rename_i hv
      obtain ⟨rest', m₁, hrest, hm⟩ := Eval.bind_eq_ok.mp h
      cases hm
      rcases ih hrest with ⟨rfl, hvs⟩ | ⟨before, u, after, next, m₂, rfl, hu, hm₂, hstep, rfl⟩
      · exact Or.inl ⟨rfl, by simp [allValues, hv, hvs]⟩
      · exact Or.inr ⟨t :: before, u, after, next, m₂, rfl, hu, hm₂, hstep, rfl⟩
    · rename_i hv
      have hv : t.isValue = false := by simpa using hv
      obtain ⟨r, m₁, hr, hm⟩ := Eval.bind_eq_ok.mp h
      rcases speculate_eq_ok.mp hr with ⟨next, rfl, hstep⟩ | ⟨c, m₂, rfl, -, rfl⟩
      · cases hm
        exact Or.inr ⟨[], t, rest, next, m, rfl, hv, rfl, hstep, rfl⟩
      · obtain ⟨rest', m₃, hrest, hm⟩ := Eval.bind_eq_ok.mp hm
        cases hm
        rcases ih hrest with ⟨hnone, -⟩ | ⟨before, u, after, next, m₄, rfl, hu, hm₄, hstep, rfl⟩
        · cases hnone
        · exact Or.inr ⟨t :: before, u, after, next, m₄, rfl, hu, hm₄, hstep, rfl⟩

/-- A sequence that is not a value steps in one element, and the result is joined again. -/
theorem stepWith_sequence_ok {s : Operator → List Term → Eval Term} {t t' : Term} {m m' : Machine}
    (ht : t.isSequence = true) (hv : t.isValue = false) (h : stepWith s t m = .ok t' m') :
    ∃ wrap before u after next m₁, (wrap = Term.seq ∨ wrap = Term.spread) ∧
      t = wrap (before ++ u :: after) ∧ u.isValue = false ∧ m₁.entities = m.entities ∧
      stepWith s u m₁ = .ok next m' ∧ t' = wrap (flatten (before ++ next :: after)) := by
  cases t with
  | seq items =>
    rw [isValue] at hv
    simp only [stepWith, hv, Bool.false_eq_true, if_false] at h
    obtain ⟨items', m₁, hitems, hm⟩ := Eval.bind_eq_ok.mp h
    cases hm
    rcases stepFirst_ok hitems with ⟨-, hvs⟩ | ⟨before, u, after, next, m₂, rfl, hu, hm₂, hstep, rfl⟩
    · rw [hvs] at hv
      cases hv
    · exact ⟨.seq, before, u, after, next, m₂, Or.inl rfl, rfl, hu, hm₂, hstep, rfl⟩
  | spread items =>
    rw [isValue] at hv
    simp only [stepWith, hv, Bool.false_eq_true, if_false] at h
    obtain ⟨items', m₁, hitems, hm⟩ := Eval.bind_eq_ok.mp h
    cases hm
    rcases stepFirst_ok hitems with ⟨-, hvs⟩ | ⟨before, u, after, next, m₂, rfl, hu, hm₂, hstep, rfl⟩
    · rw [hvs] at hv
      cases hv
    · exact ⟨.spread, before, u, after, next, m₂, Or.inr rfl, rfl, hu, hm₂, hstep, rfl⟩
  | _ => simp [isSequence] at ht

/-! ## Nodes -/

theorem reducePending_blocked {run : Term → Eval Term} {op : Operator} {params : List Term} {c : Stuck}
    {rest : List (Nat × Term)} {m m' : Machine} :
    reducePending run op params (some c) rest m ≠ .ok none m' := by
  induction rest generalizing c m with
  | nil => simp [reducePending]
  | cons p rest ih =>
    obtain ⟨index, t⟩ := p
    intro h
    simp only [reducePending] at h
    obtain ⟨r, m₁, -, h⟩ := bind_eq_ok.mp h
    cases r with
    | ok next => simp at h
    | error cause => exact ih h

/-- Only a node without pending parameters comes to its rule, and nothing has happened then. -/
theorem reducePending_none {run : Term → Eval Term} {op : Operator} {params : List Term}
    {rest : List (Nat × Term)} {m m' : Machine}
    (h : reducePending run op params none rest m = .ok none m') : rest = [] ∧ m' = m := by
  cases rest with
  | nil =>
    simp only [reducePending, pure_apply, EStateM.Result.ok.injEq] at h
    exact ⟨rfl, h.2.symm⟩
  | cons p rest =>
    obtain ⟨index, t⟩ := p
    simp only [reducePending] at h
    obtain ⟨r, m₁, -, h⟩ := bind_eq_ok.mp h
    cases r with
    | ok next => simp at h
    | error cause => exact absurd h reducePending_blocked

/-- A node that moves without its rule has run one pending parameter and put its value in place. -/
theorem reducePending_some {run : Term → Eval Term} {op : Operator} {params : List Term}
    {blocked : Option Stuck} {rest : List (Nat × Term)} {next : Term} {m m' : Machine}
    (h : reducePending run op params blocked rest m = .ok (some next) m') :
    ∃ index argument value m₁ m₂, (index, argument) ∈ rest ∧ m₁.entities = m.entities ∧
      run argument m₁ = .ok value m₂ ∧ replaceParam op params index value m₂ = .ok next m' := by
  induction rest generalizing blocked m with
  | nil => cases blocked <;> cases h
  | cons p rest ih =>
    obtain ⟨index, t⟩ := p
    simp only [reducePending] at h
    obtain ⟨r, m₁, hr, hm⟩ := Eval.bind_eq_ok.mp h
    rcases speculate_eq_ok.mp hr with ⟨u, rfl, hrun⟩ | ⟨c, m₂, rfl, -, rfl⟩
    · cases hm
      obtain ⟨value, m₂, hvalue, hreplace⟩ := Eval.bind_eq_ok.mp hrun
      exact ⟨index, t, value, m, m₂, by simp, rfl, hvalue, hreplace⟩
    · obtain ⟨i, argument, value, m₃, m₄, hmem, hm₃, hvalue, hreplace⟩ := ih hm
      exact ⟨i, argument, value, m₃, m₄, List.mem_cons_of_mem _ hmem, hm₃, hvalue, hreplace⟩

/-- A value takes the place of the parameter, or its items are spliced there and all is bound anew. -/
theorem replaceParam_ok {op : Operator} {params : List Term} {index : Nat} {value next : Term}
    {m m' : Machine} (h : replaceParam op params index value m = .ok next m') :
    m' = m ∧ (next = .node op (params.set index value) ∨
      ∃ items, value = .spread items ∧ next = .node op
        (Construction.bindTo op.params (Construction.flattenParams op params index items))) := by
  cases value with
  | spread items =>
    simp only [replaceParam] at h
    split at h
    · by_cases hadmit : op.arity.admits (Construction.flattenParams op params index items).length = true
      · simp only [Construction.bind, hadmit, if_true] at h
        cases h
        exact ⟨rfl, Or.inr ⟨items, rfl, rfl⟩⟩
      · simp only [Construction.bind, hadmit] at h
        cases h
    · cases h
      exact ⟨rfl, Or.inl rfl⟩
  | _ =>
    cases h
    exact ⟨rfl, Or.inl rfl⟩

/-- A spread that does not fit is stuck at once. -/
theorem replaceParam_error {op : Operator} {params : List Term} {index : Nat} {value : Term} {halt : Halt}
    {m m' : Machine} (h : replaceParam op params index value m = .error halt m') :
    m' = m ∧ ∃ cause, halt = .stuck cause := by
  cases value with
  | spread items =>
    simp only [replaceParam] at h
    split at h
    · by_cases hadmit : op.arity.admits (Construction.flattenParams op params index items).length = true
      · simp only [Construction.bind, hadmit, if_true] at h
        cases h
      · simp only [Construction.bind, hadmit] at h
        cases h
        exact ⟨rfl, _, rfl⟩
    · cases h
  | _ => cases h

/-- A parameter is pending exactly if it is declared eager and is not a value. -/
theorem mem_pending {op : Operator} {params : List Term} {index : Nat} {t : Term} :
    (index, t) ∈ pending op params ↔
      ∃ p, op.params[index]? = some p ∧ p.isEager = true ∧ params[index]? = some t ∧ t.isValue = false := by
  simp only [pending, List.mem_filterMap, Prod.exists, List.mem_zipIdx_iff_getElem?, List.getElem?_zip_eq_some]
  constructor
  · rintro ⟨p, u, k, ⟨hp, hu⟩, h⟩
    by_cases hpu : (p.isEager && u.isReducible) = true
    · simp only [hpu, if_true, Option.some.injEq, Prod.mk.injEq] at h
      obtain ⟨rfl, rfl⟩ := h
      simp only [Bool.and_eq_true, isReducible, Bool.not_eq_true'] at hpu
      exact ⟨p, hp, hpu.1, hu, hpu.2⟩
    · simp [hpu] at h
  · rintro ⟨p, hp, he, ht, hv⟩
    exact ⟨p, t, index, ⟨hp, ht⟩, by simp [he, isReducible, hv]⟩

/-- With nothing pending, the eager parameters are values. -/
theorem isValue_of_pending_nil {op : Operator} {params : List Term} {index : Nat} {p : Param} {t : Term}
    (h : pending op params = []) (hp : op.params[index]? = some p) (he : p.isEager = true)
    (ht : params[index]? = some t) : t.isValue = true := by
  rcases hv : t.isValue with _ | _
  · have := mem_pending.mpr ⟨p, hp, he, ht, hv⟩
    rw [h] at this
    cases this
  · rfl

/-- With nothing pending, a node steps by its rule. -/
theorem stepNode_eq_rule {fuel : Nat} {op : Operator} {params : List Term} (h : pending op params = []) (m : Machine) :
    stepNode (fuel + 1) op params m =
      (charge >>= fun _ => applyRule (stepFor fuel) (advanceFor fuel) fuel op params) m := by
  show (charge >>= fun _ => reducePending (runFor fuel) op params none (pending op params) >>= _) m = _
  rw [h]
  rfl

/-- The first pending parameter, if it can be run, is what a node steps in. -/
theorem stepNode_of_first_pending {fuel : Nat} {op : Operator} {params : List Term} {index : Nat} {t value next : Term}
    {rest : List (Nat × Term)} {m m₁ m₂ m' : Machine} (hpending : pending op params = (index, t) :: rest)
    (hcharge : charge m = .ok () m₁) (hrun : runFor fuel t m₁ = .ok value m₂)
    (hreplace : replaceParam op params index value m₂ = .ok next m') :
    stepNode (fuel + 1) op params m = .ok next m' := by
  have hattempt : speculate (do replaceParam op params index (← runFor fuel t)) m₁ = .ok (.ok next) m' :=
    speculate_eq_ok.mpr (Or.inl ⟨next, rfl, by rw [bind_of_ok hrun, hreplace]⟩)
  have hreduce : reducePending (runFor fuel) op params none (pending op params) m₁ = .ok (some next) m' := by
    rw [hpending, reducePending, bind_of_ok hattempt]
    rfl
  show (charge >>= fun _ => reducePending (runFor fuel) op params none (pending op params) >>= _) m = _
  rw [bind_of_ok hcharge, bind_of_ok hreduce]
  rfl

/-- A node steps in a pending parameter, or by its rule once there is none. -/
theorem stepNode_ok {fuel : Nat} {op : Operator} {params : List Term} {t : Term} {m m' : Machine}
    (h : stepNode (fuel + 1) op params m = .ok t m') :
    (∃ index argument value m₁ m₂, (index, argument) ∈ pending op params ∧ m₁.entities = m.entities ∧
      runFor fuel argument m₁ = .ok value m₂ ∧ replaceParam op params index value m₂ = .ok t m') ∨
    (pending op params = [] ∧ applyRule (stepFor fuel) (advanceFor fuel) fuel op params
      { m with steps := m.steps + 1 } = .ok t m') := by
  obtain ⟨_, m₁, hc, hrest⟩ := Eval.bind_eq_ok.mp h
  obtain rfl := charge_eq_ok hc
  obtain ⟨r, m₂, hr, hm⟩ := Eval.bind_eq_ok.mp hrest
  cases r with
  | some next =>
    cases hm
    obtain ⟨index, argument, value, m₃, m₄, hmem, hm₃, hvalue, hreplace⟩ := reducePending_some hr
    exact Or.inl ⟨index, argument, value, m₃, m₄, hmem, hm₃, hvalue, hreplace⟩
  | none =>
    obtain ⟨hpending, rfl⟩ := reducePending_none hr
    exact Or.inr ⟨hpending, hm⟩

/-! ## Runs -/

/-- A run that goes on has taken one step. -/
theorem advanceWith_ok {step : Term → Eval Term} {t t' : Term} {m m' : Machine}
    (h : advanceWith step t m = .ok t' m') : step t m = .ok t' m' := by
  rw [advanceWith, bind_of_ok (get_apply m)] at h
  obtain ⟨next, m₁, hstep, hm⟩ := Eval.bind_eq_ok.mp h
  obtain ⟨s, m₂, hs, hm⟩ := Eval.bind_eq_ok.mp hm
  cases hs
  split at hm
  · cases hm
  · cases hm
    exact hstep

/-- A run that does not go on could not take the step, or has come back to the same term and the same entities. -/
theorem advanceWith_error {step : Term → Eval Term} {t : Term} {m m' : Machine} {halt : Halt}
    (h : advanceWith step t m = .error halt m') : step t m = .error halt m' ∨
      m.config.stallDetection = true ∧ step t m = .ok t m' ∧ m.entities.agree m'.entities = true := by
  rw [advanceWith, bind_of_ok (get_apply m)] at h
  rcases bind_eq_error.mp h with h | ⟨next, m₁, hstep, h⟩
  · exact .inl h
  · rw [bind_of_ok (entities_apply m₁)] at h
    split at h
    · rename_i hstall
      simp only [Bool.and_eq_true, decide_eq_true_eq] at hstall
      cases h
      obtain ⟨⟨hdetects, rfl⟩, hagree⟩ := hstall
      exact .inr ⟨hdetects, hstep, hagree⟩
    · cases h

end Engine

end TermMachine
