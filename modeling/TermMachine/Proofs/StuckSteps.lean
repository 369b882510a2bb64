import TermMachine.Proofs.Rollback
import TermMachine.Proofs.Scoping

/-!
# Where a step gets stuck, and what it leaves

A step of a node may be a step of one of its arguments: the lazy operators on the order of evaluation and `give` step
one argument once, and `atomic` steps its body again and again. So a step gets stuck at a term further inside, to which
it comes from argument to argument and, in the body of an `atomic`, from step to step (`ComesTo`). There it ends in one
of three ways (`BreaksOff`): the parts of the term are tried and taken back, its rule does not apply, or a run notices
that it is where it was.

None of these changes what an entity holds. What is left, then, is the entities as they were when the evaluation came to
that term, with the given value from before. The steps that the body of an `atomic` has finished until then are kept:
there is no going back to the beginning of the `atomic`.

Proved:
* `step_stuck`: every stuck step comes to a term that breaks off, and leaves the entities found there.
* `stuck_atomic_keeps_finished_steps`: this for `atomic`, and what is reported of an execution that ends with one.
* `atomic_is_not_rolled_back`: the entities before an `atomic` that gets stuck are not what is left.
-/

namespace TermMachine

open Term Eval Rules

/-! ## Rows of steps -/

def Machine.Silent (m : Machine) : Prop := m.entities.find? Entity.yielded = none

/-- A term comes to another by steps, each of which ends on a machine with the property. -/
inductive Steps (P : Machine → Prop) : Term → Machine → Term → Machine → Prop
  | refl {t : Term} {m : Machine} : Steps P t m t m
  | step {t t₁ u : Term} {m m₁ m' : Machine} : t.isValue = false → step t m = .ok t₁ m₁ → P m₁ → Steps P t₁ m₁ u m' →
      Steps P t m u m'

theorem Steps.keeps {P : Machine → Prop} {R : Machine → Machine → Prop} (hR : Allows R) {t u : Term} {m m' : Machine}
    (h : Steps P t m u m') : R m m' := by
  induction h with
  | refl => exact hR.refl _
  | @step t t₁ u m m₁ m' _ hstep _ _ ih =>
    have hfirst := keeps_step hR t m
    rw [hstep] at hfirst
    exact hR.trans hfirst ih

namespace Engine

section
variable {advance : Term → Eval Term} {rounds : Nat} {body next : Term} {m m₁ : Machine} (hv : body.isValue = false)
  (hadvance : advance body m = .ok next m₁)
include hv hadvance

/-- Without a signal there is nothing to clear, and the body goes on from where it is. -/
theorem atomicWithin_of_silent (hm₁ : m₁.Silent) :
    atomicWithin advance (rounds + 1) body m = atomicWithin advance rounds next m₁ := by
  have htake : takeYield m₁ = .ok false m₁ := by
    show EStateM.Result.ok (m₁.entities.contains Entity.yielded)
      { m₁ with entities := m₁.entities.remove Entity.yielded } = _
    rw [Entities.remove_of_find?_eq_none hm₁, Entities.contains, hm₁]
    rfl
  rw [atomicWithin, if_neg (by simp [hv])]
  show (advance body >>= fun next => takeYield >>= fun raised => _) m = _
  rw [bind_of_ok hadvance, bind_of_ok htake]
  rfl

/-- With a signal the step ends. -/
theorem atomicWithin_of_raised (hm₁ : ¬ m₁.Silent) : atomicWithin advance (rounds + 1) body m =
    .ok (if next.isValue then next else .node (.effect .atomic) [next])
      { m₁ with entities := m₁.entities.remove Entity.yielded } := by
  have hraised : m₁.entities.contains Entity.yielded = true := by
    rw [Entities.contains, Option.isSome_iff_ne_none]
    exact hm₁
  rw [atomicWithin, if_neg (by simp [hv])]
  show (advance body >>= fun next => takeYield >>= fun raised => _) m = _
  have htake : takeYield m₁ = .ok (m₁.entities.contains Entity.yielded)
    { m₁ with entities := m₁.entities.remove Entity.yielded } := rfl
  rw [bind_of_ok hadvance, bind_of_ok htake, hraised]
  rfl

end

/-- The body of an `atomic` takes steps without raising the signal, until it is a value, or raises it, or does not get
any further. -/
theorem atomicWithin_cases {fuel rounds : Nat} {body : Term} {m : Machine} {out : EStateM.Result Halt Machine Term}
    (h : atomicWithin (advanceFor fuel) rounds body m = out) :
    ∃ u m₁, Steps Machine.Silent body m u m₁ ∧
      ((u.isValue = true ∧ out = .ok u m₁) ∨
      (u.isValue = false ∧ ∃ next m₂, stepFor fuel u m₁ = .ok next m₂ ∧
        out = .ok (if next.isValue then next else .node (.effect .atomic) [next])
          { m₂ with entities := m₂.entities.remove Entity.yielded }) ∨
      (u.isValue = false ∧ ∃ halt m₂, advanceFor fuel u m₁ = .error halt m₂ ∧ out = .error halt m₂) ∨
      out = .error .outOfFuel m₁) := by
  induction rounds generalizing body m with
  | zero =>
    unfold atomicWithin at h
    by_cases hv : body.isValue = true
    · rw [if_pos hv] at h
      exact ⟨body, m, .refl, .inl ⟨hv, h.symm⟩⟩
    · rw [if_neg hv] at h
      exact ⟨body, m, .refl, .inr (.inr (.inr h.symm))⟩
  | succ rounds ih =>
    rcases hv : body.isValue with _ | _
    · rcases hadvance : advanceFor fuel body m with ⟨next, m₁⟩ | ⟨halt, m₁⟩
      · have hstep : stepFor fuel body m = .ok next m₁ := advanceWith_ok hadvance
        by_cases hsilent : m₁.Silent
        · rw [atomicWithin_of_silent hv hadvance hsilent] at h
          obtain ⟨u, m₂, hsteps, hend⟩ := ih h
          exact ⟨u, m₂, .step hv (step_eq_ok.mpr ⟨fuel, hstep⟩) hsilent hsteps, hend⟩
        · rw [atomicWithin_of_raised hv hadvance hsilent] at h
          exact ⟨body, m, .refl, .inr (.inl ⟨hv, next, m₁, hstep, h.symm⟩)⟩
      · rw [atomicWithin, if_neg (by simp [hv])] at h
        change (advanceFor fuel body >>= _) m = out at h
        rw [bind_of_error hadvance] at h
        exact ⟨body, m, .refl, .inr (.inr (.inl ⟨hv, halt, m₁, hadvance, h.symm⟩))⟩
    · rw [atomicWithin, if_pos hv] at h
      exact ⟨body, m, .refl, .inl ⟨hv, h.symm⟩⟩

end Engine

/-! ## Coming to a term inside -/

open Engine

/-- The lazy rules other than that of `atomic` step an argument, with these entities. -/
inductive Defers (params : List Term) (s : Entities) : Operator → Term → Entities → Prop
  | leftToRight {items : List Term} {index : Nat} : params[0]? = some (.seq items) → firstReducible? items = some index →
      Defers params s (.flow .leftToRight) (Sequence.get items index) s
  | rightToLeft {items : List Term} {index : Nat} : params[0]? = some (.seq items) → lastReducible? items = some index →
      Defers params s (.flow .rightToLeft) (Sequence.get items index) s
  | sequential {first : Term} {rest : List Term} : params[0]? = some (.seq (first :: rest)) → first.isValue = false →
      Defers params s (.flow .sequential) first s
  | give {value body : Term} : params[0]? = some value → params[1]? = some body → body.isValue = false →
      Defers params s (.effect .give) body (s.put Entity.givenValue value)

/-- A step of the first term on the first machine comes to a step of the second on the second: from a node to the
argument that its rule steps, and from an `atomic` to its body after some steps that have not raised the signal. -/
inductive ComesTo : Term → Machine → Term → Machine → Prop
  | here {t : Term} {m : Machine} : ComesTo t m t m
  | argument {op : Operator} {params : List Term} {u v : Term} {s : Entities} {m m' : Machine} : pending op params = [] →
      Defers params m.entities op u s → ComesTo u { m with entities := s, steps := m.steps + 1 } v m' →
      ComesTo (.node op params) m v m'
  | body {params : List Term} {X u v : Term} {m m₁ m' : Machine} : params[0]? = some X →
      Steps Machine.Silent X { m with steps := m.steps + 1 } u m₁ → u.isValue = false → ComesTo u m₁ v m' →
      ComesTo (.node (.effect .atomic) params) m v m'

/-- The evaluation of a term gets no further, and leaves these entities: all its parts were tried and taken back, or its
rule does not apply, or it has come back to itself and to entities that agree with those before. -/
inductive BreaksOff (t : Term) (m : Machine) : Entities → Prop
  | parts {cause : Stuck} {m' : Machine} : t.isSequence = true ∨ AwaitsParameter t → step t m = .error (.stuck cause) m' →
      m'.entities = m.entities → BreaksOff t m m.entities
  | rule {cause : Stuck} : step t m = .error (.stuck cause) { m with steps := m.steps + 1 } → BreaksOff t m m.entities
  | stalled {m' : Machine} : m.config.stallDetection = true → step t m = .ok t m' → m.entities.agree m'.entities = true →
      BreaksOff t m m'.entities

/-- A step comes to a term that breaks off, and leaves the entities found there, with the given value from before. -/
def Leaves (t : Term) (m : Machine) (s : Entities) : Prop :=
  ∃ u m₁ s₁, ComesTo t m u m₁ ∧ BreaksOff u m₁ s₁ ∧ s = s₁.assign Entity.givenValue (m.entities.find? Entity.givenValue)

theorem Leaves.of_breaksOff {t : Term} {m : Machine} {s : Entities} (h : BreaksOff t m s)
    (hgiven : s.find? Entity.givenValue = m.entities.find? Entity.givenValue) : Leaves t m s := by
  refine ⟨t, m, s, .here, h, ?_⟩
  rw [← hgiven, Entities.assign_find?]

theorem Leaves.argument {op : Operator} {params : List Term} {u : Term} {m : Machine} {s s' : Entities}
    (hpending : pending op params = []) (hdefers : Defers params m.entities op u s)
    (h : Leaves u { m with entities := s, steps := m.steps + 1 } s') :
    Leaves (.node op params) m (s'.assign Entity.givenValue (m.entities.find? Entity.givenValue)) := by
  obtain ⟨v, m₁, s₁, hcomes, hbreaks, rfl⟩ := h
  refine ⟨v, m₁, s₁, .argument hpending hdefers hcomes, hbreaks, ?_⟩
  cases hdefers with
  | give => rw [Entities.find?_put, if_pos rfl, Entities.assign, Entities.assign_put]
  | _ => exact Entities.assign_assign _ _ _

theorem Leaves.body {params : List Term} {X u : Term} {m m₁ : Machine} {s : Entities} (hparams : params[0]? = some X)
    (hsteps : Steps Machine.Silent X { m with steps := m.steps + 1 } u m₁) (hv : u.isValue = false) (h : Leaves u m₁ s) :
    Leaves (.node (.effect .atomic) params) m s := by
  obtain ⟨v, m₂, s₂, hcomes, hbreaks, rfl⟩ := h
  have hgiven : m₁.entities.find? Entity.givenValue = m.entities.find? Entity.givenValue :=
    (hsteps.keeps allows_keepsScope).given
  exact ⟨v, m₂, s₂, .body hparams hsteps hv hcomes, hbreaks, by rw [hgiven]⟩

/-! ## Stuck steps -/

namespace Engine

theorem scope_of_stepFor (fuel : Nat) (t : Term) (m : Machine) :
    m.entities.KeepsScope (machineAfter (stepFor fuel t m)).entities := stepFor_keeps allows_keepsScope fuel t m

/-- A rule is stuck at once or in the argument that it steps, if it is not that of `atomic`. -/
theorem applyRule_stuck_cases {fuel : Nat} {op : Operator} {params : List Term} {m m' : Machine} {cause : Stuck}
    (hop : op ≠ .effect .atomic)
    (h : applyRule (stepFor fuel) (advanceFor fuel) fuel op params m = .error (.stuck cause) m') :
    m' = m ∨ ∃ u s m₁, Defers params m.entities op u s ∧
      stepFor fuel u { m with entities := s } = .error (.stuck cause) m₁ ∧
      m'.entities = m₁.entities.assign Entity.givenValue (m.entities.find? Entity.givenValue) := by
  -- an argument that is stepped with the entities as they are leaves the given value alone
  have hargument : ∀ {u : Term}, stepFor fuel u m = .error (.stuck cause) m' →
      m'.entities = m'.entities.assign Entity.givenValue (m.entities.find? Entity.givenValue) := by
    intro u hu
    have hscope := scope_of_stepFor fuel u m
    rw [hu] at hscope
    rw [← hscope.given]
    exact (Entities.assign_find? m'.entities Entity.givenValue).symm
  by_cases hstep : stepsArgument op = true
  · unfold stepsArgument at hstep
    split at hstep
    · rcases stepOne_cases h with ⟨reason, hr⟩ | ⟨items, hitems, ⟨-, hr⟩ | ⟨index, hindex, hr⟩⟩
      · cases hr; exact .inl rfl
      · cases hr
      · have hu := bind_pure_stuck hr.symm
        exact .inr ⟨_, _, m', .leftToRight hitems hindex, hu, hargument hu⟩
    · rcases stepOne_cases h with ⟨reason, hr⟩ | ⟨items, hitems, ⟨-, hr⟩ | ⟨index, hindex, hr⟩⟩
      · cases hr; exact .inl rfl
      · cases hr
      · have hu := bind_pure_stuck hr.symm
        exact .inr ⟨_, _, m', .rightToLeft hitems hindex, hu, hargument hu⟩
    · rcases sequential_cases h with ⟨reason, hr⟩ | ⟨statements, last, hst, -, hcase⟩
      · cases hr; exact .inl rfl
      rcases hcase with ⟨-, hr⟩ | ⟨first, rest, rfl, ⟨hv, hr⟩ | ⟨-, -, hr⟩ | ⟨-, -, hr⟩⟩
      · cases hr
      · have hu := bind_pure_stuck hr.symm
        exact .inr ⟨_, _, m', .sequential hst hv, hu, hargument hu⟩
      · cases hr
      · cases hr
    · rcases give_cases h with ⟨reason, hr⟩ | ⟨value, body, hvalue, hbody, ⟨-, hr⟩ | ⟨hv, hr⟩⟩
      · cases hr; exact .inl rfl
      · cases hr
      · obtain ⟨m₁, hm₁, rfl⟩ := withGiven_eq_error.mp (bind_pure_stuck hr.symm)
        exact .inr ⟨_, _, m₁, .give hvalue hbody hv, hm₁, rfl⟩
    · exact absurd rfl hop
    · cases hstep
  · rcases applyRule_cases (by simpa using hstep) h with ⟨reason, hr⟩ | ⟨t, m₁, -, hr⟩
    · cases hr; exact .inl rfl
    · cases hr

/-- A stuck step of a node is one of its parts, or its rule is stuck after the step is counted. -/
theorem stepNode_stuck_cases {fuel : Nat} {op : Operator} {params : List Term} {m m' : Machine} {cause : Stuck}
    (h : stepNode (fuel + 1) op params m = .error (.stuck cause) m') :
    (AwaitsParameter (.node op params) ∧ m'.entities = m.entities) ∨
    pending op params = [] ∧ applyRule (stepFor fuel) (advanceFor fuel) fuel op params { m with steps := m.steps + 1 } =
      .error (.stuck cause) m' := by
  rcases hpending : pending op params with _ | ⟨⟨index, t⟩, rest⟩
  · rw [stepNode_eq_rule hpending] at h
    rcases Eval.bind_eq_error.mp h with hc | ⟨_, m₁, hc, hrule⟩
    · obtain ⟨_, hlimit, -⟩ := charge_eq_error hc
      cases hlimit
    · obtain rfl := charge_eq_ok hc
      exact .inr ⟨rfl, hrule⟩
  · left
    obtain ⟨p, hp, heager, ht, hv⟩ := mem_pending.mp (hpending ▸ List.mem_cons_self : (index, t) ∈ pending op params)
    rcases stepNode_stuck h with hm | ⟨hnil, -⟩
    · exact ⟨.intro hp heager ht hv, hm⟩
    · rw [hpending] at hnil
      cases hnil

theorem step_of_stepFor_error {fuel : Nat} {t : Term} {m m' : Machine} {cause : Stuck}
    (h : stepFor fuel t m = .error (.stuck cause) m') : step t m = .error (.stuck cause) m' :=
  (step_eq_iff (by trivial)).mpr ⟨fuel, h⟩

/-- A stuck step of a run leaves what the step itself does, or what it has come back to. -/
theorem advanceFor_leaves {fuel : Nat} {t : Term} {m m' : Machine} {cause : Stuck}
    (hs : stepFor fuel t m = .error (.stuck cause) m' → Leaves t m m'.entities)
    (h : advanceFor fuel t m = .error (.stuck cause) m') : Leaves t m m'.entities := by
  rcases advanceWith_error h with hstep | ⟨hdetects, hstep, hagree⟩
  · exact hs hstep
  · have hscope := scope_of_stepFor fuel t m
    rw [hstep] at hscope
    exact .of_breaksOff (.stalled hdetects (step_eq_ok.mpr ⟨fuel, hstep⟩) hagree) hscope.given

theorem atomic_leaves {fuel : Nat} {params : List Term} {m m' : Machine} {cause : Stuck}
    (ih : ∀ {t : Term} {m : Machine}, stepFor fuel t m = .error (.stuck cause) m' → Leaves t m m'.entities)
    (h : stepFor (fuel + 1) (.node (.effect .atomic) params) m = .error (.stuck cause) m')
    (hrule : applyRule (stepFor fuel) (advanceFor fuel) fuel (.effect .atomic) params { m with steps := m.steps + 1 } =
      .error (.stuck cause) m') : Leaves (.node (.effect .atomic) params) m m'.entities := by
  rcases bind_ofRule_cases hrule with ⟨reason, hr⟩ | ⟨X, hX, hbody⟩
  · cases hr
    exact .of_breaksOff (.rule (step_of_stepFor_error h)) rfl
  · obtain ⟨u, m₁, hsteps, hend⟩ := atomicWithin_cases hbody
    rcases hend with ⟨-, hr⟩ | ⟨-, next, m₂, -, hr⟩ | ⟨hv, halt, m₂, hadvance, hr⟩ | hr
    · cases hr
    · cases hr
    · cases hr
      exact .body (arg_eq_ok.mp hX) hsteps hv (advanceFor_leaves ih hadvance)
    · cases hr

theorem stepNode_leaves {fuel : Nat} {op : Operator} {params : List Term} {m m' : Machine} {cause : Stuck}
    (ih : ∀ {t : Term} {m m' : Machine}, stepFor fuel t m = .error (.stuck cause) m' → Leaves t m m'.entities)
    (h : stepFor (fuel + 1) (.node op params) m = .error (.stuck cause) m') :
    Leaves (.node op params) m m'.entities := by
  rcases stepNode_stuck_cases h with ⟨hawaits, hm⟩ | ⟨hpending, hrule⟩
  · rw [hm]
    exact .of_breaksOff (.parts (.inr hawaits) (step_of_stepFor_error h) hm) rfl
  by_cases hop : op = .effect .atomic
  · subst hop
    exact atomic_leaves ih h hrule
  · rcases applyRule_stuck_cases hop hrule with rfl | ⟨u, s, m₁, hdefers, hu, hm'⟩
    · exact .of_breaksOff (.rule (step_of_stepFor_error h)) rfl
    · rw [hm']
      exact .argument hpending hdefers (ih hu)

theorem sequence_leaves {fuel : Nat} {t : Term} {m m' : Machine} {cause : Stuck} (hs : t.isSequence = true)
    (h : stepFor fuel t m = .error (.stuck cause) m') : Leaves t m m'.entities := by
  have hm := stepWith_sequence_stuck hs h
  rw [hm]
  exact .of_breaksOff (.parts (.inl hs) (step_of_stepFor_error h) hm) rfl

/-- Every stuck step comes to a term that breaks off, and leaves the entities found there. -/
theorem stepFor_leaves {fuel : Nat} {t : Term} {m m' : Machine} {cause : Stuck}
    (h : stepFor fuel t m = .error (.stuck cause) m') : Leaves t m m'.entities := by
  induction fuel generalizing t m m' with
  | zero =>
    cases t with
    | seq items => exact sequence_leaves rfl h
    | spread items => exact sequence_leaves rfl h
    | _ => cases h
  | succ fuel ih =>
    cases t with
    | seq items => exact sequence_leaves rfl h
    | spread items => exact sequence_leaves rfl h
    | node op params => exact stepNode_leaves ih h
    | _ => cases h

end Engine

theorem step_stuck {t : Term} {m m' : Machine} {cause : Stuck} (h : step t m = .error (.stuck cause) m') :
    Leaves t m m'.entities := by
  obtain ⟨fuel, hfuel⟩ := (step_eq_iff (by trivial)).mp h
  exact stepFor_leaves hfuel

/-! ## Executions -/

/-- An execution that ends stuck has come to its last term by steps. -/
theorem driveWith_stuck {fuel rounds : Nat} {t last : Term} {m m' : Machine} {cause : Stuck}
    (h : Execution.driveWith (advanceFor fuel) rounds t m = .ok (.stuck last cause) m') :
    ∃ m₁, Steps (fun _ => True) t m last m₁ ∧ advanceFor fuel last m₁ = .error (.stuck cause) m' := by
  induction rounds generalizing t m with
  | zero =>
    unfold Execution.driveWith at h
    by_cases hv : t.isValue = true
    · rw [if_pos hv] at h
      cases h
    · rw [if_neg hv] at h
      cases h
  | succ rounds ih =>
    unfold Execution.driveWith at h
    by_cases hv : t.isValue = true
    · rw [if_pos hv] at h
      cases h
    · rw [if_neg hv] at h
      obtain ⟨r, m₁, hr, h⟩ := Eval.bind_eq_ok.mp h
      rcases recover_eq_ok.mp hr with ⟨next, rfl, hadvance⟩ | ⟨c, rfl, hadvance⟩
      · obtain ⟨m₂, hsteps, hlast⟩ := ih h
        have hstep : step t m = .ok next m₁ := step_eq_ok.mpr ⟨fuel, advanceWith_ok hadvance⟩
        exact ⟨m₂, .step (by simpa using hv) hstep trivial hsteps, hlast⟩
      · cases h
        exact ⟨m, .refl, hadvance⟩

theorem execute_stuck {t last : Term} {inputs : List Term} {m₀ m m' : Machine} {execution : Execution} {cause : Stuck}
    (hsupply : Execution.supply inputs m₀ = .ok () m) (h : execute t inputs m₀ = .ok execution m')
    (hend : execution.outcome = .stuck last cause) :
    ∃ m₁, Steps (fun _ => True) t m last m₁ ∧ Leaves last m₁ m'.entities ∧
      execution.standardOut = m'.entities.stream Entity.standardOut ∧ execution.store = m'.entities.get Entity.store := by
  obtain ⟨fuel, hfuel⟩ := (execute_eq_iff (by trivial)).mp h
  obtain ⟨_, m₁, hm₁, hrest⟩ := Eval.bind_eq_ok.mp hfuel
  cases hsupply.symm.trans hm₁
  obtain ⟨outcome, m₂, hdrive, hreport⟩ := Eval.bind_eq_ok.mp hrest
  cases hreport
  obtain rfl : outcome = .stuck last cause := hend
  obtain ⟨m₃, hsteps, hlast⟩ := driveWith_stuck hdrive
  exact ⟨m₃, hsteps, advanceFor_leaves stepFor_leaves hlast, rfl, rfl⟩

theorem ComesTo.distinct {t u : Term} {m m' : Machine} (h : ComesTo t m u m') (hm : m.entities.Distinct) :
    m'.entities.Distinct := by
  induction h with
  | here => exact hm
  | argument _ hdefers _ ih =>
    apply ih
    cases hdefers with
    | give => exact hm.put _ _
    | _ => exact hm
  | body _ hsteps _ _ ih =>
    apply ih
    exact hsteps.keeps allows_distinct hm

/-- Where the evaluation breaks off, every entity holds what it held. -/
theorem BreaksOff.find? {t : Term} {m : Machine} {s : Entities} (h : BreaksOff t m s) (hm : m.entities.Distinct)
    (name : String) : s.find? name = m.entities.find? name := by
  cases h with
  | parts => rfl
  | rule => rfl
  | stalled _ _ hagree => exact Entities.find?_of_agree hm hagree name

theorem distinct_of_supply {inputs : List Term} {m₀ m : Machine} (hm₀ : m₀.entities.Distinct)
    (h : Execution.supply inputs m₀ = .ok () m) : m.entities.Distinct := by
  unfold Execution.supply at h
  by_cases hempty : (flatten inputs).isEmpty = true
  · simp only [hempty, if_true] at h
    cases h
    exact hm₀
  · simp only [hempty] at h
    cases h
    exact hm₀.put _ _

/-- An `atomic` that gets stuck leaves the entities as they were when the evaluation of its body came to the term that
broke off: with all that the steps of the body have done that were finished by then, with nothing of the step that was
not, and with the given value from before. An execution that ends with such an `atomic` reports what was printed and
stored by then. -/
theorem stuck_atomic_keeps_finished_steps (X : Term) :
    (∀ (m m' : Machine) (cause : Stuck), step (.node (.effect .atomic) [X]) m = .error (.stuck cause) m' →
      ∃ u m₁ s, ComesTo (.node (.effect .atomic) [X]) m u m₁ ∧ BreaksOff u m₁ s ∧
        m'.entities = s.assign Entity.givenValue (m.entities.find? Entity.givenValue)) ∧
    ∀ (t : Term) (inputs : List Term) (m₀ m m' : Machine) (execution : Execution) (cause : Stuck),
      m₀.entities.Distinct → Execution.supply inputs m₀ = .ok () m → execute t inputs m₀ = .ok execution m' →
      execution.outcome = .stuck (.node (.effect .atomic) [X]) cause →
      ∃ m₁ u m₂ s, Steps (fun _ => True) t m (.node (.effect .atomic) [X]) m₁ ∧
        ComesTo (.node (.effect .atomic) [X]) m₁ u m₂ ∧ BreaksOff u m₂ s ∧
        execution.standardOut = m₂.entities.stream Entity.standardOut ∧ execution.store = m₂.entities.get Entity.store := by
  constructor
  · intro m m' cause h
    exact step_stuck h
  · intro t inputs m₀ m m' execution cause hm₀ hsupply h hend
    obtain ⟨m₁, hsteps, ⟨u, m₂, s, hcomes, hbreaks, hm'⟩, hout, hstore⟩ := execute_stuck hsupply h hend
    refine ⟨m₁, u, m₂, s, hsteps, hcomes, hbreaks, ?_⟩
    have hdistinct := hcomes.distinct (hsteps.keeps allows_distinct (distinct_of_supply hm₀ hsupply))
    have hsame : ∀ name, name ≠ Entity.givenValue → m'.entities.get name = m₂.entities.get name := by
      intro name hname
      rw [Entities.get, Entities.get, hm', Entities.find?_assign_of_ne hname, hbreaks.find? hdistinct]
    constructor
    · rw [hout, Entities.stream, Entities.stream, hsame _ (by decide)]
    · rw [hstore, hsame _ (by decide)]

/-- Two `atomic` are on the way to the term that is stuck. Each has printed a number by then, the inner one the value
given to it, and both numbers stay. -/
theorem stuck_atomic_keeps_finished_steps_nested :
    let X : Term := .node (.flow .sequential) [.seq [.node (.effect .print) [.seq [.int 1]]],
      .node (.effect .give) [.int 5, .node (.effect .atomic) [.node (.flow .sequential)
        [.seq [.node (.effect .print) [.seq [.node (.effect .given) []]]], .node (.flow .stuck) []]]]]
    let t : Term := .node (.effect .atomic) [X]
    let m : Machine := ⟨{}, .empty, ⟨0⟩, 0⟩
    let s : Entities := ⟨[(Entity.standardOut, .seq [.int 1, .int 5])]⟩
    (∃ cause m' u m₁ s₁, step t m = .error (.stuck cause) m' ∧ m'.entities = s ∧ ComesTo t m u m₁ ∧ BreaksOff u m₁ s₁ ∧
      s = s₁.assign Entity.givenValue none) ∧
    ∃ cause execution m' m₁ u m₂ s₂, execute t [] m = .ok execution m' ∧ execution.outcome = .stuck t cause ∧
      execution.standardOut = [.int 1, .int 5] ∧ Steps (fun _ => True) t m t m₁ ∧ ComesTo t m₁ u m₂ ∧ BreaksOff u m₂ s₂ ∧
      m₂.entities.stream Entity.standardOut = [.int 1, .int 5] := by
  intro X t m s
  have hstep : Engine.stepFor 12 t m = .error (.stuck (.rule (.flow .stuck) .unexplained)) ⟨{}, s, ⟨0⟩, 13⟩ := by
    decide +kernel +zetaReduce
  have hexecute : Execution.executeFor 12 t [] m =
      .ok ⟨.stuck t (.rule (.flow .stuck) .unexplained), [.int 1, .int 5], .empty⟩ ⟨{}, s, ⟨0⟩, 13⟩ := by
    decide +kernel +zetaReduce
  have hstep := step_of_stepFor_error hstep
  have hexecute := (execute_eq_iff (by trivial)).mpr ⟨12, hexecute⟩
  obtain ⟨hsteps, hexecutions⟩ := stuck_atomic_keeps_finished_steps X
  obtain ⟨u, m₁, s₁, hcomes, hbreaks, hs⟩ := hsteps m _ _ hstep
  obtain ⟨m₂, v, m₃, s₃, hrow, hcomes', hbreaks', hout, -⟩ :=
    hexecutions t [] m m _ _ _ List.nodup_nil rfl hexecute rfl
  exact ⟨⟨_, _, u, m₁, s₁, hstep, rfl, hcomes, hbreaks, hs⟩,
    _, _, _, m₂, v, m₃, s₃, hexecute, rfl, rfl, hrow, hcomes', hbreaks', hout.symm⟩

/-- What the body of an `atomic` has printed stays when the next step of the body is stuck, and it is reported. -/
theorem atomic_is_not_rolled_back :
    let X : Term := .node (.flow .sequential) [.seq [.node (.effect .print) [.seq [.int 1]]], .node (.flow .stuck) []]
    let t : Term := .node (.effect .atomic) [X]
    let m : Machine := ⟨{}, .empty, ⟨0⟩, 0⟩
    ∃ cause execution m', step t m = .error (.stuck cause) m' ∧ m'.entities ≠ m.entities ∧
      execute t [] m = .ok execution m' ∧ execution.outcome = .stuck t cause ∧
      execution.standardOut ≠ m.entities.stream Entity.standardOut := by
  intro X t m
  let s : Entities := ⟨[(Entity.standardOut, .seq [.int 1])]⟩
  have hstep : Engine.stepFor 8 t m = .error (.stuck (.rule (.flow .stuck) .unexplained)) ⟨{}, s, ⟨0⟩, 5⟩ := by
    decide +kernel +zetaReduce
  have hexecute : Execution.executeFor 8 t [] m =
      .ok ⟨.stuck t (.rule (.flow .stuck) .unexplained), [.int 1], .empty⟩ ⟨{}, s, ⟨0⟩, 5⟩ := by
    decide +kernel +zetaReduce
  have hexecute := (execute_eq_iff (by trivial)).mpr ⟨8, hexecute⟩
  exact ⟨_, _, _, step_of_stepFor_error hstep, by decide, hexecute, rfl, by decide⟩

end TermMachine
