import TermMachine.Proofs.RunPaths
import TermMachine.Proofs.StoreTyping
import TermMachine.Proofs.Termination

/-!
# Values hold nothing to evaluate

Whether a term is a value is asked of it and of the elements of sequences only. A collection counts as a value whatever it
holds, so it is the rules that keep nodes out of collections: those that build one have eager parameters, and those with
lazy parameters pass them on or step them and wrap them in nothing. What `read` takes from the input may have nodes in it,
and goes into the term.

So terms are closed, and so are the entities, of which only the input holds nodes. `Descent` has this for steps that
succeed. A step that halts is looked at here: what it did before it halted is kept, and that is closed as well.

Proved:
* `stepFor_haltsClosed`: a step that halts leaves a closed machine.
* `Visited.closed`: in every state that a run may pass through, the terms and the entities are closed.
* `Passes.visited`: the states that a run does pass through are among these.
* `visited_of_execute`: what an execution ends with is such a state.
* `values_are_evaluated`: no collection in a term or an entity of such a state holds a node, and no entity but the input
  does; the value of an execution, what it printed and its store have none at all.
-/

namespace TermMachine

open Term Eval Rules

/-! ## Steps that halt -/

theorem Eval.entities_of_charge_error {m m' : Machine} {halt : Halt} (h : charge m = .error halt m') :
    m'.entities = m.entities := by
  unfold charge at h
  simp only at h
  split at h
  · split at h <;> cases h
    rfl
  · cases h

def HaltsClosed (step : Term → Eval Term) : Prop :=
  ∀ t m halt m', t.closed = true → m.entities.Closed → t.isValue = false → step t m = .error halt m' →
    m'.entities.Closed

namespace Engine

/-- What an attempt halts with is what the computation does, unless it is stuck; then nothing has changed. -/
theorem stepFirst_haltsClosed {s : Operator → List Term → Eval Term} {items : List Term} {blocked : Option Stuck}
    {m m' : Machine} {halt : Halt}
    (hitems : ∀ t ∈ items, ∀ m halt m', m.entities.Closed → t.isValue = false → stepWith s t m = .error halt m' →
      m'.entities.Closed)
    (hm : m.entities.Closed) (h : stepFirst s blocked items m = .error halt m') : m'.entities.Closed := by
  induction items generalizing blocked m with
  | nil =>
    cases blocked with
    | none => cases h
    | some cause =>
      cases h
      exact hm
  | cons t rest ih =>
    have hrest := fun u hu => hitems u (List.mem_cons_of_mem t hu)
    simp only [stepFirst] at h
    split at h
    · exact ih hrest hm (bind_pure_stuck h)
    · rename_i hv
      rcases bind_eq_error.mp h with h | ⟨r, m₁, hr, h⟩
      · exact hitems t (by simp) m halt m' hm (by simpa using hv) (speculate_eq_error.mp h).1
      · rcases speculate_eq_ok.mp hr with ⟨next, rfl, -⟩ | ⟨cause, m₂, rfl, -, rfl⟩
        · cases h
        · exact ih (m := { m₂ with entities := m.entities }) hrest hm (bind_pure_stuck h)

theorem stepWith_haltsClosed {s : Operator → List Term → Eval Term}
    (hs : ∀ op params m halt m', (Term.node op params).closed = true → m.entities.Closed →
      s op params m = .error halt m' → m'.entities.Closed) : HaltsClosed (stepWith s) := by
  intro t
  induction hsize : t.size using Nat.strongRecOn generalizing t with
  | ind n ih =>
    intro m halt m' hc hm hv h
    have hsequence : ∀ {wrap : List Term → Term} {items : List Term} {m' : Machine}, wrap = Term.seq ∨ wrap = Term.spread →
        t = wrap items → stepFirst s none items m = .error halt m' → m'.entities.Closed := by
      rintro wrap items m' hwrap rfl h
      refine stepFirst_haltsClosed (fun u hu m₁ halt₁ m₁' hm₁ hv₁ h₁ => ?_) hm h
      obtain ⟨huc, -, husize⟩ := mem_wrap hwrap hu hc
      exact ih u.size (by omega) u rfl m₁ halt₁ m₁' huc hm₁ hv₁ h₁
    cases t with
    | seq items =>
      rw [isValue] at hv
      simp only [stepWith, hv] at h
      exact hsequence (.inl rfl) rfl (bind_pure_stuck h)
    | spread items =>
      rw [isValue] at hv
      simp only [stepWith, hv] at h
      exact hsequence (.inr rfl) rfl (bind_pure_stuck h)
    | node op params => exact hs op params m halt m' hc hm (by simpa only [stepWith] using h)
    | _ => simp [isValue] at hv

/-! ## Loops -/

section
variable {step : Term → Eval Term} (hs : HaltsClosed step) (hd : Descending step)
include hs hd

theorem advanceWith_haltsClosed : HaltsClosed (advanceWith step) := by
  intro t m halt m' hc hm hv h
  rw [advanceWith, bind_of_ok (get_apply m)] at h
  rcases bind_eq_error.mp h with h | ⟨next, m₁, hstep, h⟩
  · exact hs t m halt m' hc hm hv h
  · have hclosed := (hd t m next m₁ hc hm hv hstep).entities
    rw [bind_of_ok (entities_apply m₁)] at h
    split at h
    · cases h
      exact hclosed
    · cases h

theorem runWith_haltsClosed {rounds : Nat} {t : Term} {m m' : Machine} {halt : Halt} (hc : t.closed = true)
    (hm : m.entities.Closed) (h : runWith step rounds t m = .error halt m') : m'.entities.Closed := by
  induction rounds generalizing t m with
  | zero =>
    unfold runWith at h
    split at h
    · cases h
    · cases h
      exact hm
  | succ rounds ih =>
    unfold runWith at h
    split at h
    · cases h
    · rename_i hv
      rcases bind_eq_error.mp h with h | ⟨next, m₁, hnext, h⟩
      · exact hs t m halt m' hc hm (by simpa using hv) h
      · have hdown := hd t m next m₁ hc hm (by simpa using hv) hnext
        exact ih hdown.closed hdown.entities h

theorem atomicWithin_haltsClosed {rounds : Nat} {body : Term} {m m' : Machine} {halt : Halt} (hc : body.closed = true)
    (hm : m.entities.Closed) (h : atomicWithin step rounds body m = .error halt m') : m'.entities.Closed := by
  induction rounds generalizing body m with
  | zero =>
    unfold atomicWithin at h
    split at h
    · cases h
    · cases h
      exact hm
  | succ rounds ih =>
    unfold atomicWithin at h
    split at h
    · cases h
    · rename_i hv
      rcases bind_eq_error.mp h with h | ⟨next, m₁, hnext, h⟩
      · exact hs body m halt m' hc hm (by simpa using hv) h
      · have hdown := (hd body m next m₁ hc hm (by simpa using hv) hnext).cleared
        have htake : takeYield m₁ = .ok (m₁.entities.contains Entity.yielded)
            { m₁ with entities := m₁.entities.remove Entity.yielded } := rfl
        rw [bind_of_ok htake] at h
        split at h
        · cases h
        · exact ih hdown.closed hdown.entities h

theorem reducePending_haltsClosed {rounds : Nat} {op : Operator} {params : List Term} {blocked : Option Stuck}
    {rest : List (Nat × Term)} {m m' : Machine} {halt : Halt} (hrest : ∀ p ∈ rest, p.2.closed = true)
    (hm : m.entities.Closed) (h : reducePending (runWith step rounds) op params blocked rest m = .error halt m') :
    m'.entities.Closed := by
  induction rest generalizing blocked m with
  | nil =>
    cases blocked with
    | none => cases h
    | some cause =>
      cases h
      exact hm
  | cons p rest ih =>
    obtain ⟨index, t⟩ := p
    simp only [reducePending] at h
    rcases bind_eq_error.mp h with h | ⟨r, m₁, hr, h⟩
    · obtain ⟨h, hne⟩ := speculate_eq_error.mp h
      rcases bind_eq_error.mp h with h | ⟨value, m₁, -, h⟩
      · exact runWith_haltsClosed hs hd (hrest (index, t) (by simp)) hm h
      · obtain ⟨-, cause, rfl⟩ := replaceParam_error h
        exact absurd rfl (hne cause)
    · rcases speculate_eq_ok.mp hr with ⟨next, rfl, -⟩ | ⟨cause, m₂, rfl, -, rfl⟩
      · cases h
      · exact ih (m := { m₂ with entities := m.entities }) (fun p hp => hrest p (List.mem_cons_of_mem _ hp)) hm h

end

/-! ## Rules -/

section
variable {step : Term → Eval Term} (hs : HaltsClosed step) {params : List Term} {m m' : Machine} {halt : Halt}
  (hc : allClosed params = true) (hm : m.entities.Closed)
include hs hc hm

theorem stepOne_haltsClosed {op : Operator} {choose : List Term → Option Nat} (hchoose : ChoosesReducible choose)
    (h : stepOne step op choose params m = .error halt m') : m'.entities.Closed := by
  rcases stepOne_cases h with ⟨_, hr⟩ | ⟨items, hitems, ⟨-, hr⟩ | ⟨index, hindex, hr⟩⟩
  · cases hr
    exact hm
  · cases hr
  · obtain ⟨u, hu, hreducible⟩ := hchoose items index hindex
    have hget : Sequence.get items index = u := Sequence.get_of_getElem? hu
    have hclosed := (param_closed hc hitems).1
    rw [Term.closed, allClosed_iff] at hclosed
    rw [hget] at hr
    exact hs u m halt m' (hclosed u (List.mem_of_getElem? hu)) hm hreducible (bind_pure_stuck hr.symm)

theorem sequential_haltsClosed (h : sequential step params m = .error halt m') : m'.entities.Closed := by
  rcases sequential_cases h with ⟨_, hr⟩ | ⟨statements, last, hst, -, hcase⟩
  · cases hr
    exact hm
  rcases hcase with ⟨-, hr⟩ | ⟨first, rest, rfl, ⟨hfirst, hr⟩ | ⟨-, -, hr⟩ | ⟨-, -, hr⟩⟩
  · cases hr
  · have hclosed := (param_closed hc hst).1
    rw [Term.closed, allClosed, Bool.and_eq_true] at hclosed
    exact hs first m halt m' hclosed.1 hm hfirst (bind_pure_stuck hr.symm)
  · cases hr
  · cases hr

theorem give_haltsClosed (hvalue : Evaluated (.effect .give) params) (h : give step params m = .error halt m') :
    m'.entities.Closed := by
  rcases give_cases h with ⟨_, hr⟩ | ⟨value, body, hv, hb, ⟨-, hr⟩ | ⟨hbody, hr⟩⟩
  · cases hr
    exact hm
  · cases hr
  · obtain ⟨m₁, hstep, rfl⟩ := withGiven_eq_error.mp (bind_pure_stuck hr.symm)
    have hzero : value.nodes = 0 := hvalue 0 .eager value rfl rfl hv
    have hclosed := hs body { m with entities := m.entities.put Entity.givenValue value } halt m₁ (param_closed hc hb).1
      (hm.put hzero) hbody hstep
    exact hclosed.assign hm (by decide)

theorem applyRule_haltsClosed {advance : Term → Eval Term} (ha : HaltsClosed advance) (hd : Descending advance)
    {rounds : Nat} {op : Operator} (hp : Evaluated op params)
    (h : applyRule step advance rounds op params m = .error halt m') : m'.entities.Closed := by
  by_cases hstep : stepsArgument op = true
  · unfold stepsArgument at hstep
    split at hstep
    · exact stepOne_haltsClosed hs hc hm firstReducible?_chooses h
    · exact stepOne_haltsClosed hs hc hm lastReducible?_chooses h
    · exact sequential_haltsClosed hs hc hm h
    · exact give_haltsClosed hs hc hm hp h
    · rcases bind_ofRule_cases h with ⟨_, hr⟩ | ⟨body, hbody, h⟩
      · cases hr
        exact hm
      · exact atomicWithin_haltsClosed ha hd (param_closed hc (arg_eq_ok.mp hbody)).1 hm h
    · cases hstep
  · rcases applyRule_cases (by simpa using hstep) h with ⟨_, hr⟩ | ⟨_, _, -, hr⟩
    · cases hr
      exact hm
    · cases hr

end

/-! ## Steps -/

theorem stepFor_haltsClosed (fuel : Nat) : HaltsClosed (stepFor fuel) := by
  induction fuel with
  | zero =>
    refine stepWith_haltsClosed fun op params m halt m' hc hm h => ?_
    cases h
    exact hm
  | succ fuel ih =>
    refine stepWith_haltsClosed fun op params m halt m' hc hm h => ?_
    rw [Term.closed] at hc
    have hdown := stepFor_descends fuel
    have ha := advanceWith_haltsClosed ih hdown
    rcases bind_eq_error.mp h with h | ⟨_, m₁, hcharge, h⟩
    · rw [entities_of_charge_error h]
      exact hm
    · obtain rfl := charge_eq_ok hcharge
      rcases bind_eq_error.mp h with h | ⟨r, m₂, hr, h⟩
      · refine reducePending_haltsClosed ha (advanceWith_descends hdown) (fun p hp => ?_) (by exact hm) h
        obtain ⟨_, -, -, hu, -⟩ := mem_pending.mp hp
        exact (param_closed hc hu).1
      · cases r with
        | some next => cases h
        | none =>
          obtain ⟨hpending, rfl⟩ := reducePending_none hr
          exact applyRule_haltsClosed ih hc (by exact hm) ha (advanceWith_descends hdown)
            (evaluated_of_pending hpending hc) h

end Engine

/-! ## States that a run may pass through -/

/-- The states that a run of a term may pass through, from a term and entities on: the entities, and the terms that are being
run, the innermost first. A part of a term is run while the terms around it wait. The body of `give` takes its steps with
the value of its node given to it, which is what the first parameter has come to by then. Between the steps of the body of
`atomic` its signal is cleared.

These are more states than one run has (`Passes.visited`): every part of a term is entered, also one that no rule comes to,
such as the branch that is not taken, and a step may be taken on any machine that has the entities, whatever it would choose.
So what is said of all of them is said of every state of every run, and nothing follows from one of them being there. -/
inductive Visited (t₀ : Term) (s₀ : Entities) : List Term → Entities → Prop
  | start : Visited t₀ s₀ [t₀] s₀
  | step {t t' : Term} {outer : List Term} {m m' : Machine} : Visited t₀ s₀ (t :: outer) m.entities →
      step t m = .ok t' m' → Visited t₀ s₀ (t' :: outer) m'.entities
  | halt {t : Term} {outer : List Term} {m m' : Machine} {halt : Halt} : Visited t₀ s₀ (t :: outer) m.entities →
      step t m = .error halt m' → Visited t₀ s₀ (t :: outer) m'.entities
  | part {t u : Term} {outer : List Term} {s : Entities} : Visited t₀ s₀ (t :: outer) s → u ∈ t.parts →
      Visited t₀ s₀ (u :: t :: outer) s
  | given {params outer : List Term} {value body : Term} {s : Entities} :
      Visited t₀ s₀ (.node (.effect .give) params :: outer) s → params[0]? = some value → value.isValue = true →
      params[1]? = some body →
      Visited t₀ s₀ (body :: .node (.effect .give) params :: outer) (s.put Entity.givenValue value)
  | cleared {terms : List Term} {s : Entities} : Visited t₀ s₀ terms s →
      Visited t₀ s₀ terms (s.remove Entity.yielded)

theorem closed_of_step_halt {t : Term} {m m' : Machine} {halt : Halt} (hc : t.closed = true) (hm : m.entities.Closed)
    (hv : t.isValue = false) (h : step t m = .error halt m') : m'.entities.Closed := by
  rcases hr : attempt (fun fuel => Engine.stepFor fuel t) m m.fuel with _ | r
  · -- a step without end has no machine of its own
    simp only [step, settle, hr, Option.getD_none] at h
    cases h
    exact hm
  · obtain ⟨-, fuel, hfuel⟩ := attempt_eq_some hr
    simp only [step, settle, hr, Option.getD_some] at h
    exact Engine.stepFor_haltsClosed fuel t m halt m' hc hm hv (hfuel.trans h)

theorem step_of_isValue {t : Term} (hv : t.isValue = true) (m : Machine) : step t m = .ok t m := by
  have hfuel : Engine.stepFor 0 t m = .ok t m := Engine.stepWith_of_isValue hv m
  exact step_eq_ok.mpr ⟨0, hfuel⟩

theorem Visited.closed {t₀ : Term} {s₀ s : Entities} {terms : List Term} (h : Visited t₀ s₀ terms s)
    (hc : t₀.closed = true) (hs : s₀.Closed) : (∀ t ∈ terms, t.closed = true) ∧ s.Closed := by
  induction h with
  | start => exact ⟨by simpa using hc, hs⟩
  | @step t t' outer m m' _ hstep ih =>
    obtain ⟨hterms, hm⟩ := ih
    rw [List.forall_mem_cons] at hterms ⊢
    rcases hv : t.isValue with _ | _
    · have hdown := descends_of_step hterms.1 hm hv hstep
      exact ⟨⟨hdown.closed, hterms.2⟩, hdown.entities⟩
    · rw [step_of_isValue hv] at hstep
      cases hstep
      exact ⟨hterms, hm⟩
  | @halt t outer m m' halt _ hstep ih =>
    obtain ⟨hterms, hm⟩ := ih
    have ht := hterms t (by simp)
    rcases hv : t.isValue with _ | _
    · exact ⟨hterms, closed_of_step_halt ht hm hv hstep⟩
    · rw [step_of_isValue hv] at hstep
      cases hstep
  | @part t u outer s _ hu ih =>
    obtain ⟨hterms, hm⟩ := ih
    exact ⟨List.forall_mem_cons.mpr ⟨closed_of_mem_parts (hterms t (by simp)) hu, hterms⟩, hm⟩
  | @given params outer value body s _ hvalue hv hbody ih =>
    obtain ⟨hterms, hm⟩ := ih
    have hparams : allClosed params = true := hterms (.node (.effect .give) params) (by simp)
    have hzero := nodes_of_closed_value (Engine.param_closed hparams hvalue).1 hv
    exact ⟨List.forall_mem_cons.mpr ⟨(Engine.param_closed hparams hbody).1, hterms⟩, hm.put hzero⟩
  | cleared _ ih => exact ⟨ih.1, ih.2.remove _⟩

/-! ## Runs and executions -/

/-- What the engine turns to in the course of a step is a part of the term, after steps of its own. -/
theorem TurnsTo.visited {t₀ t u : Term} {s₀ : Entities} {outer : List Term} {taken : List (Term × Machine)} {m m' : Machine}
    (h : TurnsTo t m taken u m') (ht : Visited t₀ s₀ (t :: outer) m.entities) :
    Visited t₀ s₀ (u :: t :: outer) m'.entities := by
  have hkept : KeptBySteps fun _ v s => Visited t₀ s₀ (v :: t :: outer) s := fun _ _ _ _ _ hv _ hstep => hv.step hstep
  apply h.carries hkept [] (fun v hv => ht.part hv)
  rintro params value body rfl hpending hvalue hbody
  exact ht.given hvalue (Engine.isValue_of_pending_nil hpending (rfl : _ = some Param.eager) rfl hvalue) hbody

theorem Enters.visited {t u : Term} {m m' : Machine} (h : Enters t m u m') :
    ∃ outer, Visited t m.entities (u :: outer) m'.entities := by
  induction h with
  | here => exact ⟨[], .start⟩
  | inside _ hturns ih =>
    obtain ⟨outer, hvisited⟩ := ih
    exact ⟨_, hturns.visited hvisited⟩

/-- Where a run stands is where it may be. -/
theorem Stands.visited {t₀ : Term} {m₀ m : Machine} {taken : List (Term × Machine)} {terms : List Term}
    (h : Stands t₀ m₀ taken terms m) : Visited t₀ m₀.entities terms m.entities := by
  induction h with
  | start => exact .start
  | step _ hstep ih => exact ih.step hstep
  | halt _ hstep ih => exact ih.halt hstep
  | inside _ hturns ih => exact hturns.visited ih

theorem Passes.visited {t₀ : Term} {m₀ m : Machine} {taken : List (Term × Machine)} {terms : List Term}
    (h : Passes t₀ m₀ taken terms m) : Visited t₀ m₀.entities terms m.entities := by
  cases h with
  | before hstands => exact hstands.visited
  | after hstands hstep => exact hstands.visited.step hstep
  | halt hstands hstep => exact hstands.visited.halt hstep

/-- An execution ends in a state that the program may pass through once it has its inputs. -/
theorem visited_of_execute {t : Term} {inputs : List Term} {m m₀ m' : Machine} {execution : Execution}
    (hsupply : Execution.supply inputs m₀ = .ok () m) (h : execute t inputs m₀ = .ok execution m') :
    ∃ last, Visited t m.entities [last] m'.entities ∧
      (last.isValue = true ∧ execution.outcome = .value (Execution.normalize last) ∨
        ∃ cause, execution.outcome = .stuck last cause) ∧
      execution.standardOut = m'.entities.stream Entity.standardOut ∧ execution.store = m'.entities.get Entity.store := by
  obtain ⟨taken, last, hstands, hend⟩ := stands_of_execute hsupply h
  exact ⟨last, hstands.visited, hend⟩

def Term.isCollection : Term → Bool
  | .data _ _ | .map _ | .set _ => true
  | _ => false

/-- No collection in a state holds a node, and no entity but the input does. -/
structure FullyEvaluated (terms : List Term) (s : Entities) : Prop where
  collection : ∀ {v}, Occurs v terms s → v.isCollection = true → v.nodes = 0
  entity : ∀ {name v}, s.find? name = some v → name ≠ Entity.standardIn → v.nodes = 0

theorem fullyEvaluated_of_closed {terms : List Term} {s : Entities} (hterms : ∀ t ∈ terms, t.closed = true)
    (hs : s.Closed) : FullyEvaluated terms s where
  collection {v} hoccurs hv := by
    have hclosed : v.closed = true := by
      rcases hoccurs with ⟨t, ht, hpart⟩ | ⟨name, t, hfind, hpart⟩
      · exact closed_of_mem_parts (hterms t ht) hpart
      · exact closed_of_mem_parts (hs.closed hfind) hpart
    refine nodes_of_closed_value hclosed ?_
    cases v with
    | data | map | set => rfl
    | _ => cases hv
  entity := hs.nodes

theorem nodes_normalize (t : Term) : (Execution.normalize t).nodes = t.nodes := by
  cases t with
  | seq items => simp [Execution.normalize, nodes_ofSequence, nodes]
  | spread items => simp [Execution.normalize, nodes_ofSequence, nodes]
  | _ => rfl

/-- A program and its inputs as they are read, on a new machine. In every state that the program may pass through,
no collection in a term or an entity holds a node, and no entity but the input does. So when the program ends with a value,
that value, all that was printed and the store hold no node anywhere. -/
theorem values_are_evaluated {source : String} {t : Term} {inputs : List Term} {config : Config} {m₀ m : Machine}
    (ht : readTerm source = .ok t) (hinputs : ∀ input ∈ inputs, ∃ source, readTerm source = .ok input)
    (hstart : Machine.start config = .ok m₀) (hsupply : Execution.supply inputs m₀ = .ok () m) :
    (∀ terms s, Visited t m.entities terms s → FullyEvaluated terms s) ∧
    ∀ execution m', execute t inputs m₀ = .ok execution m' →
      (∀ v, execution.outcome = .value v → v.nodes = 0) ∧ (∀ u ∈ execution.standardOut, u.nodes = 0) ∧
        execution.store.nodes = 0 := by
  have hc := closed_of_readTerm ht
  have hm₀ : m₀.entities.Closed := by
    unfold Machine.start at hstart
    split at hstart <;> cases hstart
    exact Entities.closed_empty
  have hm : m.entities.Closed := by
    refine (Execution.supply_closed (fun input hinput => ?_) hm₀ hsupply).1
    obtain ⟨source, hread⟩ := hinputs input hinput
    exact closed_of_readTerm hread
  refine ⟨fun terms s hvisited => ?_, fun execution m' hexecute => ?_⟩
  · obtain ⟨hterms, hs⟩ := hvisited.closed hc hm
    exact fullyEvaluated_of_closed hterms hs
  · obtain ⟨last, hvisited, hend, hout, hstore⟩ := visited_of_execute hsupply hexecute
    obtain ⟨hterms, hs⟩ := hvisited.closed hc hm
    refine ⟨fun v hv => ?_, fun u hu => ?_, ?_⟩
    · rcases hend with ⟨hvalue, hend⟩ | ⟨cause, hend⟩
      · rw [hend] at hv
        cases hv
        rw [nodes_normalize]
        exact nodes_of_closed_value (hterms last (by simp)) hvalue
      · rw [hend] at hv
        cases hv
    · have hzero := hs.nodes_get (show Entity.standardOut ≠ Entity.standardIn by decide)
      rw [← nodesIn_elements, nodesIn_eq_zero] at hzero
      rw [hout] at hu
      exact hzero u hu
    · rw [hstore]
      exact hs.nodes_get (by decide)

/-- `list(read)` with the input `integer-add(1,2)`: the sum that is read stands in the term and is never in the list. -/
theorem values_are_evaluated_read :
    let sum : Term := .node (.arithmetic .add) [.seq [.int 1, .int 2]]
    let t : Term := .node (.composite .list) [.seq [.node (.effect .read) []]]
    let m₀ : Machine := ⟨{}, .empty, .ofSeed 0x5EED, 0⟩
    let m : Machine := { m₀ with entities := ⟨[(Entity.standardIn, .seq [sum])]⟩ }
    let s : Entities := ⟨[(Entity.standardIn, .seq [])]⟩
    Visited t m.entities [.seq [sum], t] s ∧ FullyEvaluated [.seq [sum], t] s ∧
      ∃ execution m', execute t [sum] m₀ = .ok execution m' ∧ execution.outcome = .value (.data listName [.int 3]) ∧
        (Term.data listName [.int 3]).nodes = 0 := by
  intro sum t m₀ m s
  have hread : readTerm "list(read)" = .ok t := by decide +kernel +zetaReduce
  have hinputs : ∀ input ∈ [sum], ∃ source, readTerm source = .ok input := by
    have hsum : readTerm "integer-add(1,2)" = .ok sum := by decide +kernel +zetaReduce
    intro input hinput
    rw [List.mem_singleton.mp hinput]
    exact ⟨_, hsum⟩
  have hstep : step (.seq [.node (.effect .read) []]) m = .ok (.seq [sum]) { m with entities := s, steps := 1 } :=
    step_eq_ok.mpr ⟨4, rfl⟩
  have hpart : Visited t m.entities [.seq [.node (.effect .read) []], t] m.entities :=
    .part .start (by simp [t, parts, partsOfAll])
  have hvisited : Visited t m.entities [.seq [sum], t] s := hpart.step hstep
  have hfuel : ∃ execution m', Execution.executeFor 8 t [sum] m₀ = .ok execution m' ∧
      execution.outcome = .value (.data listName [.int 3]) := ⟨_, _, rfl, rfl⟩
  obtain ⟨execution, m', hfuel, hvalue⟩ := hfuel
  have hexecute : execute t [sum] m₀ = .ok execution m' := (execute_eq_iff (by trivial)).mpr ⟨8, hfuel⟩
  obtain ⟨hstates, hend⟩ := values_are_evaluated hread hinputs (show Machine.start {} = .ok m₀ from rfl)
    (show Execution.supply [sum] m₀ = .ok () m from rfl)
  exact ⟨hvisited, hstates _ _ hvisited, execution, m', hexecute, hvalue, (hend _ _ hexecute).1 _ hvalue⟩

end TermMachine
