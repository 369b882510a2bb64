import TermMachine.Proofs.Invariant
import TermMachine.Proofs.Reading

/-!
# Programs end

Without a step limit nothing bounds the loops of the engine: a parameter is run to its value, `atomic`
steps its body and a program is driven to its end, each for as long as it takes. Yet from a closed term
in a closed machine they all end, because every step comes down (`Descends`).

`Ends` says of a computation with fuel that some amount is enough. A step ends if the steps of the parts
inside do, and a loop ends if all the steps in it do; the induction over both is on the weight and the
size of the term, which are lower for every part and after every step.

Proved: `closed_programs_end`. What is read from a text is closed, and from closed terms in closed machines
`step`, `run` and `execute` always come to a result.
-/

namespace TermMachine

open Term Eval Rules

/-! ## Computations that end -/

namespace Eval

variable {α β : Type}

/-- Some amount of fuel is enough. -/
def Ends (x : Nat → Eval α) (m : Machine) : Prop := ∃ n, Finished (x n m)

theorem Ends.const {x : Eval α} {m : Machine} (h : Finished (x m)) : Ends (fun _ => x) m := ⟨0, h⟩

theorem Ends.pure (a : α) (m : Machine) : Ends (fun _ => Pure.pure a) m := ⟨0, trivial⟩

theorem Ends.bind {x : Nat → Eval α} {f : Nat → α → Eval β} {m : Machine} (hx : Steady x)
    (hf : ∀ a, Steady fun n => f n a) (h : Ends x m)
    (hnext : ∀ n a m₁, x n m = .ok a m₁ → Ends (fun n => f n a) m₁) : Ends (fun n => x n >>= f n) m := by
  obtain ⟨n, hn⟩ := h
  rcases hr : x n m with ⟨a, m₁⟩ | ⟨halt, m₁⟩
  · obtain ⟨k, hk⟩ := hnext n a m₁ hr
    refine ⟨max n k, ?_⟩
    have hx' : x (max n k) m = .ok a m₁ := by rw [hx n _ (Nat.le_max_left ..) m hn, hr]
    have hf' : f (max n k) a m₁ = f k a m₁ := hf a k _ (Nat.le_max_right ..) m₁ hk
    show Finished ((x (max n k) >>= f (max n k)) m)
    rw [bind_of_ok hx', hf']
    exact hk
  · refine ⟨n, ?_⟩
    show Finished ((x n >>= f n) m)
    rw [bind_of_error hr]
    rw [hr] at hn
    simpa using hn

/-- What does not depend on fuel comes first. -/
theorem Ends.after {x : Eval α} {f : Nat → α → Eval β} {m : Machine} (hx : Finished (x m))
    (h : ∀ a m₁, x m = .ok a m₁ → Ends (fun n => f n a) m₁) : Ends (fun n => x >>= f n) m := by
  rcases hr : x m with ⟨a, m₁⟩ | ⟨halt, m₁⟩
  · obtain ⟨n, hn⟩ := h a m₁ hr
    refine ⟨n, ?_⟩
    show Finished ((x >>= f n) m)
    rw [bind_of_ok hr]
    exact hn
  · refine ⟨0, ?_⟩
    show Finished ((x >>= f 0) m)
    rw [bind_of_error hr]
    rw [hr] at hx
    simpa using hx

theorem Ends.speculate {x : Nat → Eval α} {m : Machine} (h : Ends x m) : Ends (fun n => speculate (x n)) m := by
  obtain ⟨n, hn⟩ := h
  refine ⟨n, ?_⟩
  show Finished (Eval.speculate (x n) m)
  rcases hr : x n m with ⟨a, m₁⟩ | ⟨halt, m₁⟩
  · simp [Eval.speculate, hr]
  · rw [hr, finished_error] at hn
    cases halt with
    | outOfFuel => exact absurd rfl hn
    | _ => simp [Eval.speculate, hr]

theorem Ends.recover {x : Nat → Eval α} {m : Machine} (h : Ends x m) : Ends (fun n => recover (x n)) m := by
  obtain ⟨n, hn⟩ := h
  refine ⟨n, ?_⟩
  show Finished (Eval.recover (x n) m)
  rcases hr : x n m with ⟨a, m₁⟩ | ⟨halt, m₁⟩
  · simp [Eval.recover, hr]
  · rw [hr, finished_error] at hn
    cases halt with
    | outOfFuel => exact absurd rfl hn
    | _ => simp [Eval.recover, hr]

/-- One unit of fuel more or less makes no difference to whether a computation ends. -/
theorem Ends.of_succ {x : Nat → Eval α} {m : Machine} (h : Ends (fun n => x (n + 1)) m) : Ends x m := by
  obtain ⟨n, hn⟩ := h
  exact ⟨n + 1, hn⟩

theorem Ends.refine {x y : Nat → Eval α} {m : Machine} (hxy : ∀ n, Refines (x n) (y n)) (h : Ends x m) :
    Ends y m := by
  obtain ⟨n, hn⟩ := h
  refine ⟨n, ?_⟩
  rw [hxy n m hn]
  exact hn

theorem Steady.const (x : Eval α) : Steady fun _ => x := fun _ _ _ => .refl _

theorem Steady.speculate {x : Nat → Eval α} (hx : Steady x) : Steady fun n => speculate (x n) :=
  fun n n' hn => (hx n n' hn).speculate

end Eval

theorem finished_ofRule {α : Type} (op : Operator) (r : Except Reason α) (m : Machine) :
    Finished (ofRule op r m) := by
  cases r with
  | ok a => trivial
  | error reason => trivial

theorem withGiven_ends {α : Type} {value : Term} {x : Nat → Eval α} {m : Machine}
    (h : Ends x { m with entities := m.entities.put Entity.givenValue value }) :
    Ends (fun n => withGiven value (x n)) m := by
  obtain ⟨n, hn⟩ := h
  refine ⟨n, ?_⟩
  show Finished (withGiven value (x n) m)
  rcases hr : x n { m with entities := m.entities.put Entity.givenValue value } with ⟨a, m₁⟩ | ⟨halt, m₁⟩
  · simp [withGiven, hr]
  · rw [hr, finished_error] at hn
    simpa [withGiven, hr] using hn

/-! ## Lower states -/

structure Ready (t : Term) (m : Machine) : Prop where
  closed : t.closed = true
  entities : m.entities.Closed
  unlimited : m.config.stepLimit = none

def Lower (t' : Term) (s' : Entities) (t : Term) (s : Entities) : Prop :=
  Prod.Lex (· < ·) (· < ·) (weight t' s', t'.size) (weight t s, t.size)

theorem lower_iff {t t' : Term} {s s' : Entities} :
    Lower t' s' t s ↔ weight t' s' < weight t s ∨ weight t' s' = weight t s ∧ t'.size < t.size := by
  rw [Lower, Prod.lex_def]

theorem lower_induction {P : Term → Machine → Prop}
    (h : ∀ t m, (∀ t' m', Lower t' m'.entities t m.entities → P t' m') → P t m) (t : Term) (m : Machine) :
    P t m := by
  have hwf := InvImage.wf (fun p : Term × Machine => (weight p.1 p.2.entities, p.1.size))
    (Prod.lex Nat.lt_wfRel Nat.lt_wfRel).wf
  refine hwf.induction (C := fun p => P p.1 p.2) (t, m) fun p ih => h p.1 p.2 fun t' m' hlower => ?_
  exact ih (t', m') hlower

theorem Descends.toLower {t t' : Term} {s s' : Entities} (h : Descends t s t' s') : Lower t' s' t s :=
  lower_iff.mpr h.lower

theorem Descends.ready {t t' : Term} {m m' : Machine} (h : Descends t m.entities t' m'.entities)
    (hconfig : m'.config = m.config) (ht : Ready t m) : Ready t' m' :=
  ⟨h.closed, h.entities, by rw [hconfig]; exact ht.unlimited⟩

namespace Engine

theorem config_of_stepFor {fuel : Nat} {t : Term} {m m' : Machine} {r : EStateM.Result Halt Machine Term}
    (h : stepFor fuel t m = r) (hm : machineAfter r = m') : m'.config = m.config := by
  subst h
  subst hm
  exact stepFor_keeps allows_config fuel t m

theorem config_of_runFor {fuel : Nat} {t : Term} {m m' : Machine} {r : EStateM.Result Halt Machine Term}
    (h : runFor fuel t m = r) (hm : machineAfter r = m') : m'.config = m.config := by
  subst h
  subst hm
  exact runFor_keeps allows_config fuel t m

/-! ## What is tried -/

/-- A sequence ends its step if its elements do. -/
theorem stepFirst_ends {blocked : Option Stuck} {items : List Term} {m : Machine}
    (h : ∀ u ∈ items, u.isValue = false → ∀ m₁ : Machine, m₁.entities = m.entities → m₁.config = m.config →
      Ends (fun n => stepFor n u) m₁) :
    Ends (fun n => stepFirst (stepNode n) blocked items) m := by
  induction items generalizing blocked m with
  | nil =>
    cases blocked with
    | none => exact ⟨0, by simp [stepFirst]⟩
    | some cause => exact ⟨0, by simp [stepFirst]⟩
  | cons t rest ih =>
    have hsteady : ∀ blocked, Steady fun n => stepFirst (stepNode n) blocked rest :=
      fun blocked n n' hn => stepFirst_refines (stepNode_refines hn) blocked rest
    have hrest : ∀ blocked (m₁ : Machine), m₁.entities = m.entities → m₁.config = m.config →
        Ends (fun n => stepFirst (stepNode n) blocked rest) m₁ := by
      intro blocked m₁ hent hconf
      refine ih fun u hu hv m₂ hent₂ hconf₂ => ?_
      exact h u (List.mem_cons_of_mem t hu) hv m₂ (hent₂.trans hent) (hconf₂.trans hconf)
    simp only [stepFirst]
    rcases hv : t.isValue with _ | _
    · simp only [Bool.false_eq_true, if_false]
      refine Ends.bind (stepFor_steady t).speculate ?_ (h t (by simp) hv m rfl rfl).speculate ?_
      · intro r
        cases r with
        | ok next => exact .const _
        | error cause => exact fun n n' hn => .bind (hsteady (some cause) n n' hn) fun _ => .refl _
      · intro n r m₁ hr
        rcases speculate_eq_ok.mp hr with ⟨next, rfl, -⟩ | ⟨cause, m₂, rfl, hstuck, rfl⟩
        · exact .pure _ _
        · have hconf := config_of_stepFor hstuck rfl
          exact .bind (hsteady _) (fun _ => .const _) (hrest _ _ rfl hconf) fun _ _ _ _ => .pure _ _
    · simp only [if_true]
      exact .bind (hsteady _) (fun _ => .const _) (hrest blocked m rfl rfl) fun _ _ _ _ => .pure _ _

theorem replaceParam_finished (op : Operator) (params : List Term) (index : Nat) (value : Term) (m : Machine) :
    Finished (replaceParam op params index value m) := by
  rcases hr : replaceParam op params index value m with ⟨t, m₁⟩ | ⟨halt, m₁⟩
  · trivial
  · obtain ⟨-, cause, rfl⟩ := replaceParam_error hr
    trivial

theorem reducePending_steady (op : Operator) (params : List Term) (blocked : Option Stuck)
    (rest : List (Nat × Term)) : Steady fun n => reducePending (runFor n) op params blocked rest :=
  fun n n' hn => reducePending_refines (fun t => runFor_steady t n n' hn) op params blocked rest

/-- A node comes to an end with its pending parameters if each can be run to an end. -/
theorem reducePending_ends {op : Operator} {params : List Term} {blocked : Option Stuck}
    {rest : List (Nat × Term)} {m : Machine}
    (h : ∀ p ∈ rest, ∀ m₁ : Machine, m₁.entities = m.entities → m₁.config = m.config →
      Ends (fun n => runFor n p.2) m₁) :
    Ends (fun n => reducePending (runFor n) op params blocked rest) m := by
  induction rest generalizing blocked m with
  | nil =>
    cases blocked with
    | none => exact ⟨0, by simp [reducePending]⟩
    | some cause => exact ⟨0, by simp [reducePending]⟩
  | cons p rest ih =>
    obtain ⟨index, t⟩ := p
    have hrun : Steady fun n => runFor n t >>= replaceParam op params index :=
      fun n n' hn => .bind (runFor_steady t n n' hn) fun _ => .refl _
    simp only [reducePending]
    refine Ends.bind hrun.speculate ?_ (Ends.speculate ?_) ?_
    · intro r
      cases r with
      | ok next => exact .const _
      | error cause => exact reducePending_steady op params (some cause) rest
    · exact .bind (runFor_steady t) (fun _ => .const _) (h (index, t) (by simp) m rfl rfl)
        fun _ value m₁ _ => .const (replaceParam_finished op params index value m₁)
    · intro n r m₁ hr
      rcases speculate_eq_ok.mp hr with ⟨next, rfl, -⟩ | ⟨cause, m₂, rfl, hstuck, rfl⟩
      · exact .pure _ _
      · have hconf : m₂.config = m.config := by
          rcases Eval.bind_eq_error.mp hstuck with hr | ⟨value, m₃, hr, hreplace⟩
          · exact config_of_runFor hr rfl
          · have hm₃ := config_of_runFor hr rfl
            rw [(replaceParam_error hreplace).1]
            exact hm₃
        refine ih fun p hp m₄ hent hconf₄ => ?_
        exact h p (List.mem_cons_of_mem _ hp) m₄ hent (hconf₄.trans hconf)

/-! ## Loops -/

/-- The steps of a term end, here and wherever it may come down to. -/
structure EndsBelow (t : Term) (m : Machine) : Prop where
  ready : Ready t m
  here : Ends (fun n => stepFor n t) m
  below : ∀ t' m', m'.config = m.config → Descends t m.entities t' m'.entities → Ends (fun n => stepFor n t') m'

theorem EndsBelow.next {t t' : Term} {m m' : Machine} (h : EndsBelow t m) (hconf : m'.config = m.config)
    (hd : Descends t m.entities t' m'.entities) : EndsBelow t' m' where
  ready := hd.ready hconf h.ready
  here := h.below t' m' hconf hd
  below := fun t'' m'' hconf' hd' => h.below t'' m'' (hconf'.trans hconf) (hd.trans hd')

theorem advanceFor_ends {t : Term} {m : Machine} (h : Ends (fun n => stepFor n t) m) :
    Ends (fun n => advanceFor n t) m := by
  refine Ends.bind (.const _) ?_ (.const (by simp)) ?_
  · exact fun before n n' hn => .bind (stepFor_steady t n n' hn) fun _ => .refl _
  · intro n before m₁ hget
    cases hget
    refine Ends.bind (stepFor_steady t) (fun _ => .const _) h fun n next m₁ _ => .const ?_
    rw [bind_of_ok (entities_apply m₁)]
    split
    · simp
    · simp

/-- An advance of a term that is not a value comes down. -/
theorem advanceFor_below {n : Nat} {t t' : Term} {m m' : Machine} (h : EndsBelow t m) (hv : t.isValue = false)
    (ht : advanceFor n t m = .ok t' m') :
    m'.config = m.config ∧ Descends t m.entities t' m'.entities := by
  refine ⟨?_, advanceFor_descends n t m t' m' h.ready.closed h.ready.entities hv ht⟩
  have hkeeps := advanceWith_keeps (stepFor_keeps allows_config n t) m
  have ht : advanceWith (stepFor n) t m = .ok t' m' := ht
  rw [ht] at hkeeps
  exact hkeeps

/-- A run ends if all steps do on the way down. -/
theorem runFor_ends {t : Term} {m : Machine} (h : EndsBelow t m) : Ends (fun n => runFor n t) m := by
  induction t, m using lower_induction with
  | h t m ih =>
    rcases hv : t.isValue with _ | _
    · refine Ends.of_succ ?_
      have hunfold : ∀ n, runFor (n + 1) t = advanceFor (n + 1) t >>= runWith (advanceFor (n + 1)) n := by
        intro n
        rw [runFor, runWith]
        simp only [hv, Bool.false_eq_true, if_false]
      simp only [hunfold]
      refine Ends.bind ?_ ?_ ?_ ?_
      · exact fun n n' hn => advanceFor_refines (by omega) t
      · exact fun next n n' hn => runWith_refines (advanceFor_refines (by omega)) hn next
      · exact (advanceFor_ends h.here).refine fun n => advanceFor_refines (by omega) t
      · intro n next m₁ hnext
        obtain ⟨hconf, hd⟩ := advanceFor_below h hv hnext
        refine (ih next m₁ hd.toLower (h.next hconf hd)).refine fun n => ?_
        exact runWith_refines (advanceFor_refines (by omega)) (Nat.le_refl n) next
    · refine ⟨0, ?_⟩
      show Finished (runFor 0 t m)
      rw [runFor, runWith]
      simp [hv]

/-- So does `atomic`, which takes its steps at once. -/
theorem atomicWithin_ends {t : Term} {m : Machine} (h : EndsBelow t m) :
    Ends (fun n => atomicWithin (advanceFor n) n t) m := by
  induction t, m using lower_induction with
  | h t m ih =>
    rcases hv : t.isValue with _ | _
    · refine Ends.of_succ ?_
      have hsteady : ∀ next, Steady fun n => atomicWithin (advanceFor (n + 1)) n next :=
        fun next n n' hn => atomicWithin_refines (advanceFor_refines (by omega)) hn next
      have hcont : ∀ next raised, Steady fun n =>
          if raised = true then pure (if next.isValue then next else .node (.effect .atomic) [next])
          else atomicWithin (advanceFor (n + 1)) n next := by
        intro next raised
        cases raised with
        | true => exact .const _
        | false => exact hsteady next
      simp only [atomicWithin, hv, Bool.false_eq_true, if_false]
      refine Ends.bind ?_ ?_ ?_ ?_
      · exact fun n n' hn => advanceFor_refines (by omega) t
      · exact fun next n n' hn => .bind (.refl _) fun raised => hcont next raised n n' hn
      · exact (advanceFor_ends h.here).refine fun n => advanceFor_refines (by omega) t
      · intro n next m₁ hnext
        obtain ⟨hconf, hd⟩ := advanceFor_below h hv hnext
        refine Ends.bind (.const _) (hcont next) (.const trivial) ?_
        intro _ raised m₂ hraised
        cases hraised
        split
        · exact .pure _ _
        · have hbelow : EndsBelow next { m₁ with entities := m₁.entities.remove Entity.yielded } :=
            h.next hconf hd.cleared
          refine (ih next _ hd.cleared.toLower hbelow).refine fun n => ?_
          exact atomicWithin_refines (advanceFor_refines (by omega)) (Nat.le_refl n) next
    · refine ⟨0, ?_⟩
      show Finished (atomicWithin (advanceFor 0) 0 t m)
      rw [atomicWithin]
      simp [hv]

/-! ## Rules -/

section
variable {op : Operator} {params : List Term} {m : Machine}

/-- Parts with fewer nodes than the node can be stepped to an end, in every closed machine. -/
def PartsEnd (op : Operator) (params : List Term) (m : Machine) : Prop :=
  ∀ u m₁, Ready u m₁ → u.nodes < (Term.node op params).nodes →
    m₁.entities.inputNodes ≤ m.entities.inputNodes → EndsBelow u m₁

variable (hready : Ready (.node op params) m) (hparts : PartsEnd op params m)
include hready hparts

theorem PartsEnd.of_nodes {u : Term} (hc : u.closed = true) (hn : u.nodes ≤ nodesIn params) : EndsBelow u m :=
  hparts u m ⟨hc, hready.entities, hready.unlimited⟩ (by rw [Term.nodes]; omega) (Nat.le_refl _)

theorem PartsEnd.param {i : Nat} {u : Term} (h : params[i]? = some u) : EndsBelow u m := by
  obtain ⟨hc, hn⟩ := param_closed hready.closed h
  exact hparts.of_nodes hready hc hn

theorem PartsEnd.item {i j : Nat} {items : List Term} (h : params[i]? = some (.seq items)) :
    EndsBelow (Sequence.get items j) m := by
  obtain ⟨hc, hn⟩ := param_closed hready.closed h
  rw [Term.closed] at hc
  rw [Term.nodes] at hn
  unfold Sequence.get
  rw [List.getD_eq_getElem?_getD]
  rcases hj : items[j]? with _ | u
  · exact hparts.of_nodes hready rfl (Nat.zero_le _)
  · have hmem := List.mem_of_getElem? hj
    have hle := nodes_le_of_mem hmem
    exact hparts.of_nodes hready (allClosed_iff.mp hc u hmem) (by simp only [Option.getD_some]; omega)

omit hready hparts in
theorem stepFor_then_ends {u : Term} (f : Term → Term) (h : EndsBelow u m) :
    Ends (fun n => stepFor n u >>= fun next => pure (f next)) m :=
  .bind (stepFor_steady u) (fun _ => .const _) h.here fun _ _ _ _ => .pure _ _

theorem stepOne_ends (choose : List Term → Option Nat) :
    Ends (fun n => stepOne (stepFor n) op choose params) m := by
  refine Ends.after (finished_ofRule _ _ m) fun items m₁ hrule => ?_
  obtain ⟨hitems, rfl⟩ := ofRule_eq_ok.mp hrule
  rcases hc : choose items with _ | index
  · exact .pure _ _
  · exact stepFor_then_ends _ (hparts.item hready (sequenceArg_eq_ok.mp hitems))

theorem sequential_ends : Ends (fun n => sequential (stepFor n) params) m := by
  refine Ends.after (finished_ofRule _ _ m) fun statements m₁ hrule => ?_
  obtain ⟨hst, rfl⟩ := ofRule_eq_ok.mp hrule
  refine Ends.after (finished_ofRule _ _ m₁) fun last m₂ hrule => ?_
  obtain ⟨-, rfl⟩ := ofRule_eq_ok.mp hrule
  cases statements with
  | nil => exact .pure _ _
  | cons first rest =>
    rcases hr : first.isReducible with _ | _
    · simp only [hr, Bool.false_eq_true, if_false]
      refine .const ?_
      split
      · trivial
      · trivial
    · simp only [hr, if_true]
      have hfirst : EndsBelow (Sequence.get (first :: rest) 0) m₂ := hparts.item hready (sequenceArg_eq_ok.mp hst)
      exact stepFor_then_ends _ hfirst

theorem give_ends (hvalue : Evaluated op params) (hop : op = .effect .give) :
    Ends (fun n => give (stepFor n) params) m := by
  subst hop
  refine Ends.after (finished_ofRule _ _ m) fun value m₁ hrule => ?_
  obtain ⟨hv, rfl⟩ := ofRule_eq_ok.mp hrule
  refine Ends.after (finished_ofRule _ _ m₁) fun body m₂ hrule' => ?_
  obtain ⟨hb, rfl⟩ := ofRule_eq_ok.mp hrule'
  rcases hbv : body.isValue with _ | _
  · simp only [Bool.false_eq_true, if_false]
    have hzero : value.nodes = 0 := hvalue 0 .eager value rfl rfl (arg_eq_ok.mp hv)
    obtain ⟨hc, hn⟩ := param_closed hready.closed (arg_eq_ok.mp hb)
    have hbody : EndsBelow body { m₂ with entities := m₂.entities.put Entity.givenValue value } := by
      refine hparts _ _ ⟨hc, hready.entities.put hzero, hready.unlimited⟩ ?_ ?_
      · rw [Term.nodes]; omega
      · exact Nat.le_of_eq (Entities.inputNodes_put (by decide))
    refine Ends.bind ?_ (fun _ => .const _) (withGiven_ends hbody.here) fun _ _ _ _ => .pure _ _
    exact fun n n' hn => withGiven_refines (stepFor_steady body n n' hn)
  · simp only [if_true]
    exact .pure _ _

theorem atomic_ends : Ends (fun n => effect (stepFor n) (advanceFor n) n .atomic params) m := by
  refine Ends.after (finished_ofRule _ _ m) fun body m₁ hrule => ?_
  obtain ⟨hbody, rfl⟩ := ofRule_eq_ok.mp hrule
  exact atomicWithin_ends (hparts.param hready (arg_eq_ok.mp hbody))

theorem applyRule_ends (hp : Evaluated op params) :
    Ends (fun n => applyRule (stepFor n) (advanceFor n) n op params) m := by
  by_cases hstep : stepsArgument op = true
  · unfold stepsArgument at hstep
    split at hstep
    · exact stepOne_ends hready hparts _
    · exact stepOne_ends hready hparts _
    · exact sequential_ends hready hparts
    · exact give_ends hready hparts hp rfl
    · exact atomic_ends hready hparts
    · cases hstep
  · refine ⟨0, ?_⟩
    show Finished (applyRule (stepFor 0) (advanceFor 0) 0 op params m)
    rcases applyRule_cases (by simpa using hstep)
        (rfl : applyRule (stepFor 0) (advanceFor 0) 0 op params m = _) with ⟨_, hr⟩ | ⟨t, m₁, -, hr⟩
    · rw [hr]; trivial
    · rw [hr]; trivial

end

/-! ## Steps -/

theorem stepNode_ends {op : Operator} {params : List Term} {m : Machine} (hready : Ready (.node op params) m)
    (hparts : PartsEnd op params { m with steps := m.steps + 1 }) :
    Ends (fun n => stepNode n op params) m := by
  have hready' : Ready (.node op params) { m with steps := m.steps + 1 } :=
    ⟨hready.closed, hready.entities, hready.unlimited⟩
  have hcharge := charge_unlimited hready.unlimited
  refine Ends.of_succ (Ends.after (by rw [hcharge]; trivial) fun _ m₁ hm₁ => ?_)
  rw [hcharge] at hm₁
  cases hm₁
  refine Ends.bind (reducePending_steady op params none _) ?_ (reducePending_ends ?_) ?_
  · intro r
    cases r with
    | some next => exact .const _
    | none =>
      intro n n' hn
      exact applyRule_refines (fun t => stepFor_steady t n n' hn) (advanceFor_refines hn) hn op params
  · rintro ⟨index, u⟩ hu m₁ hent hconf
    obtain ⟨p, -, -, hparam, -⟩ := mem_pending.mp hu
    obtain ⟨hc, hn⟩ := param_closed hready.closed hparam
    refine runFor_ends (hparts u m₁ ⟨hc, ?_, ?_⟩ ?_ (Nat.le_of_eq ?_))
    · rw [hent]
      exact hready.entities
    · rw [hconf]
      exact hready.unlimited
    · rw [Term.nodes]; omega
    · rw [hent]
  · intro n r m₁ hr
    cases r with
    | some next => exact .pure _ _
    | none =>
      obtain ⟨hpending, rfl⟩ := reducePending_none hr
      exact applyRule_ends hready' hparts (evaluated_of_pending hpending hready.closed)

theorem sequence_ends {items : List Term} {wrap : List Term → Term} {m : Machine}
    (h : ∀ u ∈ items, ∀ m₁ : Machine, m₁.entities = m.entities → m₁.config = m.config →
      Ends (fun n => stepFor n u) m₁) :
    Ends (fun n => if allValues items then pure (wrap items)
      else stepFirst (stepNode n) none items >>= fun items => pure (wrap (flatten items))) m := by
  by_cases hv : allValues items = true
  · simp only [hv, if_true]
    exact .pure _ _
  · simp only [hv]
    refine Ends.bind ?_ (fun _ => .const _) (stepFirst_ends fun u hu _ => h u hu) fun _ _ _ _ => .pure _ _
    exact fun n n' hn => stepFirst_refines (stepNode_refines hn) none items

/-- Every step ends, by induction on what is left to do. -/
theorem stepFor_ends {t : Term} {m : Machine} (h : Ready t m) : Ends (fun n => stepFor n t) m := by
  induction t, m using lower_induction with
  | h t m ih =>
    have hitem : ∀ {wrap : List Term → Term} {items : List Term}, (wrap = Term.seq ∨ wrap = Term.spread) →
        t = wrap items → ∀ u ∈ items, ∀ m₁ : Machine, m₁.entities = m.entities → m₁.config = m.config →
        Ends (fun n => stepFor n u) m₁ := by
      intro wrap items hwrap ht u hu m₁ hent hconf
      subst ht
      obtain ⟨hc, hn, hsize⟩ := mem_wrap hwrap hu h.closed
      refine ih u m₁ (lower_iff.mpr ?_) ⟨hc, hent ▸ h.entities, hconf ▸ h.unlimited⟩
      rw [hent]
      simp only [weight]
      omega
    cases t with
    | seq items =>
      simp only [stepFor, stepWith]
      exact sequence_ends (hitem (Or.inl rfl) rfl)
    | spread items =>
      simp only [stepFor, stepWith]
      exact sequence_ends (hitem (Or.inr rfl) rfl)
    | node op params =>
      simp only [stepFor, stepWith]
      refine stepNode_ends h fun u m₁ hu hn hin => ?_
      have hlower : Lower u m₁.entities (.node op params) m.entities :=
        lower_iff.mpr (Or.inl (Nat.add_lt_add_of_lt_of_le hn hin))
      refine ⟨hu, ih u m₁ hlower hu, fun t' m' hconf hd => ?_⟩
      refine ih t' m' ?_ (hd.ready hconf hu)
      have h₁ := lower_iff.mp hlower
      have h₂ := hd.lower
      exact lower_iff.mpr (by omega)
    | _ => exact ⟨0, by simp [stepFor, stepWith]⟩

theorem endsBelow {t : Term} {m : Machine} (h : Ready t m) : EndsBelow t m :=
  ⟨h, stepFor_ends h, fun _ _ hconf hd => stepFor_ends (hd.ready hconf h)⟩

end Engine

/-! ## Programs -/

namespace Execution

open Engine

/-- A program is driven to its end. -/
theorem driveWith_ends {t : Term} {m : Machine} (h : Ready t m) :
    Ends (fun n => driveWith (advanceFor n) n t) m := by
  induction t, m using lower_induction with
  | h t m ih =>
    rcases hv : t.isValue with _ | _
    · refine Ends.of_succ ?_
      have hadvance : Steady fun n => recover (advanceFor (n + 1) t) :=
        fun n n' hn => (advanceFor_refines (by omega) t).recover
      have hends : Ends (fun n => recover (advanceFor (n + 1) t)) m :=
        Ends.recover ((advanceFor_ends (stepFor_ends h)).refine fun n => advanceFor_refines (by omega) t)
      simp only [driveWith, hv, Bool.false_eq_true, if_false]
      refine Ends.bind hadvance ?_ hends ?_
      · intro r
        cases r with
        | ok next => exact fun n n' hn => driveWith_refines (advanceFor_refines (by omega)) hn next
        | error cause => exact .const _
      · intro n r m₁ hr
        rcases recover_eq_ok.mp hr with ⟨next, rfl, hnext⟩ | ⟨cause, rfl, -⟩
        · obtain ⟨hconf, hd⟩ := advanceFor_below (endsBelow h) hv hnext
          refine (ih next m₁ hd.toLower (hd.ready hconf h)).refine fun n => ?_
          exact driveWith_refines (advanceFor_refines (by omega)) (Nat.le_refl n) next
        · exact .pure _ _
    · refine ⟨0, ?_⟩
      show Finished (driveWith (advanceFor 0) 0 t m)
      rw [driveWith]
      simp [hv]

/-- Closed inputs make a closed machine. -/
theorem supply_closed {inputs : List Term} {m m' : Machine} (hi : ∀ t ∈ inputs, t.closed = true)
    (hm : m.entities.Closed) (h : supply inputs m = .ok () m') :
    m'.entities.Closed ∧ m'.config = m.config := by
  unfold supply at h
  split at h
  · cases h
    exact ⟨hm, rfl⟩
  · cases h
    refine ⟨hm.put_input ?_, rfl⟩
    have hstream : allClosed (m.entities.stream Entity.standardIn) = true := by
      rw [Entities.stream, allClosed_elements]
      exact hm.get _
    have hinputs : allClosed (flatten inputs) = true := by
      rw [allClosed_flatten]
      exact allClosed_iff.mpr hi
    simp [Term.closed, hstream, hinputs]

theorem executeFor_ends {t : Term} {inputs : List Term} {m : Machine} (h : Ready t m)
    (hi : ∀ u ∈ inputs, u.closed = true) : Ends (fun n => executeFor n t inputs) m := by
  have hsupply : Finished (supply inputs m) := by
    unfold supply
    split
    · trivial
    · trivial
  refine Ends.after hsupply fun _ m₁ hm₁ => ?_
  obtain ⟨hent, hconf⟩ := supply_closed hi h.entities hm₁
  have hready : Ready t m₁ := ⟨h.closed, hent, by rw [hconf]; exact h.unlimited⟩
  refine Ends.bind ?_ (fun _ => .const _) (driveWith_ends hready) fun _ outcome m₂ _ => .const trivial
  exact fun n n' hn => driveWith_refines (advanceFor_refines hn) hn t

end Execution

/-- What is read makes a closed term in a closed machine. From there, without a step limit, a step, a run and
an execution always end, and every step leads to a closed term in a closed machine with less left to do. -/
theorem closed_programs_end :
    (∀ source t inputs config m m', readTerm source = .ok t →
      (∀ u ∈ inputs, ∃ text, readTerm text = .ok u) → Machine.start config = .ok m →
      Execution.supply inputs m = .ok () m' → t.closed = true ∧ m'.entities.Closed) ∧
    ∀ t m, t.closed = true → m.entities.Closed → m.config.stepLimit = none →
      Finished (step t m) ∧ Finished (run t m) ∧
      (∀ inputs, (∀ u ∈ inputs, u.closed = true) → Finished (execute t inputs m)) ∧
      ∀ t' m', t.isValue = false → step t m = .ok t' m' →
        t'.closed = true ∧ m'.entities.Closed ∧ Lower t' m'.entities t m.entities := by
  refine ⟨?_, ?_⟩
  · intro source t inputs config m m' hread hinputs hstart hsupply
    have hclosed : m.entities.Closed := by
      unfold Machine.start at hstart
      split at hstart
      · cases hstart
      · cases hstart
        exact Entities.closed_empty
    refine ⟨closed_of_readTerm hread, (Execution.supply_closed ?_ hclosed hsupply).1⟩
    intro u hu
    obtain ⟨text, htext⟩ := hinputs u hu
    exact closed_of_readTerm htext
  · intro t m hc hm hlimit
    have hready : Ready t m := ⟨hc, hm, hlimit⟩
    refine ⟨?_, ?_, ?_, ?_⟩
    · obtain ⟨n, hn⟩ := Engine.stepFor_ends hready
      rw [step_eq_of_fuel hn]
      exact hn
    · obtain ⟨n, hn⟩ := Engine.runFor_ends (Engine.endsBelow hready)
      rw [run_eq_of_fuel hn]
      exact hn
    · intro inputs hinputs
      obtain ⟨n, hn⟩ := Execution.executeFor_ends hready hinputs
      rw [execute_eq_of_fuel hn]
      exact hn
    · intro t' m' hv hstep
      have hd := descends_of_step hc hm hv hstep
      exact ⟨hd.closed, hd.entities, hd.toLower⟩

/-- A program that reads a sum and evaluates it comes to a list in one step. -/
theorem closed_programs_end_read :
    let sum : Term := .node (.arithmetic .add) [.seq [.int 1, .int 2]]
    let t : Term := .node (.composite .list) [.seq [.node (.effect .read) []]]
    let m : Machine := ⟨{ stepLimit := none }, Entities.empty.put Entity.standardIn (.seq [sum]), ⟨0⟩, 0⟩
    Finished (run t m) ∧ ∃ t' m', step t m = .ok t' m' ∧ Lower t' m'.entities t m.entities := by
  intro sum t m
  have hm : m.entities.Closed := Entities.closed_empty.put_input rfl
  obtain ⟨-, hrun, -, hlower⟩ := closed_programs_end.2 t m rfl hm rfl
  have hok : isOk (Engine.stepFor 8 t m) = true := by decide +kernel
  obtain ⟨t', m', hstep⟩ := exists_of_isOk hok
  have hstep := step_eq_ok.mpr ⟨8, hstep⟩
  exact ⟨hrun, t', m', hstep, (hlower t' m' rfl hstep).2.2⟩

end TermMachine
