import Mathlib.Data.List.Forall2
import TermMachine.Proofs.Fuel
import TermMachine.Proofs.StepCases

/-!
# Terms that settle quietly

A collection that is written out is a node over its elements, and evaluating it reads and writes nothing:
the elements are run one after the other, each by steps of its own, and then the rule of the node puts
them together. `Settles t v` says that a term comes to the value `v` in this way, on every machine without
a step limit. No step gives back the term that it was taken from, so stall detection is never in the way.

Proved:
* `moves_spliced`: a step of an element of a sequence puts what it gives in the place of the element.
* `runs_all`: a sequence runs to the values that its elements settle to.
* `runs_arguments`: a node runs on once its arguments have run.
* `settles_node`: a node over a run of arguments settles once its rule gives a value.
-/

namespace TermMachine

open Term Eval Engine

/-! ## Quiet computations -/

/-- Nothing has changed but the number of steps. -/
structure Quiet (m m' : Machine) : Prop where
  config : m'.config = m.config
  entities : m'.entities = m.entities
  choices : m'.choices = m.choices

theorem Quiet.refl (m : Machine) : Quiet m m := ⟨rfl, rfl, rfl⟩

theorem Quiet.trans {m m₁ m₂ : Machine} (h : Quiet m m₁) (h' : Quiet m₁ m₂) : Quiet m m₂ where
  config := h'.config.trans h.config
  entities := h'.entities.trans h.entities
  choices := h'.choices.trans h.choices

theorem Quiet.charged (m : Machine) : Quiet m { m with steps := m.steps + 1 } := ⟨rfl, rfl, rfl⟩

/-- One step leads from `t` to `t'`, quietly and on any machine without a step limit. -/
def Moves (t t' : Term) : Prop :=
  ∀ m : Machine, m.config.stepLimit = none → ∃ fuel m', stepFor fuel t m = .ok t' m' ∧ Quiet m m'

def Runs (t v : Term) : Prop :=
  ∀ m : Machine, m.config.stepLimit = none → ∃ fuel m', runFor fuel t m = .ok v m' ∧ Quiet m m'

/-! ## Runs -/

theorem advanceWith_of_ne {step : Term → Eval Term} {t t' : Term} {m m' : Machine} (h : step t m = .ok t' m')
    (hne : t' ≠ t) : advanceWith step t m = .ok t' m' := by
  rw [advanceWith, bind_of_ok (get_apply m), bind_of_ok h, bind_of_ok (entities_apply m')]
  simp [hne]

theorem Runs.value {v : Term} (h : v.isValue = true) : Runs v v := by
  intro m _
  refine ⟨0, m, ?_, .refl m⟩
  show runWith (advanceFor 0) 0 v m = _
  unfold runWith
  rw [if_pos h]
  rfl

/-- A run may begin with a step that changes the term. -/
theorem Runs.step {t t' v : Term} (hv : t.isValue = false) (hne : t' ≠ t) (hmove : Moves t t') (h : Runs t' v) :
    Runs t v := by
  intro m hm
  obtain ⟨n, m₁, hstep, hquiet⟩ := hmove m hm
  obtain ⟨k, m₂, hrun, hquiet'⟩ := h m₁ (by rw [hquiet.config, hm])
  have hfirst := runFor_of_advance (k := k) hv (advanceWith_of_ne hstep hne) (by rw [hrun]; trivial)
  exact ⟨max n k + 1, m₂, hfirst.trans hrun, hquiet.trans hquiet'⟩

theorem Moves.runs {t v : Term} (h : Moves t v) (ht : t.isValue = false) (hv : v.isValue = true) : Runs t v := by
  refine .step ht ?_ h (.value hv)
  intro heq
  rw [heq, ht] at hv
  cases hv

theorem run_of_runs {t v : Term} (h : Runs t v) {m : Machine} (hm : m.config.stepLimit = none) :
    ∃ m', run t m = .ok v m' ∧ Quiet m m' := by
  obtain ⟨fuel, m', hrun, hquiet⟩ := h m hm
  exact ⟨m', run_eq_ok.mpr ⟨fuel, hrun⟩, hquiet⟩

/-! ## Sequences -/

/-- The first element that is not a value takes the step. -/
theorem stepFirst_of_step {s : Operator → List Term → Eval Term} {before after : List Term} {t t' : Term}
    {m m' : Machine} (hbefore : allValues before = true) (ht : t.isValue = false)
    (h : stepWith s t m = .ok t' m') :
    stepFirst s none (before ++ t :: after) m = .ok (before ++ t' :: after) m' := by
  induction before with
  | nil =>
    have hspeculate : speculate (stepWith s t) m = .ok (.ok t') m' :=
      speculate_eq_ok.mpr (Or.inl ⟨t', rfl, h⟩)
    rw [List.nil_append, stepFirst, if_neg (by simp [ht]), bind_of_ok hspeculate]
    rfl
  | cons u before ih =>
    rw [allValues, Bool.and_eq_true] at hbefore
    rw [List.cons_append, stepFirst, if_pos hbefore.1, bind_of_ok (ih hbefore.2)]
    rfl

/-- What an element comes to stands in its place, a sequence being spliced there. -/
theorem moves_spliced {before after : List Term} {t t' : Term} (hbefore : allValues before = true)
    (hflat : ∀ u ∈ before ++ after, u.isSequence = false) (ht : t.isValue = false) (h : Moves t t') :
    Moves (.seq (before ++ t :: after)) (.seq (before ++ (t'.elements ++ after))) := by
  intro m hm
  obtain ⟨fuel, m', hstep, hquiet⟩ := h m hm
  refine ⟨fuel, m', ?_, hquiet⟩
  have hvalues : allValues (before ++ t :: after) = false := by
    simp [allValues_eq_all, ht]
  have hitems : flatten (before ++ t' :: after) = before ++ (t'.elements ++ after) := by
    have hfront := flatten_of_no_sequence fun u hu => hflat u (List.mem_append_left _ hu)
    have hback := flatten_of_no_sequence fun u hu => hflat u (List.mem_append_right _ hu)
    rw [flatten_append, flatten_cons, hfront, hback]
  show stepWith (stepNode fuel) _ m = _
  rw [stepWith, if_neg (by simp [hvalues]), bind_of_ok (stepFirst_of_step hbefore ht hstep), hitems]
  rfl

theorem moves_seq {before after : List Term} {t t' : Term} (hbefore : allValues before = true)
    (hflat : ∀ u ∈ before ++ after, u.isSequence = false) (ht : t.isValue = false) (ht' : t'.isSequence = false)
    (h : Moves t t') : Moves (.seq (before ++ t :: after)) (.seq (before ++ t' :: after)) := by
  have hspliced := moves_spliced hbefore hflat ht h
  rwa [elements_of_not_isSequence ht', List.singleton_append] at hspliced

/-- A term that is no sequence comes to a value by quiet steps, and is no sequence on the way. -/
inductive Settles : Term → Term → Prop
  | value {v : Term} : v.isValue = true → v.isSequence = false → Settles v v
  | step {t t' v : Term} : t.isValue = false → t.isSequence = false → t' ≠ t → Moves t t' → Settles t' v →
      Settles t v

namespace Settles

variable {t v : Term}

theorem no_sequence (h : Settles t v) : t.isSequence = false := by
  cases h with
  | value _ hs => exact hs
  | step _ hs _ _ _ => exact hs

theorem value_right (h : Settles t v) : v.isValue = true ∧ v.isSequence = false := by
  induction h with
  | value hv hs => exact ⟨hv, hs⟩
  | step _ _ _ _ _ ih => exact ih

theorem eq_of_isValue (h : Settles t v) (ht : t.isValue = true) : t = v := by
  cases h with
  | value => rfl
  | step hv _ _ _ _ =>
    rw [ht] at hv
    cases hv

theorem runs (h : Settles t v) : Runs t v := by
  induction h with
  | value hv _ => exact .value hv
  | step hv _ hne hmove _ ih => exact .step hv hne hmove ih

end Settles

/-- An element that settles may stand for its value in a sequence that is run. -/
theorem Runs.replace {before after : List Term} {t v w : Term} (hbefore : allValues before = true)
    (hflat : ∀ u ∈ before ++ after, u.isSequence = false) (h : Settles t v)
    (hrun : Runs (.seq (before ++ v :: after)) w) : Runs (.seq (before ++ t :: after)) w := by
  induction h with
  | value _ _ => exact hrun
  | @step t t' v hv _ hne hmove h ih =>
    refine .step ?_ ?_ (moves_seq hbefore hflat hv h.no_sequence hmove) (ih hrun)
    · simp [isValue, allValues_eq_all, hv]
    · simpa using hne

theorem no_sequence_of_settles {ts vs : List Term} (h : List.Forall₂ Settles ts vs) :
    ∀ t ∈ ts, t.isSequence = false := by
  induction h with
  | nil => simp
  | cons ht _ ih => simpa using ⟨ht.no_sequence, ih⟩

theorem runs_all {ts vs : List Term} (h : List.Forall₂ Settles ts vs) : Runs (.seq ts) (.seq vs) := by
  -- the elements in front have settled already
  have hgeneral : ∀ before : List Term, allValues before = true → (∀ u ∈ before, u.isSequence = false) →
      Runs (.seq (before ++ ts)) (.seq (before ++ vs)) := by
    induction h with
    | nil =>
      intro before hbefore _
      exact .value (by simpa [isValue] using hbefore)
    | @cons t v ts vs ht hts ih =>
      intro before hbefore hflat
      have hv := ht.value_right
      have hnext : Runs (.seq (before ++ v :: ts)) (.seq (before ++ v :: vs)) := by
        have hrest := ih (before ++ [v]) ?_ ?_
        · simpa using hrest
        · rw [allValues_eq_all] at hbefore ⊢
          simp [hbefore, hv.1]
        · intro u hu
          rcases List.mem_append.mp hu with hu | hu
          · exact hflat u hu
          · rw [List.mem_singleton.mp hu]
            exact hv.2
      refine .replace hbefore ?_ ht hnext
      intro u hu
      rcases List.mem_append.mp hu with hu | hu
      · exact hflat u hu
      · exact no_sequence_of_settles hts u hu
  exact hgeneral [] rfl (by simp)

/-! ## Nodes over a run of arguments -/

section
variable {op : Operator} {ts vs : List Term} {v : Term}

theorem pending_run (hop : op.params = [.eagerSeq]) (ts : List Term) :
    pending op [.seq ts] = if allValues ts then [] else [(0, .seq ts)] := by
  rcases hts : allValues ts with _ | _ <;>
    simp [pending, hop, Param.isEager, isReducible, isValue, hts]

/-- The arguments are run to their values. -/
theorem moves_arguments (hop : op.params = [.eagerSeq]) (hts : allValues ts = false)
    (h : Runs (.seq ts) (.seq vs)) : Moves (.node op [.seq ts]) (.node op [.seq vs]) := by
  intro m hm
  obtain ⟨fuel, m', hrun, hquiet⟩ := h { m with steps := m.steps + 1 } hm
  refine ⟨fuel + 1, m', ?_, (Quiet.charged m).trans hquiet⟩
  have hpending : pending op [.seq ts] = [(0, .seq ts)] := by
    rw [pending_run hop, if_neg (by simp [hts])]
  exact stepNode_of_first_pending hpending (charge_unlimited hm) hrun rfl

/-- With nothing pending and no step limit, a node steps by its rule. -/
theorem stepNode_of_pending_nil {fuel : Nat} {params : List Term} {m : Machine} (hpending : pending op params = [])
    (hm : m.config.stepLimit = none) : stepNode (fuel + 1) op params m =
      applyRule (stepFor fuel) (advanceFor fuel) fuel op params { m with steps := m.steps + 1 } := by
  rw [stepNode_eq_rule hpending, bind_of_ok (charge_unlimited hm)]

/-- With its arguments evaluated, a node becomes what its rule gives. -/
theorem moves_rule (hop : op.params = [.eagerSeq]) (hvs : allValues vs = true)
    (hrule : ∀ step advance rounds m, applyRule step advance rounds op [.seq vs] m = .ok v m) :
    Moves (.node op [.seq vs]) v := by
  intro m hm
  refine ⟨1, { m with steps := m.steps + 1 }, ?_, .charged m⟩
  have hpending : pending op [.seq vs] = [] := by rw [pending_run hop, if_pos hvs]
  exact (stepNode_of_pending_nil hpending hm).trans (hrule _ _ _ _)

/-- A node over one argument that is evaluated becomes what its rule gives. -/
theorem moves_over {u : Term} (hop : op.params = [.eager]) (hu : u.isValue = true)
    (hrule : ∀ step advance rounds m, applyRule step advance rounds op [u] m = .ok v m) : Moves (.node op [u]) v := by
  intro m hm
  have hpending : pending op [u] = [] := by simp [pending, hop, isReducible, hu]
  exact ⟨1, _, (stepNode_of_pending_nil hpending hm).trans (hrule _ _ _ _), .charged m⟩

theorem evaluated_ne (hts : allValues ts = false) (hvs : allValues vs = true) :
    Term.node op [.seq vs] ≠ .node op [.seq ts] := by
  intro heq
  simp only [node.injEq, List.cons.injEq, seq.injEq, and_true, true_and] at heq
  rw [← heq, hvs] at hts
  cases hts

/-- Arguments that are run to values come first, whatever the node makes of the values. -/
theorem runs_arguments (hop : op.params = [.eagerSeq]) (hts : allValues ts = false) (hvs : allValues vs = true)
    (h : Runs (.seq ts) (.seq vs)) (hnode : Runs (.node op [.seq vs]) v) : Runs (.node op [.seq ts]) v :=
  .step rfl (evaluated_ne hts hvs) (moves_arguments hop hts h) hnode

theorem allValues_of_settles (h : List.Forall₂ Settles ts vs) : allValues vs = true := by
  induction h with
  | nil => rfl
  | cons ht _ ih => rw [allValues, ht.value_right.1, ih]; rfl

theorem eq_of_settles (h : List.Forall₂ Settles ts vs) (hts : allValues ts = true) : ts = vs := by
  induction h with
  | nil => rfl
  | cons ht _ ih =>
    rw [allValues, Bool.and_eq_true] at hts
    rw [ht.eq_of_isValue hts.1, ih hts.2]

theorem settles_node (hop : op.params = [.eagerSeq]) (h : List.Forall₂ Settles ts vs) (hv : v.isValue = true)
    (hs : v.isSequence = false)
    (hrule : ∀ step advance rounds m, applyRule step advance rounds op [.seq vs] m = .ok v m) :
    Settles (.node op [.seq ts]) v := by
  have hvs := allValues_of_settles h
  have hne : v ≠ .node op [.seq vs] := by
    rintro rfl
    cases hv
  have hlast : Settles (.node op [.seq vs]) v :=
    .step rfl rfl hne (moves_rule hop hvs hrule) (.value hv hs)
  rcases hts : allValues ts with _ | _
  · exact .step rfl rfl (evaluated_ne hts hvs) (moves_arguments hop hts (runs_all h)) hlast
  · rw [eq_of_settles h hts]
    exact hlast

end

end TermMachine
