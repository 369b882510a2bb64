import TermMachine.Proofs.FlatTerms
import TermMachine.Proofs.Invariant
import TermMachine.Proofs.Settling

/-!
# A sequence runs like its elements one after the other

A step of a sequence is a step of its first element that can take one. While an element takes its steps, those before it
are values already, and those after it are not looked at: so each step of the element is a step of the sequence that
has the element's own elements in its place. The element may turn into a sequence on the way, and what it holds then
stands beside the others; a part of it may be stuck for a while, and the search goes on inside it as it would alone.

Runs are made of such steps. When the first element has come to its value, the sequence goes on with the next, from the
machine that the first left. Nothing is counted for the elements that are passed over, so not even the number of steps
differs.

With stall detection the two could differ: a step from a term to the sequence of nothing but that term is progress, but
not for the sequence around it. The terms are flat, as all are that are made by joining terms.

Proved:
* `step_in_sequence`: a step of a term is a step of every sequence in which its elements come next.
* `run_in_sequence`: so is a run.
* `run_seq_of_runs`: running the elements one after the other is running the sequence.
-/

namespace TermMachine

open Term Eval Engine

/-! ## One step -/

/-- Values in front are passed over. -/
theorem stepFirst_after_values {s : Operator → List Term → Eval Term} {done items items' : List Term} {m m' : Machine}
    (hdone : allValues done = true) (h : stepFirst s none items m = .ok items' m') :
    stepFirst s none (done ++ items) m = .ok (done ++ items') m' := by
  induction done with
  | nil => exact h
  | cons u done ih =>
    rw [allValues, Bool.and_eq_true] at hdone
    rw [List.cons_append, stepFirst, if_pos hdone.1, bind_of_ok (ih hdone.2)]
    rfl

/-- What follows the element that takes the step is not looked at. -/
theorem stepFirst_append {s : Operator → List Term → Eval Term} {blocked : Option Stuck} {items items' : List Term}
    {m m' : Machine} (hopen : blocked = none → allValues items = false)
    (h : stepFirst s blocked items m = .ok items' m') (rest : List Term) :
    stepFirst s blocked (items ++ rest) m = .ok (items' ++ rest) m' := by
  induction items generalizing blocked items' m with
  | nil =>
    cases blocked with
    | none => cases hopen rfl
    | some cause => cases h
  | cons t items ih =>
    rw [List.cons_append, stepFirst]
    rw [stepFirst] at h
    by_cases hv : t.isValue = true
    · rw [if_pos hv] at h ⊢
      obtain ⟨more, m₁, hmore, hm⟩ := Eval.bind_eq_ok.mp h
      cases hm
      have hrest : blocked = none → allValues items = false := by
        intro hb
        simpa [allValues, hv] using hopen hb
      rw [bind_of_ok (ih hrest hmore)]
      rfl
    · rw [if_neg hv] at h ⊢
      obtain ⟨r, m₁, hr, hm⟩ := Eval.bind_eq_ok.mp h
      rw [bind_of_ok hr]
      cases r with
      | ok next =>
        cases hm
        rfl
      | error cause =>
        obtain ⟨more, m₂, hmore, hm⟩ := Eval.bind_eq_ok.mp hm
        cases hm
        have hrest : some cause = none → allValues items = false := fun he => nomatch he
        show (stepFirst s (some cause) (items ++ rest) >>= _) m₁ = _
        rw [bind_of_ok (ih hrest hmore)]
        rfl

/-- The elements of a term that is no value are not all values. -/
theorem allValues_elements (t : Term) : allValues t.elements = t.isValue := by
  cases t with
  | seq items => simp [elements, isValue]
  | spread items => simp [elements, isValue]
  | _ => simp [elements, allValues]

/-- A term steps like a sequence of its elements. -/
theorem stepFirst_elements {fuel : Nat} {t t' : Term} {m m' : Machine} (hv : t.isValue = false)
    (h : stepFor fuel t m = .ok t' m') :
    ∃ items, stepFirst (stepNode fuel) none t.elements m = .ok items m' ∧ flatten items = t'.elements := by
  have hsequence : ∀ {wrap : List Term → Term} {items : List Term},
      (stepFirst (stepNode fuel) none items >>= fun items' => pure (wrap (flatten items'))) m = .ok t' m' →
      (∀ more, (wrap more).elements = more) →
      ∃ items', stepFirst (stepNode fuel) none items m = .ok items' m' ∧ flatten items' = t'.elements := by
    intro wrap items h hwrap
    obtain ⟨items', m₁, hitems, hm⟩ := Eval.bind_eq_ok.mp h
    cases hm
    exact ⟨items', hitems, (hwrap _).symm⟩
  rcases hs : t.isSequence with _ | _
  · rw [elements_of_not_isSequence hs]
    have halone : stepFirst (stepNode fuel) none ([] ++ t :: []) m = .ok ([] ++ t' :: []) m' :=
      stepFirst_of_step rfl hv h
    exact ⟨[t'], halone, by simp⟩
  · cases t with
    | seq items =>
      rw [isValue] at hv
      simp only [stepFor, stepWith, hv, Bool.false_eq_true, if_false] at h
      exact hsequence h fun _ => rfl
    | spread items =>
      rw [isValue] at hv
      simp only [stepFor, stepWith, hv, Bool.false_eq_true, if_false] at h
      exact hsequence h fun _ => rfl
    | _ => cases hs

/-- A step of a term is a step of every sequence in which its elements come after values. -/
theorem step_in_sequence {done rest : List Term} {t t' : Term} {m m' : Machine} (hdone : allValues done = true)
    (hflat : ∀ u ∈ done ++ rest, u.isSequence = false) (hv : t.isValue = false) (h : step t m = .ok t' m') :
    step (.seq (done ++ (t.elements ++ rest))) m = .ok (.seq (done ++ (t'.elements ++ rest))) m' := by
  obtain ⟨fuel, hfuel⟩ := step_eq_ok.mp h
  obtain ⟨items, hitems, hjoin⟩ := stepFirst_elements hv hfuel
  have hopen : allValues t.elements = false := by rw [allValues_elements, hv]
  have hfirst := stepFirst_after_values hdone (stepFirst_append (fun _ => hopen) hitems rest)
  have hvalues : allValues (done ++ (t.elements ++ rest)) = false := by
    rw [allValues_eq_all] at hopen ⊢
    simp [hopen]
  have hflatten : flatten (done ++ (items ++ rest)) = done ++ (t'.elements ++ rest) := by
    have hd : flatten done = done := flatten_of_no_sequence fun u hu => hflat u (List.mem_append_left _ hu)
    have hr : flatten rest = rest := flatten_of_no_sequence fun u hu => hflat u (List.mem_append_right _ hu)
    rw [flatten_append, flatten_append, hd, hr, hjoin]
  refine step_eq_ok.mpr ⟨fuel, ?_⟩
  show stepWith (stepNode fuel) _ m = _
  rw [stepWith, if_neg (by simp [hvalues]), bind_of_ok hfirst, hflatten]
  rfl

/-! ## Runs, step by step -/

inductive Trace : Term → Machine → Term → Machine → Prop
  | done {v : Term} {m : Machine} : v.isValue = true → Trace v m v m
  | step {t t' v : Term} {m m₁ m' : Machine} : t.isValue = false → step t m = .ok t' m₁ → Trace t' m₁ v m' →
      Trace t m v m'

theorem Trace.isValue {t v : Term} {m m' : Machine} (h : Trace t m v m') : v.isValue = true := by
  induction h with
  | done hv => exact hv
  | step _ _ _ ih => exact ih

theorem trace_of_runWith {fuel rounds : Nat} {t v : Term} {m m' : Machine}
    (h : runWith (advanceFor fuel) rounds t m = .ok v m') : Trace t m v m' := by
  induction rounds generalizing t m with
  | zero =>
    unfold runWith at h
    by_cases hv : t.isValue = true
    · rw [if_pos hv] at h
      cases h
      exact .done hv
    · rw [if_neg hv] at h
      cases h
  | succ rounds ih =>
    unfold runWith at h
    by_cases hv : t.isValue = true
    · rw [if_pos hv] at h
      cases h
      exact .done hv
    · rw [if_neg hv] at h
      obtain ⟨next, m₁, hadvance, hrun⟩ := Eval.bind_eq_ok.mp h
      have hstep : stepFor fuel t m = .ok next m₁ := advanceWith_ok hadvance
      exact .step (by simpa using hv) (step_eq_ok.mpr ⟨fuel, hstep⟩) (ih hrun)

/-- A run is a row of steps to a value. -/
theorem trace_of_run {t v : Term} {m m' : Machine} (h : run t m = .ok v m') : Trace t m v m' := by
  obtain ⟨fuel, hfuel⟩ := run_eq_ok.mp h
  exact trace_of_runWith hfuel

theorem run_of_isValue {v : Term} (hv : v.isValue = true) (m : Machine) : run v m = .ok v m := by
  refine run_eq_ok.mpr ⟨0, ?_⟩
  show runWith (advanceFor 0) 0 v m = _
  unfold runWith
  rw [if_pos hv]
  rfl

/-- Without stall detection, a run may begin with any step. -/
theorem run_of_step {t t' v : Term} {m m₁ m' : Machine} (hstall : m.config.stallDetection = false)
    (hv : t.isValue = false) (hstep : step t m = .ok t' m₁) (hrun : run t' m₁ = .ok v m') : run t m = .ok v m' := by
  obtain ⟨n, hn⟩ := step_eq_ok.mp hstep
  obtain ⟨k, hk⟩ := run_eq_ok.mp hrun
  have hadvance : advanceFor n t m = .ok t' m₁ := by
    rw [advanceFor, advanceWith, bind_of_ok (get_apply m), bind_of_ok hn, bind_of_ok (entities_apply m₁)]
    simp [hstall]
  exact run_eq_ok.mpr ⟨_, (runFor_of_advance hv hadvance (by rw [hk]; trivial)).trans hk⟩

theorem config_of_step {t t' : Term} {m m' : Machine} (h : step t m = .ok t' m') : m'.config = m.config := by
  have hkept := keeps_step allows_config t m
  rwa [h] at hkept

theorem config_of_run {t v : Term} {m m' : Machine} (h : run t m = .ok v m') : m'.config = m.config := by
  have hkept := keeps_run allows_config t m
  rwa [h] at hkept

/-- While a term takes its steps to a value, so does a sequence in which its elements come next. -/
theorem run_in_sequence {done rest : List Term} {t v w : Term} {m m₁ m' : Machine} (htrace : Trace t m v m₁)
    (hstall : m.config.stallDetection = false) (hdone : allValues done = true)
    (hflat : ∀ u ∈ done ++ rest, u.isSequence = false)
    (hrun : run (.seq (done ++ (v.elements ++ rest))) m₁ = .ok w m') :
    run (.seq (done ++ (t.elements ++ rest))) m = .ok w m' := by
  induction htrace with
  | done => exact hrun
  | @step t t' v m m₁ m₂ hv hstep _ ih =>
    have hopen : allValues t.elements = false := by rw [allValues_elements, hv]
    have hvalue : (Term.seq (done ++ (t.elements ++ rest))).isValue = false := by
      rw [isValue]
      rw [allValues_eq_all] at hopen ⊢
      simp [hopen]
    refine run_of_step hstall hvalue (step_in_sequence hdone hflat hv hstep) (ih ?_ hrun)
    rw [config_of_step hstep, hstall]

/-! ## Running the elements -/

/-- Running terms one after the other, each from the machine that the one before left, is running the sequence of them:
it comes to the sequence of their values, a sequence among these contributing its elements, on the same machine. -/
theorem run_seq_of_runs {es vs : List Term} {m m' : Machine} (hstall : m.config.stallDetection = false)
    (hes : ∀ e ∈ es, e.Flat) (hm : m.entities.Flat) (h : es.mapM run m = .ok vs m') :
    run (.seq (flatten es)) m = .ok (.seq (flatten vs)) m' := by
  -- the values of the elements before stand in front
  suffices hgeneral : ∀ done : List Term, allValues done = true → (∀ u ∈ done, u.isSequence = false) →
      run (.seq (done ++ flatten es)) m = .ok (.seq (done ++ flatten vs)) m' from hgeneral [] rfl (by simp)
  induction es generalizing vs m with
  | nil =>
    intro done hdone _
    rw [List.mapM_nil] at h
    cases h
    have hvalue : (Term.seq (done ++ flatten [])).isValue = true := by simpa [isValue] using hdone
    exact run_of_isValue hvalue _
  | cons e es ih =>
    intro done hdone hflat
    rw [List.mapM_cons] at h
    obtain ⟨v, m₁, hrun, h⟩ := Eval.bind_eq_ok.mp h
    obtain ⟨rest, m₂, hrest, h⟩ := Eval.bind_eq_ok.mp h
    cases h
    have he : e.Flat := hes e (by simp)
    have hes' : ∀ u ∈ es, u.Flat := fun u hu => hes u (List.mem_cons_of_mem _ hu)
    obtain ⟨hvflat, hm₁⟩ := flat_of_run he hm hrun
    have htrace := trace_of_run hrun
    have hstall₁ : m₁.config.stallDetection = false := by rw [config_of_run hrun, hstall]
    have hrow : allValues (done ++ v.elements) = true := by
      have hv : allValues v.elements = true := by rw [allValues_elements, htrace.isValue]
      rw [allValues_eq_all] at hdone hv ⊢
      simp [hdone, hv]
    have hnext := ih hstall₁ hes' hm₁ hrest (done ++ v.elements) hrow (by
      intro u hu
      rcases List.mem_append.mp hu with hu | hu
      · exact hflat u hu
      · exact hvflat.elements u hu)
    rw [flatten_cons, flatten_cons]
    refine run_in_sequence htrace hstall hdone ?_ (by simpa using hnext)
    intro u hu
    rcases List.mem_append.mp hu with hu | hu
    · exact hflat u hu
    · exact flatten_no_sequence hes' u hu

/-- The first element comes to a spread of two numbers, and the second reads a third: the sequence has all of them. -/
theorem run_seq_of_runs_read :
    let es : List Term := [.node (.composite .tupleElements) [.data tupleName [.int 5, .int 6]], .node (.effect .read) []]
    let m : Machine := ⟨{ stallDetection := false }, ⟨[(Entity.standardIn, .seq [.int 7])]⟩, ⟨0⟩, 0⟩
    let m' : Machine := ⟨{ stallDetection := false }, ⟨[(Entity.standardIn, .seq [])]⟩, ⟨0⟩, 2⟩
    es.mapM run m = .ok [.spread [.int 5, .int 6], .int 7] m' ∧
      run (.seq (flatten es)) m = .ok (.seq [.int 5, .int 6, .int 7]) m' := by
  intro es m m'
  have hflat : ∀ e ∈ es, e.Flat := by
    intro e he u hu
    simp only [es, List.mem_cons, List.not_mem_nil, or_false] at he
    rcases he with rfl | rfl
    · simp only [parts, partsOfAll, List.append_nil, List.cons_append, List.nil_append, List.mem_cons,
        List.not_mem_nil, or_false] at hu
      rcases hu with rfl | rfl | rfl | rfl <;> simp [HoldsNoSequence, isSequence]
    · simp only [parts, partsOfAll, List.mem_cons, List.not_mem_nil, or_false] at hu
      rw [hu]
      trivial
  have hm : m.entities.Flat := by
    intro name t ht
    simp only [m, Entities.find?, Entities.search] at ht
    split at ht
    · cases ht
      intro u hu
      simp only [parts, partsOfAll, List.append_nil, List.mem_cons, List.not_mem_nil, or_false] at hu
      rcases hu with rfl | rfl <;> simp [HoldsNoSequence, isSequence]
    · cases ht
  have hfirst : run (.node (.composite .tupleElements) [.data tupleName [.int 5, .int 6]]) m =
      .ok (.spread [.int 5, .int 6]) { m with steps := 1 } := run_eq_ok.mpr ⟨4, rfl⟩
  have hsecond : run (.node (.effect .read) []) { m with steps := 1 } = .ok (.int 7) m' := run_eq_ok.mpr ⟨4, rfl⟩
  have hrest : [Term.node (.effect .read) []].mapM run { m with steps := 1 } = .ok [.int 7] m' := by
    rw [List.mapM_cons, bind_of_ok hsecond]
    rfl
  have hruns : es.mapM run m = .ok [.spread [.int 5, .int 6], .int 7] m' := by
    rw [List.mapM_cons, bind_of_ok hfirst, bind_of_ok hrest]
    rfl
  exact ⟨hruns, run_seq_of_runs rfl hflat hm hruns⟩

end TermMachine
