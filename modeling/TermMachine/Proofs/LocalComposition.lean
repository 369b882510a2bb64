import TermMachine.Proofs.NodeShape
import TermMachine.Proofs.RunPaths

/-!
# Computations where the engine makes them

`Composition` walks through the engine for properties that a computation has on every machine. Some hold only of what the
engine really does: of steps of terms that it turns to, on the machines on which it does. Such a property is one of a
computation on a machine, together with what is known of its result. What follows a computation may use that the computation
came to that result, and in which machine it did.

Where the engine may be is left open, as is what is known of terms and of the causes for which one is stuck. `ComposesAt` says
what these have to allow for.

Proved:
* `ComposesAt.stepFor`: a property that composes holds of every step that the engine comes to.
* `ComposesAt.driveWith`: so it holds of the loop of an execution.
-/

namespace TermMachine

open Term Eval Rules

/-- What is asked of an attempt: of its result, or of the cause that kept it from one. -/
def Eval.Tried {α : Type} (post : α → Prop) (fine : Stuck → Prop) : Except Stuck α → Prop
  | .ok a => post a
  | .error cause => fine cause

/-- A property of a computation on a machine and of its result, which the primitives of the engine have in the states of a run
and which every way to put computations together keeps. Terms that are run are good, and what they are stuck for is fine. -/
structure ComposesAt (At : Term → Machine → Prop) (good : Term → Prop) (fine : Stuck → Prop)
    (P : (α : Type) → (α → Prop) → Eval α → Machine → Prop) : Prop where
  -- where the engine is
  inside : ∀ {taken t u m m'}, At t m → TurnsTo t m taken u m' → At u m'
  -- the terms of a run
  good_part : ∀ {t u}, good t → u ∈ t.parts → good u
  good_seq : ∀ {items}, (∀ u ∈ items, good u) → good (.seq items)
  good_spread : ∀ {items}, (∀ u ∈ items, good u) → good (.spread items)
  good_stepping : ∀ {op params}, Engine.stepsArgument op = true → (∀ p ∈ params, good p) → good (.node op params)
  good_replaced : ∀ {op params index argument value next m m'}, good (.node op params) →
    (index, argument) ∈ Engine.pending op params → At value m → good value →
    Engine.replaceParam op params index value m = .ok next m' → good next
  -- the causes for which a term is stuck
  fine_rule : ∀ op reason, fine (.rule op reason)
  fine_misfit : ∀ op mismatch, fine (.misfit op mismatch)
  fine_element : ∀ {cause}, fine cause → fine (.element cause)
  fine_parameter : ∀ {cause} op, fine cause → fine (.parameter op cause)
  -- computations
  pure : ∀ {α : Type} {post : α → Prop} {a m}, post a → P α post (pure a) m
  stuck : ∀ {α : Type} {post : α → Prop} {cause m}, fine cause → P α post (stuck cause) m
  outOfFuel : ∀ {α : Type} {post : α → Prop} {m}, P α post (throw .outOfFuel) m
  bind : ∀ {α β : Type} {mid : α → Prop} {post : β → Prop} {x : Eval α} {f : α → Eval β} {m}, P α mid x m →
    (∀ a m', x m = .ok a m' → mid a → P β post (f a) m') → P β post (x >>= f) m
  charge : ∀ {m}, P Unit (fun _ => True) charge m
  speculate : ∀ {α : Type} {post : α → Prop} {x : Eval α} {m}, P α post x m →
    P (Except Stuck α) (Tried post fine) (speculate x) m
  recover : ∀ {α : Type} {post : α → Prop} {x : Eval α} {m}, P α post x m →
    P (Except Stuck α) (Tried post fine) (recover x) m
  withGiven : ∀ {α : Type} {post : α → Prop} {x : Eval α} {value : Term} {m : Machine}, good value →
    P α post x { m with entities := m.entities.put Entity.givenValue value } → P α post (withGiven value x) m
  takeYield : ∀ {m}, P Bool (fun _ => True) takeYield m
  advance : ∀ {fuel t post m}, At t m → t.isValue = false → P Term post (Engine.stepFor fuel t) m →
    P Term post (Engine.advanceFor fuel t) m
  rule : ∀ {fuel op params m m₁}, At (.node op params) m → Eval.charge m = .ok () m₁ → Engine.pending op params = [] →
    Engine.stepsArgument op = false → good (.node op params) →
    P Term good (Engine.applyRule (Engine.stepFor fuel) (Engine.advanceFor fuel) fuel op params) m₁

namespace Term

variable {u : Term} {items : List Term}

theorem mem_parts_of_flatten (hu : u ∈ flatten items) : ∃ t ∈ items, u ∈ t.parts := by
  obtain ⟨t, ht, hu⟩ := List.mem_flatMap.mp hu
  exact ⟨t, ht, mem_parts_of_element hu⟩

end Term

/-- The value of a parameter takes its place, or does not fit there. -/
theorem Engine.replaceParam_eq (op : Operator) (params : List Term) (index : Nat) (value : Term) :
    (∃ next, replaceParam op params index value = pure next) ∨
    ∃ mismatch, replaceParam op params index value = stuck (.misfit op mismatch) := by
  cases value with
  | spread items =>
    simp only [replaceParam]
    split
    · cases Construction.bind op (Construction.flattenParams op params index items) with
      | ok params => exact .inl ⟨_, rfl⟩
      | error mismatch => exact .inr ⟨_, rfl⟩
    · exact .inl ⟨_, rfl⟩
  | _ => exact .inl ⟨_, rfl⟩

namespace ComposesAt

variable {At : Term → Machine → Prop} {good : Term → Prop} {fine : Stuck → Prop}
  {P : (α : Type) → (α → Prop) → Eval α → Machine → Prop}

section
variable (At good P)

def OfSteps (step : Term → Eval Term) : Prop :=
  ∀ {t m}, At t m → good t → t.isValue = false → P Term good (step t) m

def OfNodes (stepNode : Operator → List Term → Eval Term) : Prop :=
  ∀ {op params m}, At (.node op params) m → good (.node op params) → P Term good (stepNode op params) m

end

/-! ## Good terms -/

section
variable (hP : ComposesAt At good fine P) {t : Term} {items : List Term}
include hP

theorem good_items (h : good (.seq items)) : ∀ u ∈ items, good u := fun _ hu => hP.good_part h (mem_parts_of_item hu)

theorem good_params {op : Operator} {params : List Term} (h : good (.node op params)) : ∀ p ∈ params, good p :=
  fun _ hp => hP.good_part h (mem_parts_of_param hp)

theorem good_flatten (h : ∀ u ∈ items, good u) : ∀ u ∈ flatten items, good u := by
  intro u hu
  obtain ⟨v, hv, hu⟩ := mem_parts_of_flatten hu
  exact hP.good_part (h v hv) hu

theorem good_ofSequence (h : ∀ u ∈ items, good u) : good (ofSequence items) := by
  match items with
  | [] => exact hP.good_seq h
  | [u] => exact h u (by simp)
  | _ :: _ :: _ => exact hP.good_seq h

theorem good_replace (h : ∀ u ∈ items, good u) (ht : good t) (index : Nat) :
    ∀ u ∈ Sequence.replace items index t, good u := by
  refine hP.good_flatten fun v hv => ?_
  rcases List.mem_or_eq_of_mem_set hv with hv | rfl
  · exact h v hv
  · exact ht

end

/-! ## Sequences -/

mutual
theorem stepWith (hP : ComposesAt At good fine P) {fuel : Nat} (hs : OfNodes At good P (Engine.stepNode fuel)) (t : Term)
    {m : Machine} (hat : At t m) (ht : good t) (hv : t.isValue = false) : P Term good (Engine.stepFor fuel t) m := by
  cases t with
  | seq items =>
    rw [isValue] at hv
    simp only [Engine.stepFor, Engine.stepWith, hv]
    refine hP.bind (stepFirst hP hs items (fun _ _ _ _ hsplit hgives => hP.inside hat (.element (.inl rfl) hsplit hgives))
      (hP.good_items ht) (by simp)) fun items' m₁ _ hitems => ?_
    exact hP.pure (hP.good_seq (hP.good_flatten hitems))
  | spread items =>
    rw [isValue] at hv
    simp only [Engine.stepFor, Engine.stepWith, hv]
    refine hP.bind (stepFirst hP hs items (fun _ _ _ _ hsplit hgives => hP.inside hat (.element (.inr rfl) hsplit hgives))
      (fun u hu => hP.good_part ht (mem_parts_of_element hu)) (by simp)) fun items' m₁ _ hitems => ?_
    exact hP.pure (hP.good_spread (hP.good_flatten hitems))
  | node op params =>
    simp only [Engine.stepFor, Engine.stepWith]
    exact hs hat ht
  | _ => simp [isValue] at hv

/-- The engine comes to each of the terms that is not a value once those before it were given up. -/
theorem stepFirst (hP : ComposesAt At good fine P) {fuel : Nat} (hs : OfNodes At good P (Engine.stepNode fuel))
    (items : List Term) {blocked : Option Stuck} {m : Machine}
    (hat : ∀ before u after m', items.filter isReducible = before ++ u :: after → GivesUp step before m m' → At u m')
    (hitems : ∀ u ∈ items, good u) (hblocked : ∀ cause, blocked = some cause → fine cause) :
    P (List Term) (∀ u ∈ ·, good u) (Engine.stepFirst (Engine.stepNode fuel) blocked items) m := by
  match items with
  | [] =>
    cases blocked with
    | none =>
      simp only [Engine.stepFirst]
      exact hP.pure hitems
    | some cause =>
      simp only [Engine.stepFirst]
      exact hP.stuck (hP.fine_element (hblocked cause rfl))
  | t :: rest =>
    obtain ⟨ht, hrest⟩ := List.forall_mem_cons.mp hitems
    simp only [Engine.stepFirst]
    split
    · rename_i hv
      rw [List.filter_cons_of_neg (by simp [isReducible, hv])] at hat
      refine hP.bind (stepFirst hP hs rest hat hrest hblocked) fun rest' m₁ _ hrest' => ?_
      exact hP.pure (List.forall_mem_cons.mpr ⟨ht, hrest'⟩)
    · rename_i hv
      have hv : t.isValue = false := by simpa using hv
      rw [List.filter_cons_of_pos (by simp [isReducible, hv])] at hat
      have hstep : P Term good (Engine.stepFor fuel t) m := stepWith hP hs t (hat [] t _ m rfl .nil) ht hv
      refine hP.bind (hP.speculate hstep) fun r m₁ hr htried => ?_
      rcases speculate_eq_ok.mp hr with ⟨next, rfl, -⟩ | ⟨cause, m₂, rfl, hstuck, rfl⟩
      · exact hP.pure (List.forall_mem_cons.mpr ⟨htried, hrest⟩)
      · have hcause : ∀ c, some cause = some c → fine c := by
          rintro c ⟨rfl⟩
          exact htried
        -- the term joins those that were given up
        have hgiven : Eval.speculate (step t) m = .ok (.error cause) { m₂ with entities := m.entities } :=
          speculate_eq_ok.mpr (.inr ⟨cause, m₂, rfl, Engine.step_of_stepFor_error hstuck, rfl⟩)
        have hmore := @stepFirst hP _ hs rest (some cause) { m₂ with entities := m.entities }
          (fun before u after m' hsplit hgives => hat (t :: before) u after m' (by rw [hsplit]; rfl) (.cons hgiven hgives))
          hrest hcause
        refine hP.bind hmore ?_
        intro rest' m₃ _ hrest'
        exact hP.pure (List.forall_mem_cons.mpr ⟨ht, hrest'⟩)
end

variable (hP : ComposesAt At good fine P)
include hP

/-- A rule that first reads its parameters goes on in the same machine with what it read. -/
theorem bind_ofRule {α β : Type} {post : β → Prop} {op : Operator} {r : Except Reason α} {f : α → Eval β} {m : Machine}
    (hf : ∀ a, r = .ok a → P β post (f a) m) : P β post (ofRule op r >>= f) m := by
  cases r with
  | ok a => exact hf a rfl
  | error reason => exact hP.stuck (hP.fine_rule op reason)

/-! ## Loops -/

section
variable {fuel : Nat} (hs : OfSteps At good P (Engine.stepFor fuel))
include hs

/-- A term is run by steps of what it has come to, each on the machine that the one before it has left. -/
theorem runWith (rounds : Nat) {t u : Term} {taken : List (Term × Machine)} {m m' : Machine}
    (hat : ∀ {taken u m'}, Takes (fun _ => True) t m taken u m' → At u m') (htakes : Takes (fun _ => True) t m taken u m')
    (hu : good u) : P Term good (Engine.runWith (Engine.advanceFor fuel) rounds u) m' := by
  induction rounds generalizing taken u m' with
  | zero =>
    unfold Engine.runWith
    split
    · exact hP.pure hu
    · exact hP.outOfFuel
  | succ rounds ih =>
    unfold Engine.runWith
    split
    · exact hP.pure hu
    · rename_i hv
      have hv : u.isValue = false := by simpa using hv
      refine hP.bind (hP.advance (hat htakes) hv (hs (hat htakes) hu hv)) fun next m₁ hadvance hnext => ?_
      exact ih (htakes.step hv (Engine.advanceFor_ok hadvance) trivial) hnext

theorem atomicWithin (rounds : Nat) {t body : Term} {taken : List (Term × Machine)} {m m' : Machine}
    (hat : ∀ {taken u m'}, Takes Machine.Silent t m taken u m' → At u m') (htakes : Takes Machine.Silent t m taken body m')
    (hbody : good body) : P Term good (Rules.atomicWithin (Engine.advanceFor fuel) rounds body) m' := by
  induction rounds generalizing taken body m' with
  | zero =>
    unfold Rules.atomicWithin
    split
    · exact hP.pure hbody
    · exact hP.outOfFuel
  | succ rounds ih =>
    unfold Rules.atomicWithin
    split
    · exact hP.pure hbody
    · rename_i hv
      have hv : body.isValue = false := by simpa using hv
      refine hP.bind (hP.advance (hat htakes) hv (hs (hat htakes) hbody hv)) fun next m₁ hadvance hnext => ?_
      refine hP.bind hP.takeYield fun raised m₂ hraised _ => ?_
      cases hraised
      split
      · refine hP.pure ?_
        split
        · exact hnext
        · exact hP.good_stepping rfl (by simpa using hnext)
      · rename_i hraised
        -- no signal was raised, and there is nothing to clear
        have hsilent : m₁.Silent := by simpa [Entities.contains, Machine.Silent] using hraised
        show P Term good _ { m₁ with entities := m₁.entities.remove Entity.yielded }
        rw [Entities.remove_of_find?_eq_none hsilent]
        exact ih (htakes.step hv (Engine.advanceFor_ok hadvance) hsilent) hnext

/-- The loop of an execution, and the cause for which it ends stuck. -/
theorem driveWith (hnext : ∀ {t t' m m'}, At t m → t.isValue = false → step t m = .ok t' m' → At t' m') (rounds : Nat)
    {t : Term} {m : Machine} (hat : At t m) (ht : good t) :
    P Outcome (fun outcome => ∀ u cause, outcome = .stuck u cause → fine cause)
      (Execution.driveWith (Engine.advanceFor fuel) rounds t) m := by
  induction rounds generalizing t m with
  | zero =>
    unfold Execution.driveWith
    split
    · exact hP.pure (by simp)
    · exact hP.outOfFuel
  | succ rounds ih =>
    unfold Execution.driveWith
    split
    · exact hP.pure (by simp)
    · rename_i hv
      have hv : t.isValue = false := by simpa using hv
      refine hP.bind (hP.recover (hP.advance hat hv (hs hat ht hv))) fun r m₁ hr htried => ?_
      rcases recover_eq_ok.mp hr with ⟨next, rfl, hadvance⟩ | ⟨cause, rfl, -⟩
      · exact ih (hnext hat hv (step_eq_ok.mpr ⟨fuel, Engine.advanceWith_ok hadvance⟩)) htried
      · refine hP.pure fun u c h => ?_
        cases h
        exact htried

/-! ## Parameters -/

section
variable {op : Operator} {params : List Term} {m : Machine}

omit hs in
theorem replaceParam {index : Nat} {argument value : Term} (hnode : good (.node op params))
    (hpending : (index, argument) ∈ Engine.pending op params) (hat : At value m) (hvalue : good value) :
    P Term good (Engine.replaceParam op params index value) m := by
  rcases Engine.replaceParam_eq op params index value with ⟨next, heq⟩ | ⟨mismatch, heq⟩
  · have hnext : Engine.replaceParam op params index value m = .ok next m := by
      rw [heq]
      rfl
    rw [heq]
    exact hP.pure (hP.good_replaced hnode hpending hat hvalue hnext)
  · rw [heq]
    exact hP.stuck (hP.fine_misfit op mismatch)

/-- The engine comes to each of the parameters once those before it were given up. -/
theorem reducePending {blocked : Option Stuck} {rest : List (Nat × Term)} (hnode : good (.node op params))
    (hat : ∀ before index u after m₁ taken v m', rest = before ++ (index, u) :: after →
      GivesUp (fun p => run p.2 >>= Engine.replaceParam op params p.1) before m m₁ →
      Takes (fun _ => True) u m₁ taken v m' → At v m')
    (hrest : ∀ p ∈ rest, p ∈ Engine.pending op params) (hblocked : ∀ cause, blocked = some cause → fine cause) :
    P (Option Term) (fun r => ∀ next, r = some next → good next)
      (Engine.reducePending (Engine.runFor fuel) op params blocked rest) m := by
  induction rest generalizing blocked m with
  | nil =>
    cases blocked with
    | none => exact hP.pure (by simp)
    | some cause => exact hP.stuck (hP.fine_parameter op (hblocked cause rfl))
  | cons p rest ih =>
    obtain ⟨index, t⟩ := p
    have hpending := hrest (index, t) (by simp)
    obtain ⟨_, -, -, hparam, -⟩ := Engine.mem_pending.mp hpending
    have ht : good t := hP.good_params hnode t (List.mem_of_getElem? hparam)
    have hfirst : ∀ {taken u m'}, Takes (fun _ => True) t m taken u m' → At u m' :=
      fun htakes => hat [] index t rest m _ _ _ rfl .nil htakes
    have hattempt : P Term good (Engine.runFor fuel t >>= Engine.replaceParam op params index) m := by
      refine hP.bind (hP.runWith hs fuel hfirst .none ht) fun value m₁ hrun hvalue => ?_
      obtain ⟨taken, htakes⟩ := Takes.none.runWith hrun
      exact hP.replaceParam hnode hpending (hfirst htakes) hvalue
    simp only [Engine.reducePending]
    refine hP.bind (hP.speculate hattempt) fun r m₁ hr htried => ?_
    rcases speculate_eq_ok.mp hr with ⟨next, rfl, -⟩ | ⟨cause, m₂, rfl, hstuck, rfl⟩
    · refine hP.pure ?_
      rintro _ ⟨rfl⟩
      exact htried
    · -- the parameter joins those that were given up
      have hgiven : Eval.speculate (run t >>= Engine.replaceParam op params index) m =
          .ok (.error cause) { m₂ with entities := m.entities } :=
        speculate_eq_ok.mpr (.inr ⟨cause, m₂, rfl, Engine.run_bind_of_runFor_stuck hstuck, rfl⟩)
      refine @ih { m₂ with entities := m.entities } (some cause) ?_ (fun p hp => hrest p (List.mem_cons_of_mem _ hp)) ?_
      · intro before index' u after m₃ taken v m' hsplit hgives htakes
        exact hat ((index, t) :: before) index' u after m₃ taken v m' (by rw [hsplit]; rfl) (.cons hgiven hgives) htakes
      · rintro c ⟨rfl⟩
        exact htried

/-! ## Rules -/

theorem stepOne {choose : List Term → Option Nat} (hchoose : Engine.ChoosesReducible choose)
    (hop : Engine.stepsArgument op = true) (hnode : good (.node op params))
    (hitem : ∀ {items index}, params[0]? = some (.seq items) → choose items = some index → At (Sequence.get items index) m) :
    P Term good (Rules.stepOne (Engine.stepFor fuel) op choose params) m := by
  refine hP.bind_ofRule fun items hitems => ?_
  have hrow := List.mem_of_getElem? (sequenceArg_eq_ok.mp hitems)
  have hgood := hP.good_items (hP.good_params hnode _ hrow)
  split
  · exact hP.pure (hP.good_ofSequence hgood)
  · next index hindex =>
    have hat := hitem (sequenceArg_eq_ok.mp hitems) hindex
    obtain ⟨u, hu, hreducible⟩ := hchoose items index hindex
    rw [Sequence.get_of_getElem? hu] at hat ⊢
    refine hP.bind (hs hat (hgood u (List.mem_of_getElem? hu)) hreducible) fun next m₁ _ hnext => hP.pure ?_
    refine hP.good_stepping hop fun v hv => ?_
    rw [List.mem_singleton.mp hv]
    exact hP.good_seq (hP.good_replace hgood hnext index)

theorem sequential (hat : ∀ {u s}, Defers params m.entities (.flow .sequential) u s → At u { m with entities := s })
    (hnode : good (.node (.flow .sequential) params)) :
    P Term good (Rules.sequential (Engine.stepFor fuel) params) m := by
  refine hP.bind_ofRule fun statements hst => hP.bind_ofRule fun last hl => ?_
  have hrow := List.mem_of_getElem? (sequenceArg_eq_ok.mp hst)
  have hgood := hP.good_items (hP.good_params hnode _ hrow)
  have hlast := hP.good_params hnode last (List.mem_of_getElem? (arg_eq_ok.mp hl))
  have hrest : ∀ items : List Term, (∀ u ∈ items, good u) → good (.node (.flow .sequential) [.seq items, last]) := by
    intro items hitems
    exact hP.good_stepping rfl (by simpa using ⟨hP.good_seq hitems, hlast⟩)
  cases statements with
  | nil => exact hP.pure hlast
  | cons first rest =>
    simp only
    split
    · next hreducible =>
      have hv : first.isValue = false := by simpa [isReducible] using hreducible
      have hfirst := hat (.sequential (sequenceArg_eq_ok.mp hst) hv)
      refine hP.bind (hs hfirst (hgood first (by simp)) hv) fun next m₁ _ hnext => hP.pure ?_
      exact hrest _ (hP.good_replace hgood hnext 0)
    · split
      · refine hP.pure ?_
        split
        · exact hlast
        · exact hrest rest fun u hu => hgood u (List.mem_cons_of_mem _ hu)
      · exact hP.stuck (hP.fine_rule _ _)

theorem give (hat : ∀ {u s}, Defers params m.entities (.effect .give) u s → At u { m with entities := s })
    (hnode : good (.node (.effect .give) params)) : P Term good (Rules.give (Engine.stepFor fuel) params) m := by
  refine hP.bind_ofRule fun value hv => hP.bind_ofRule fun body hb => ?_
  have hvalue := hP.good_params hnode value (List.mem_of_getElem? (arg_eq_ok.mp hv))
  have hbody := hP.good_params hnode body (List.mem_of_getElem? (arg_eq_ok.mp hb))
  split
  · exact hP.pure hbody
  · next hreducible =>
    have hreducible : body.isValue = false := by simpa using hreducible
    -- the value is given while the body takes its step
    have hgiven := hat (.give (arg_eq_ok.mp hv) (arg_eq_ok.mp hb) hreducible)
    refine hP.bind (hP.withGiven hvalue (hs hgiven hbody hreducible)) fun next m₁ _ hnext => hP.pure ?_
    exact hP.good_stepping rfl (by simpa using ⟨hvalue, hnext⟩)

theorem applyRule {m₁ : Machine} (hat : At (.node op params) m) (hcharge : Eval.charge m = .ok () m₁)
    (hpending : Engine.pending op params = []) (hnode : good (.node op params)) :
    P Term good (Engine.applyRule (Engine.stepFor fuel) (Engine.advanceFor fuel) fuel op params) m₁ := by
  have hargument : ∀ {u s}, Defers params m₁.entities op u s → At u { m₁ with entities := s } :=
    fun hdefers => hP.inside hat (.argument hcharge hpending hdefers)
  by_cases hstep : Engine.stepsArgument op = true
  · have hop := hstep
    unfold Engine.stepsArgument at hstep
    split at hstep
    · exact hP.stepOne hs Engine.firstReducible?_chooses hop hnode fun hitems hi => hargument (.leftToRight hitems hi)
    · exact hP.stepOne hs Engine.lastReducible?_chooses hop hnode fun hitems hi => hargument (.rightToLeft hitems hi)
    · exact hP.sequential hs hargument hnode
    · exact hP.give hs hargument hnode
    · refine hP.bind_ofRule fun body hbody => ?_
      have hparam := arg_eq_ok.mp hbody
      refine hP.atomicWithin hs fuel (fun htakes => hP.inside hat (.body hcharge hparam htakes)) .none ?_
      exact hP.good_params hnode body (List.mem_of_getElem? hparam)
    · cases hstep
  · exact hP.rule hat hcharge hpending (by simpa using hstep) hnode

end

end

/-! ## Steps -/

theorem stepFor (fuel : Nat) : OfSteps At good P (Engine.stepFor fuel) := by
  induction fuel with
  | zero =>
    intro t m hat ht hv
    exact hP.stepWith (fun _ _ => hP.outOfFuel) t hat ht hv
  | succ fuel ih =>
    intro t m hat ht hv
    refine hP.stepWith ?_ t hat ht hv
    intro op params m hat hnode
    refine hP.bind hP.charge fun _ m₁ hcharge _ => ?_
    have hreduce := hP.reducePending ih hnode
      (fun _ _ _ _ _ _ _ _ hsplit hgives htakes => hP.inside hat (.parameter hcharge hsplit hgives htakes))
      (fun _ hp => hp) (by simp : ∀ cause, (none : Option Stuck) = some cause → fine cause)
    refine hP.bind hreduce fun r m₂ hr hnext => ?_
    cases r with
    | some next => exact hP.pure (hnext next rfl)
    | none =>
      obtain ⟨hpending, rfl⟩ := Engine.reducePending_none hr
      exact hP.applyRule ih hat hcharge hpending hnode

end ComposesAt

end TermMachine
