import TermMachine.Proofs.PrintedValues
import TermMachine.Proofs.Stateless

/-!
# The order of evaluation does not matter

A row of pure terms can be evaluated from the left, from the right, or as a sequence, which passes over an element that is
stuck. These go different ways. They stop at different elements, and an element that turns into a sequence puts its own
elements among the others, for the strategy to go on with.

What each element comes to is settled all the same: a step of another element does not touch it. So a row comes to the
values of its elements in a row, if all have values, and is stuck otherwise. A strategy has only to work on some element that
is not a value, as long as there is one, and to stop only at one that is stuck. Each move of it makes the row lower, and
leaves what the row comes to as it was: an element that has moved comes to the same as before, and a sequence to what its
elements come to, which is what is to be shown, for a lower row.

Proved:
* `Yields.unique`, `Term.Tame.yields`: every pure term comes to one thing.
* `strategy_sequence`, `InOrder.strategy`: sequences, `left-to-right` and `right-to-left` are strategies.
* `Strategy.yields`: a strategy comes to what the elements come to.
* `pure_terms_ignore_state_and_order`: a pure term runs to the same on all machines and changes nothing, and rows of pure
  terms come to the same in any of the three orders.
-/

namespace TermMachine

open Term Eval Engine Rules

/-! ## What a term comes to -/

/-- What `t` comes to on any machine without a step limit: a value with these elements, or nothing if it is stuck. -/
def Yields (t : Term) : Option (List Term) → Prop
  | some vs => ∃ v, Runs t v ∧ v.elements = vs
  | none => Sticks t

variable {t t' : Term} {r r' : Option (List Term)}

theorem yields_of_isValue (hv : t.isValue = true) : Yields t (some t.elements) := ⟨t, .value hv, rfl⟩

/-- One machine tells what a term comes to. -/
theorem Yields.eq_of_blank (h : Yields t r) :
    r = match run t .blank with | .ok v _ => some v.elements | .error _ _ => none := by
  cases r with
  | some vs =>
    obtain ⟨v, hruns, rfl⟩ := h
    obtain ⟨m, hrun, -⟩ := run_of_runs hruns (m := .blank) rfl
    rw [hrun]
  | none =>
    obtain ⟨cause, m, hrun, -⟩ := run_of_sticks h (m := .blank) rfl
    rw [hrun]

theorem Yields.unique (h : Yields t r) (h' : Yields t r') : r = r' := h.eq_of_blank.trans h'.eq_of_blank.symm

theorem Term.Tame.yields (ht : t.Tame) : ∃ r, Yields t r := by
  rcases ht.runs_or_sticks with ⟨v, hruns⟩ | hsticks
  · exact ⟨some v.elements, v, hruns, rfl⟩
  · exact ⟨none, hsticks⟩

theorem Sticks.step (hv : t.isValue = false) (hne : t' ≠ t) (hmove : Moves t t') (h : Sticks t') : Sticks t := by
  intro m hm
  obtain ⟨n, m₁, hstep, hquiet⟩ := hmove m hm
  obtain ⟨k, cause, m₂, hrun, hquiet'⟩ := h m₁ (by rw [hquiet.config, hm])
  have hfirst := runFor_of_advance (k := k) hv (advanceWith_of_ne hstep hne) (by rw [hrun]; trivial)
  exact ⟨max n k + 1, cause, m₂, hfirst.trans hrun, hquiet.trans hquiet'⟩

/-- A term comes to what it moves to comes to. -/
theorem Yields.of_moves (ht : t.Tame) (hv : t.isValue = false) (hmove : Moves t t') (h : Yields t' r) : Yields t r := by
  have hne : t' ≠ t := (ht.of_moves hv hmove).2.ne
  cases r with
  | some vs =>
    obtain ⟨v, hruns, hvs⟩ := h
    exact ⟨v, .step hv hne hmove hruns, hvs⟩
  | none => exact Sticks.step hv hne hmove h

theorem Jams.sticks (hv : t.isValue = false) (h : Jams t) : Sticks t := by
  intro m hm
  obtain ⟨n, cause, m', hstep, hquiet⟩ := h m hm
  refine ⟨n + 1, cause, m', ?_, hquiet⟩
  have hadvance : advanceFor (n + 1) t m = .error (.stuck cause) m' := by
    rw [advanceFor, advanceWith, bind_of_ok (get_apply m), bind_of_error (stepFor_of_le (Nat.le_succ n) hstep trivial)]
  rw [runFor, runWith, if_neg (by simp [hv])]
  exact bind_of_error hadvance

/-! ## What a row comes to -/

def join (r r' : Option (List Term)) : Option (List Term) := r.bind fun vs => r'.map (vs ++ ·)

theorem join_assoc (r₁ r₂ r₃ : Option (List Term)) : join (join r₁ r₂) r₃ = join r₁ (join r₂ r₃) := by
  cases r₁ <;> cases r₂ <;> cases r₃ <;> simp [join]

@[simp] theorem nil_join (r : Option (List Term)) : join (some []) r = r := by
  cases r <;> simp [join]

@[simp] theorem join_nil (r : Option (List Term)) : join r (some []) = r := by
  cases r <;> simp [join]

@[simp] theorem none_join (r : Option (List Term)) : join none r = none := rfl

@[simp] theorem join_none (r : Option (List Term)) : join r none = none := by
  cases r <;> simp [join]

/-- What the terms of a row come to, one after the other. -/
inductive YieldsAll : List Term → Option (List Term) → Prop
  | nil : YieldsAll [] (some [])
  | cons {t : Term} {rest : List Term} {r r' : Option (List Term)} : Yields t r → YieldsAll rest r' →
      YieldsAll (t :: rest) (join r r')

def TameRow (items : List Term) : Prop := ∀ t ∈ items, t.Tame ∧ t.isSequence = false

/-- When an element has moved, its elements stand in its place. -/
theorem TameRow.flatten_replaced {before after : List Term} {u u' : Term} (hrow : TameRow (before ++ u :: after)) :
    flatten (before ++ u' :: after) = before ++ (u'.elements ++ after) := by
  have hbefore : flatten before = before := flatten_of_no_sequence fun t ht => (hrow t (by simp [ht])).2
  have hafter : flatten after = after := flatten_of_no_sequence fun t ht => (hrow t (by simp [ht])).2
  rw [flatten_append, flatten_cons, hbefore, hafter]

theorem TameRow.elements_ofSequence {items : List Term} (hrow : TameRow items) : (ofSequence items).elements = items := by
  unfold ofSequence
  split
  · exact elements_of_not_isSequence (hrow _ (by simp)).2
  · rfl

theorem Term.Tame.row (ht : t.Tame) : TameRow t.elements := by
  intro u hu
  refine ⟨?_, ht.flat.elements u hu⟩
  cases t with
  | seq items => exact ht.item hu
  | spread items => exact ht.spreadItem hu
  | _ =>
    rw [elements_of_not_isSequence rfl, List.mem_singleton] at hu
    rw [hu]
    exact ht

theorem tameRow_flatten {es : List Term} (hes : ∀ e ∈ es, e.Tame) : TameRow (flatten es) := by
  intro t ht
  obtain ⟨e, he, ht⟩ := List.mem_flatMap.mp ht
  exact (hes e he).row t ht

theorem isValue_ofSequence (items : List Term) : (ofSequence items).isValue = allValues items := by
  unfold ofSequence
  split <;> simp [isValue, allValues]

namespace YieldsAll

variable {items as bs : List Term}

theorem append (ha : YieldsAll as r) (hb : YieldsAll bs r') : YieldsAll (as ++ bs) (join r r') := by
  induction ha with
  | nil => simpa using hb
  | cons ht _ ih =>
    rw [join_assoc]
    exact .cons ht ih

theorem of_append (h : YieldsAll (as ++ bs) r) : ∃ r₁ r₂, YieldsAll as r₁ ∧ YieldsAll bs r₂ ∧ r = join r₁ r₂ := by
  induction as generalizing r with
  | nil => exact ⟨some [], r, .nil, h, by simp⟩
  | cons t as ih =>
    cases h with
    | cons ht hrest =>
      obtain ⟨r₁, r₂, ha, hb, rfl⟩ := ih hrest
      exact ⟨_, r₂, .cons ht ha, hb, by rw [join_assoc]⟩

theorem unique (h : YieldsAll items r) (h' : YieldsAll items r') : r = r' := by
  induction h generalizing r' with
  | nil =>
    cases h'
    rfl
  | cons ht _ ih =>
    cases h' with
    | cons ht' hrest' => rw [ht.unique ht', ih hrest']

theorem single : YieldsAll [t] r ↔ Yields t r := by
  constructor
  · intro h
    cases h with
    | cons ht hrest =>
      cases hrest
      simpa using ht
  · intro h
    have hsingle : YieldsAll [t] (join r (some [])) := .cons h .nil
    simpa using hsingle

theorem of_values (hrow : TameRow items) (hv : allValues items = true) : YieldsAll items (some items) := by
  induction items with
  | nil => exact .nil
  | cons t rest ih =>
    rw [allValues, Bool.and_eq_true] at hv
    have hself : t.elements = [t] := elements_of_not_isSequence (hrow t (by simp)).2
    have ht : Yields t (some [t]) := hself ▸ yields_of_isValue hv.1
    exact .cons ht (ih (fun u hu => hrow u (by simp [hu])) hv.2)

theorem exists_of_row (hrow : TameRow items) : ∃ r, YieldsAll items r := by
  induction items with
  | nil => exact ⟨_, .nil⟩
  | cons t rest ih =>
    obtain ⟨r, ht⟩ := (hrow t (by simp)).1.yields
    obtain ⟨r', hrest⟩ := ih fun u hu => hrow u (by simp [hu])
    exact ⟨_, .cons ht hrest⟩

end YieldsAll

/-- A term over tame terms is tame, if there is nothing against the term itself. -/
theorem Term.Tame.of_parts {terms : List Term} (hparts : ∀ u, u ∈ t.parts ↔ u = t ∨ ∃ p ∈ terms, u ∈ p.parts)
    (hterms : ∀ p ∈ terms, p.Tame) (hpure : ∀ op params, .node op params = t → op.isImpure = false)
    (hflat : t.HoldsNoSequence) (hclosed : allClosed terms = true → t.closed = true) : t.Tame where
  pure op params hmem := by
    rcases (hparts _).mp hmem with hself | ⟨p, hp, hmem⟩
    · exact hpure op params hself
    · exact (hterms p hp).pure op params hmem
  flat u hu := by
    rcases (hparts u).mp hu with rfl | ⟨p, hp, hu⟩
    · exact hflat
    · exact (hterms p hp).flat u hu
  closed := hclosed (allClosed_iff.mpr fun p hp => (hterms p hp).closed)

/-! ## Strategies -/

/-- A way to evaluate a row: when all are values it is done, and until then it works on one that is not, or is stuck because
one is. -/
structure Strategy (wrap : List Term → Term) : Prop where
  done : ∀ {items}, TameRow items → allValues items = true → Yields (wrap items) (some items)
  busy : ∀ {items}, TameRow items → allValues items = false → ∃ before u after, items = before ++ u :: after ∧
    u.isValue = false ∧
    ((∃ u', Moves u u' ∧ ∀ r, Yields (wrap (before ++ (u'.elements ++ after))) r → Yields (wrap items) r) ∨
      Jams u ∧ Yields (wrap items) none)

/-! ### Sequences -/

section
variable {wrap : List Term → Term} (hwrap : wrap = Term.seq ∨ wrap = Term.spread) {items before after : List Term}
include hwrap

theorem elements_wrap (items : List Term) : (wrap items).elements = items := by
  rcases hwrap with rfl | rfl <;> rfl

theorem isValue_wrap (items : List Term) : (wrap items).isValue = allValues items := by
  rcases hwrap with rfl | rfl <;> rw [isValue]

theorem stepFor_wrap {fuel : Nat} (hv : allValues items = false) : stepFor fuel (wrap items) =
    stepFirst (stepNode fuel) none items >>= fun more => pure (wrap (flatten more)) := by
  rcases hwrap with rfl | rfl <;> simp [stepFor, stepWith, hv]

theorem tame_wrap (hrow : TameRow items) : (wrap items).Tame := by
  have hitems : ∀ t ∈ items, t.Tame := fun t ht => (hrow t ht).1
  have hflat : ∀ t ∈ items, t.isSequence = false := fun t ht => (hrow t ht).2
  rcases hwrap with rfl | rfl
  · exact .of_parts (fun _ => mem_parts_seq) hitems (fun _ _ h => by cases h) hflat id
  · exact .of_parts (fun _ => mem_parts_spread) hitems (fun _ _ h => by cases h) hflat id

end

/-- An element that a sequence passes over. -/
def Passed (t : Term) : Prop := t.isValue = true ∨ Jams t

/-- A sequence that passes over elements goes on with what comes after them, on the machine as it was. -/
theorem stepFirst_passed {before : List Term} (hbefore : ∀ t ∈ before, Passed t) (blocked : Option Stuck) {m : Machine}
    (hm : m.config.stepLimit = none) : ∃ fuel blocked' m₁, Quiet m m₁ ∧
      (blocked' = none → blocked = none ∧ allValues before = true) ∧ ∀ k, fuel ≤ k → ∀ rest,
        stepFirst (stepNode k) blocked (before ++ rest) m =
          (stepFirst (stepNode k) blocked' rest >>= fun more => pure (before ++ more)) m₁ := by
  induction before generalizing blocked m with
  | nil =>
    refine ⟨0, blocked, m, .refl m, fun h => ⟨h, rfl⟩, fun k _ rest => ?_⟩
    simp
  | cons t before ih =>
    have hrest : ∀ u ∈ before, Passed u := fun u hu => hbefore u (by simp [hu])
    rcases hv : t.isValue with _ | _
    · -- the failed attempt has counted its steps, and that is all
      have hjams : Jams t := (hbefore t (by simp)).resolve_left (by simp [hv])
      obtain ⟨n, cause, m', hstep, hquiet⟩ := hjams m hm
      obtain ⟨fuel, blocked', m₁, hquiet₁, hblocked, hpass⟩ :=
        ih hrest (some cause) (m := { m' with entities := m.entities }) (by rw [hquiet.config, hm])
      have hrestored : Quiet m { m' with entities := m.entities } := ⟨hquiet.config, rfl, hquiet.choices⟩
      refine ⟨max n fuel, blocked', m₁, hrestored.trans hquiet₁, ?_, fun k hk rest => ?_⟩
      · intro hnone
        cases (hblocked hnone).1
      · have hstep : stepFor k t m = .error (.stuck cause) m' := stepFor_of_le (by omega) hstep trivial
        have hspeculate : speculate (stepWith (stepNode k) t) m = .ok (.error cause) { m' with entities := m.entities } :=
          speculate_eq_ok.mpr (.inr ⟨cause, m', rfl, hstep, rfl⟩)
        rw [List.cons_append, stepFirst, if_neg (by simp [hv]), bind_of_ok hspeculate]
        simpa using bind_of_eq (hpass k (by omega) rest) fun more => pure (t :: more)
    · obtain ⟨fuel, blocked', m₁, hquiet, hblocked, hpass⟩ := ih hrest blocked hm
      refine ⟨fuel, blocked', m₁, hquiet, fun hnone => ?_, fun k hk rest => ?_⟩
      · obtain ⟨hb, hall⟩ := hblocked hnone
        exact ⟨hb, by simp [allValues, hv, hall]⟩
      · rw [List.cons_append, stepFirst, if_pos hv]
        simpa using bind_of_eq (hpass k hk rest) fun more => pure (t :: more)

/-- All elements are passed over, or one moves after some that are. -/
theorem passed_or_moves {items : List Term} (hrow : TameRow items) : (∀ t ∈ items, Passed t) ∨
    ∃ before u u' after, items = before ++ u :: after ∧ (∀ t ∈ before, Passed t) ∧ u.isValue = false ∧ Moves u u' := by
  induction items with
  | nil => exact .inl (by simp)
  | cons t rest ih =>
    have hfirst : Passed t ∨ t.isValue = false ∧ ∃ t', Moves t t' := by
      rcases hv : t.isValue with _ | _
      · rcases (hrow t (by simp)).1.moves_or_jams with hmoves | hjams
        · exact .inr ⟨rfl, hmoves⟩
        · exact .inl (.inr hjams)
      · exact .inl (.inl hv)
    rcases hfirst with ht | ⟨hv, t', hmoves⟩
    · rcases ih fun u hu => hrow u (by simp [hu]) with hall | ⟨before, u, u', after, rfl, hbefore, hu, hmoves⟩
      · exact .inl (List.forall_mem_cons.mpr ⟨ht, hall⟩)
      · exact .inr ⟨t :: before, u, u', after, rfl, List.forall_mem_cons.mpr ⟨ht, hbefore⟩, hu, hmoves⟩
    · exact .inr ⟨[], t, t', rest, rfl, by simp, hv, hmoves⟩

section
variable {wrap : List Term → Term} (hwrap : wrap = Term.seq ∨ wrap = Term.spread)
include hwrap

/-- A sequence moves with its first element that does. -/
theorem moves_wrap {before after : List Term} {u u' : Term} (hbefore : ∀ t ∈ before, Passed t) (hu : u.isValue = false)
    (hmoves : Moves u u') : Moves (wrap (before ++ u :: after)) (wrap (flatten (before ++ u' :: after))) := by
  intro m hm
  obtain ⟨fuel, blocked, m₁, hquiet, -, hpass⟩ := stepFirst_passed hbefore none hm
  obtain ⟨n, m', hstep, hquiet'⟩ := hmoves m₁ (by rw [hquiet.config, hm])
  have hopen : allValues (before ++ u :: after) = false := by simp [allValues_eq_all, hu]
  have hfirst : stepFirst (stepNode (max fuel n)) blocked (u :: after) m₁ = .ok (u' :: after) m' := by
    have hstep : stepFor (max fuel n) u m₁ = .ok u' m' := stepFor_of_le (by omega) hstep trivial
    have hspeculate : speculate (stepWith (stepNode (max fuel n)) u) m₁ = .ok (.ok u') m' :=
      speculate_eq_ok.mpr (.inl ⟨u', rfl, hstep⟩)
    rw [stepFirst, if_neg (by simp [hu]), bind_of_ok hspeculate]
    rfl
  refine ⟨max fuel n, m', ?_, hquiet.trans hquiet'⟩
  rw [stepFor_wrap hwrap hopen, bind_of_eq (hpass _ (by omega) _), bind_assoc, bind_of_ok hfirst]
  rfl

/-- A sequence is stuck if all of its elements are that are no values. -/
theorem jams_wrap {items : List Term} (hitems : ∀ t ∈ items, Passed t) (hv : allValues items = false) :
    Jams (wrap items) := by
  intro m hm
  obtain ⟨fuel, blocked, m₁, hquiet, hblocked, hpass⟩ := stepFirst_passed hitems none hm
  have hpass := hpass fuel (Nat.le_refl _) []
  rw [List.append_nil] at hpass
  cases blocked with
  | none =>
    rw [(hblocked rfl).2] at hv
    cases hv
  | some cause =>
    refine ⟨fuel, .element cause, m₁, ?_, hquiet⟩
    rw [stepFor_wrap hwrap hv, bind_of_eq hpass]
    rfl

theorem strategy_sequence : Strategy wrap where
  done {items} _ hv := by
    have hyields := yields_of_isValue ((isValue_wrap hwrap items).trans hv)
    rwa [elements_wrap hwrap] at hyields
  busy {items} hrow hv := by
    have hvalue : (wrap items).isValue = false := (isValue_wrap hwrap items).trans hv
    rcases passed_or_moves hrow with hall | ⟨before, u, u', after, rfl, hbefore, hu, hmoves⟩
    · obtain ⟨u, hmem, hu⟩ : ∃ u ∈ items, u.isValue = false := by
        rw [allValues_eq_all, List.all_eq_false] at hv
        simpa using hv
      obtain ⟨before, after, hitems⟩ := List.append_of_mem hmem
      have hjams : Jams u := (hall u hmem).resolve_left (by simp [hu])
      exact ⟨before, u, after, hitems, hu, .inr ⟨hjams, (jams_wrap hwrap hall hv).sticks hvalue⟩⟩
    · refine ⟨before, u, after, rfl, hu, .inl ⟨u', hmoves, fun r hr => ?_⟩⟩
      refine .of_moves (tame_wrap hwrap hrow) hvalue (moves_wrap hwrap hbefore hu hmoves) ?_
      rwa [hrow.flatten_replaced]

end

/-! ### What a strategy comes to -/

def LowerRow (items' items : List Term) : Prop :=
  nodesIn items' < nodesIn items ∨ nodesIn items' = nodesIn items ∧ sizeOfAll items' < sizeOfAll items

theorem lowerRow_induction {P : List Term → Prop}
    (h : ∀ items, (∀ items', LowerRow items' items → P items') → P items) (items : List Term) : P items := by
  have hwf := InvImage.wf (fun items => (nodesIn items, sizeOfAll items)) (Prod.lex Nat.lt_wfRel Nat.lt_wfRel).wf
  refine hwf.induction (C := P) items fun items ih => h items fun items' hlower => ih items' ?_
  exact Prod.lex_def.mpr hlower

/-- When an element has come down, its elements are a lower row, alone and in its place. -/
theorem lowerRow_of_lower (before after : List Term) {u u' : Term}
    (h : u'.Below u) :
    LowerRow u'.elements (before ++ u :: after) ∧
      LowerRow (before ++ (u'.elements ++ after)) (before ++ u :: after) := by
  have hsize := sizeOfAll_elements u'
  rw [Term.Below] at h
  constructor <;> simp only [LowerRow, nodesIn_append, sizeOfAll_append, nodesIn, sizeOfAll, nodesIn_elements] <;> omega

theorem TameRow.replace {before after : List Term} {u u' : Term} (hrow : TameRow (before ++ u :: after)) (hu' : u'.Tame) :
    TameRow (before ++ (u'.elements ++ after)) := by
  intro t ht
  simp only [List.mem_append] at ht
  rcases ht with ht | ht | ht
  · exact hrow t (by simp [ht])
  · exact hu'.row t ht
  · exact hrow t (by simp [ht])

/-- A term comes to what its elements come to, if sequences of them do. -/
theorem yields_of_elements (ht : ∀ wrap, Strategy wrap → Yields (wrap t.elements) r) (h : YieldsAll t.elements r) :
    Yields t r := by
  cases t with
  | seq items => exact ht _ (strategy_sequence (.inl rfl))
  | spread items => exact ht _ (strategy_sequence (.inr rfl))
  | _ => exact YieldsAll.single.mp h

/-- A strategy comes to what the elements of the row come to. -/
theorem Strategy.yields {wrap : List Term → Term} (hwrap : Strategy wrap) {items : List Term} (hrow : TameRow items)
    (hr : YieldsAll items r) : Yields (wrap items) r := by
  -- the other strategies come in with an element that turns into a sequence
  induction items using lowerRow_induction generalizing wrap r with
  | h items ih =>
    rcases hv : allValues items with _ | _
    · obtain ⟨before, u, after, rfl, hu, hbusy⟩ := hwrap.busy hrow hv
      have htame : u.Tame := (hrow u (by simp)).1
      obtain ⟨r₁, _, hbefore, hrest, rfl⟩ := hr.of_append
      cases hrest with
      | @cons _ _ r₂ r₃ hyields hafter =>
        rcases hbusy with ⟨u', hmoves, hback⟩ | ⟨hjams, hstuck⟩
        · obtain ⟨htame', hlower⟩ := htame.of_moves hu hmoves
          obtain ⟨hlow, hlow'⟩ := lowerRow_of_lower before after hlower
          -- the element comes to what its own elements come to, since they are a lower row
          obtain ⟨r', helements⟩ := YieldsAll.exists_of_row htame'.row
          have hyields' : Yields u' r' :=
            yields_of_elements (fun _ hsequence => ih _ hlow hsequence htame'.row helements) helements
          have hsame : r' = r₂ := (Yields.of_moves htame hu hmoves hyields').unique hyields
          subst hsame
          exact hback _ (ih _ hlow' hwrap (hrow.replace htame') (hbefore.append (helements.append hafter)))
        · have hnone : r₂ = none := hyields.unique (hjams.sticks hu)
          subst hnone
          simpa using hstuck
    · rw [hr.unique (.of_values hrow hv)]
      exact hwrap.done hrow hv

/-! ### In order -/

theorem stepOne_seq (step : Term → Eval Term) (op : Operator) (choose : List Term → Option Nat) (items : List Term) :
    stepOne step op choose [.seq items] = (choose items).elim (pure (ofSequence items)) fun index => do
      return .node op [.seq (Sequence.replace items index (← step (Sequence.get items index)))] := by
  have hitems : (ofRule op (sequenceArg [.seq items] 0) : Eval (List Term)) = pure items := rfl
  rw [stepOne, hitems, pure_bind]
  cases choose items <;> rfl

/-- An operator that takes a step of the argument it chooses, and chooses one as long as one is left to evaluate. -/
structure InOrder (op : Operator) (choose : List Term → Option Nat) : Prop where
  params : op.params = [.lazySeq]
  isPure : op.isImpure = false
  rule : ∀ step advance rounds params, applyRule step advance rounds op params = stepOne step op choose params
  chooses : ChoosesReducible choose
  exhausts : ∀ items, choose items = none → allValues items = true

theorem inOrder_leftToRight : InOrder (.flow .leftToRight) firstReducible? where
  params := rfl
  isPure := rfl
  rule _ _ _ _ := rfl
  chooses := firstReducible?_chooses
  exhausts items h := by
    rw [allValues_eq_all, List.all_eq_true]
    simpa [firstReducible?, isReducible] using h

theorem inOrder_rightToLeft : InOrder (.flow .rightToLeft) lastReducible? where
  params := rfl
  isPure := rfl
  rule _ _ _ _ := rfl
  chooses := lastReducible?_chooses
  exhausts items h := by
    rw [allValues_eq_all, List.all_eq_true]
    simpa [lastReducible?, isReducible] using h

namespace InOrder

variable {op : Operator} {choose : List Term → Option Nat} (h : InOrder op choose) {items : List Term}
include h

theorem tame (hrow : TameRow items) : (Term.node op [.seq items]).Tame := by
  have hparams : ∀ p ∈ [Term.seq items], p.Tame := by
    simpa using tame_wrap (.inl rfl) hrow
  refine .of_parts (fun _ => mem_parts_node) hparams (fun op' params hnode => ?_) trivial id
  cases hnode
  exact h.isPure

theorem stepFor_eq (fuel : Nat) {m : Machine} (hm : m.config.stepLimit = none) :
    stepFor (fuel + 1) (.node op [.seq items]) m =
      stepOne (stepFor fuel) op choose [.seq items] { m with steps := m.steps + 1 } := by
  have hpending : pending op [.seq items] = [] := by simp [pending, h.params, Param.isEager]
  rw [← h.rule]
  exact stepNode_of_pending_nil hpending hm

/-- When all are values, they are given back. -/
theorem moves_values (hv : allValues items = true) : Moves (.node op [.seq items]) (ofSequence items) := by
  intro m hm
  have hchoose : choose items = none := by
    rcases hc : choose items with _ | index
    · rfl
    · obtain ⟨u, hu, hopen⟩ := h.chooses items index hc
      rw [allValues_eq_all, List.all_eq_true] at hv
      rw [hv u (List.mem_of_getElem? hu)] at hopen
      cases hopen
  refine ⟨1, _, ?_, .charged m⟩
  rw [h.stepFor_eq 0 hm, stepOne_seq, hchoose]
  rfl

section
variable {index : Nat} {u : Term} (hindex : choose items = some index) (hu : items[index]? = some u)
include hindex hu

/-- A step is one of the element that is chosen. -/
theorem stepFor_chosen (fuel : Nat) {m : Machine} (hm : m.config.stepLimit = none) :
    stepFor (fuel + 1) (.node op [.seq items]) m =
      (stepFor fuel u >>= fun next => pure (.node op [.seq (Sequence.replace items index next)]))
        { m with steps := m.steps + 1 } := by
  have hget : Sequence.get items index = u := Sequence.get_of_getElem? hu
  rw [h.stepFor_eq fuel hm, stepOne_seq, hindex, ← hget]
  rfl

theorem moves_chosen {u' : Term} (hmoves : Moves u u') :
    Moves (.node op [.seq items]) (.node op [.seq (Sequence.replace items index u')]) := by
  intro m hm
  obtain ⟨fuel, m', hstep, hquiet⟩ := hmoves { m with steps := m.steps + 1 } hm
  refine ⟨fuel + 1, m', ?_, (Quiet.charged m).trans hquiet⟩
  rw [h.stepFor_chosen hindex hu fuel hm, bind_of_ok hstep]
  rfl

theorem jams_chosen (hjams : Jams u) : Jams (.node op [.seq items]) := by
  intro m hm
  obtain ⟨fuel, cause, m', hstep, hquiet⟩ := hjams { m with steps := m.steps + 1 } hm
  refine ⟨fuel + 1, cause, m', ?_, (Quiet.charged m).trans hquiet⟩
  rw [h.stepFor_chosen hindex hu fuel hm, bind_of_error hstep]

end

theorem construct (es : List Term) : Construction.construct op.name es = .ok (.node op [.seq (flatten es)]) :=
  construct_run h.params rfl es

theorem strategy : Strategy fun items => .node op [.seq items] where
  done {items} hrow hv := by
    have hvalue : (ofSequence items).isValue = true := by rw [isValue_ofSequence, hv]
    have hyields := yields_of_isValue hvalue
    rw [hrow.elements_ofSequence] at hyields
    exact .of_moves (h.tame hrow) rfl (h.moves_values hv) hyields
  busy {items} hrow hv := by
    obtain ⟨index, hindex⟩ : ∃ index, choose items = some index := by
      refine Option.ne_none_iff_exists'.mp fun hnone => ?_
      rw [h.exhausts items hnone] at hv
      cases hv
    obtain ⟨u, hget, hu⟩ := h.chooses items index hindex
    obtain ⟨before, after, hitems, hlength⟩ : ∃ before after, items = before ++ u :: after ∧ before.length = index := by
      obtain ⟨hlt, rfl⟩ := List.getElem?_eq_some_iff.mp hget
      refine ⟨items.take index, items.drop (index + 1), ?_, List.length_take_of_le (Nat.le_of_lt hlt)⟩
      rw [List.getElem_cons_drop, List.take_append_drop]
    refine ⟨before, u, after, hitems, hu, ?_⟩
    rcases (hrow u (List.mem_of_getElem? hget)).1.moves_or_jams with ⟨u', hmoves⟩ | hjams
    · refine .inl ⟨u', hmoves, fun r hr => .of_moves (h.tame hrow) rfl (h.moves_chosen hindex hget hmoves) ?_⟩
      have hreplace : Sequence.replace items index u' = before ++ (u'.elements ++ after) := by
        subst hitems hlength
        rw [Sequence.replace, List.set_append_right _ _ (Nat.le_refl _)]
        simpa using hrow.flatten_replaced
      rwa [hreplace]
    · exact .inr ⟨hjams, (h.jams_chosen hindex hget hjams).sticks rfl⟩

end InOrder

/-! ## Executions -/

def ExecutesTo (t v : Term) : Prop := ∀ (m : Machine) (inputs : List Term), m.config.stepLimit = none →
  ∃ execution m', execute t inputs m = .ok execution m' ∧ execution.outcome = .value v

def ExecutesStuck (t : Term) : Prop := ∀ (m : Machine) (inputs : List Term), m.config.stepLimit = none →
  ∃ execution m' last cause, execute t inputs m = .ok execution m' ∧ execution.outcome = .stuck last cause

namespace Execution

theorem normalize_eq (t : Term) : normalize t = ofSequence t.elements := by
  cases t <;> rfl

/-- Executing goes on as running does, and remembers the last term. -/
theorem driveWith_of_runWith (advance : Term → Eval Term) (rounds : Nat) (t : Term) (m : Machine) :
    (∀ v m', runWith advance rounds t m = .ok v m' → driveWith advance rounds t m = .ok (.value (normalize v)) m') ∧
    (∀ cause m', runWith advance rounds t m = .error (.stuck cause) m' →
      ∃ last, driveWith advance rounds t m = .ok (.stuck last cause) m') := by
  induction rounds generalizing t m with
  | zero =>
    unfold runWith driveWith
    by_cases hv : t.isValue = true <;> simp +contextual [hv]
  | succ rounds ih =>
    unfold runWith driveWith
    by_cases hv : t.isValue = true
    · simp +contextual [hv]
    · simp only [hv, Bool.false_eq_true, if_false]
      rcases hadvance : advance t m with ⟨next, m₁⟩ | ⟨halt, m₁⟩
      · have hrecover : recover (advance t) m = .ok (.ok next) m₁ := recover_eq_ok.mpr (.inl ⟨next, rfl, hadvance⟩)
        rw [bind_of_ok hadvance, bind_of_ok hrecover]
        exact ih next m₁
      · rw [bind_of_error hadvance]
        refine ⟨fun v m' h => (by cases h), ?_⟩
        rintro cause _ ⟨⟩
        have hrecover : recover (advance t) m = .ok (.error cause) m₁ := recover_eq_ok.mpr (.inr ⟨cause, rfl, hadvance⟩)
        rw [bind_of_ok hrecover]
        exact ⟨t, rfl⟩

theorem supply_apply (inputs : List Term) (m : Machine) : ∃ m₁, supply inputs m = .ok () m₁ ∧ m₁.config = m.config := by
  unfold supply
  split
  · exact ⟨m, rfl, rfl⟩
  · exact ⟨_, rfl, rfl⟩

theorem execute_of_drive {fuel : Nat} {t : Term} {inputs : List Term} {m m₁ m' : Machine} {outcome : Outcome}
    (hsupply : supply inputs m = .ok () m₁) (hdrive : driveWith (advanceFor fuel) fuel t m₁ = .ok outcome m') :
    ∃ execution, execute t inputs m = .ok execution m' ∧ execution.outcome = outcome := by
  have hexecute : executeFor fuel t inputs m =
      .ok ⟨outcome, m'.entities.stream Entity.standardOut, m'.entities.get Entity.store⟩ m' := by
    rw [executeFor, bind_of_ok hsupply, bind_of_ok hdrive]
    rfl
  exact ⟨_, (execute_eq_iff (by trivial)).mpr ⟨fuel, hexecute⟩, rfl⟩

end Execution

open Execution

theorem Yields.executesTo {vs : List Term} (h : Yields t (some vs)) : ExecutesTo t (ofSequence vs) := by
  intro m inputs hm
  obtain ⟨v, hruns, rfl⟩ := h
  obtain ⟨m₁, hsupply, hconfig⟩ := supply_apply inputs m
  obtain ⟨fuel, m', hrun, -⟩ := hruns m₁ (by rw [hconfig, hm])
  have hdrive := (driveWith_of_runWith _ _ _ _).1 v m' hrun
  rw [normalize_eq] at hdrive
  obtain ⟨execution, hexecute, houtcome⟩ := execute_of_drive hsupply hdrive
  exact ⟨execution, m', hexecute, houtcome⟩

theorem Yields.executesStuck (h : Yields t none) : ExecutesStuck t := by
  intro m inputs hm
  obtain ⟨m₁, hsupply, hconfig⟩ := supply_apply inputs m
  obtain ⟨fuel, cause, m', hrun, -⟩ := h m₁ (by rw [hconfig, hm])
  obtain ⟨last, hdrive⟩ := (driveWith_of_runWith _ _ _ _).2 cause m' hrun
  obtain ⟨execution, hexecute, houtcome⟩ := execute_of_drive hsupply hdrive
  exact ⟨execution, m', last, cause, hexecute, houtcome⟩

/-! ## Pure terms -/

/-- A pure term has the same value on all machines without a step limit, whatever they hold, or is stuck on all of them. It
changes neither the entities nor the choices to come. And pure terms come to the same value from the left, from the right and
as the sequence that stands for them in parentheses, or are stuck in all these ways. -/
theorem pure_terms_ignore_state_and_order :
    (∀ (source : String) (t : Term), readTerm source = .ok t → t.Pure →
      (∃ v, ∀ m : Machine, m.config.stepLimit = none → ∃ m', run t m = .ok v m' ∧ Quiet m m') ∨
      (∀ m : Machine, m.config.stepLimit = none → ∃ cause m', run t m = .error (.stuck cause) m' ∧ Quiet m m')) ∧
    (∀ es : List Term, (∀ e ∈ es, e.Pure ∧ ∃ source, readTerm source = .ok e) → ∃ l r,
      Construction.construct "left-to-right" es = .ok l ∧ Construction.construct "right-to-left" es = .ok r ∧
      ((∃ v, ∀ t ∈ [l, r, ofSequence (flatten es)], ExecutesTo t v) ∨
        ∀ t ∈ [l, r, ofSequence (flatten es)], ExecutesStuck t)) := by
  refine ⟨fun source t hread hpure => ?_, fun es hes => ?_⟩
  · rcases (Term.Tame.of_readTerm hread hpure).runs_or_sticks with ⟨v, hruns⟩ | hsticks
    · exact .inl ⟨v, fun m hm => run_of_runs hruns hm⟩
    · exact .inr fun m hm => run_of_sticks hsticks hm
  · have hrow : TameRow (flatten es) := by
      refine tameRow_flatten fun e he => ?_
      obtain ⟨hpure, source, hread⟩ := hes e he
      exact .of_readTerm hread hpure
    obtain ⟨r, hr⟩ := YieldsAll.exists_of_row hrow
    have hleft := inOrder_leftToRight.strategy.yields hrow hr
    have hright := inOrder_rightToLeft.strategy.yields hrow hr
    have hgroup : Yields (ofSequence (flatten es)) r := by
      refine yields_of_elements (fun _ hwrap => ?_) ?_ <;> rw [hrow.elements_ofSequence]
      · exact hwrap.yields hrow hr
      · exact hr
    refine ⟨_, _, inOrder_leftToRight.construct es, inOrder_rightToLeft.construct es, ?_⟩
    cases r with
    | some vs =>
      refine .inl ⟨ofSequence vs, ?_⟩
      simp only [List.forall_mem_cons, List.not_mem_nil, false_implies, implies_true, and_true]
      exact ⟨hleft.executesTo, hright.executesTo, hgroup.executesTo⟩
    | none =>
      refine .inr ?_
      simp only [List.forall_mem_cons, List.not_mem_nil, false_implies, implies_true, and_true]
      exact ⟨hleft.executesStuck, hright.executesStuck, hgroup.executesStuck⟩

/-- A tuple that is taken apart among the arguments, and a sum. -/
theorem pure_terms_ignore_state_and_order_spliced :
    let pair : Term := .node (.composite .tupleElements) [.node (.composite .tuple) [.seq [.int 4, .int 5]]]
    let sum : Term := .node (.arithmetic .add) [.seq [.int 1, .int 2]]
    readTerm "tuple-elements(tuple(4, 5))" = .ok pair ∧ readTerm "integer-add(1, 2)" = .ok sum ∧ pair.Pure ∧ sum.Pure ∧
    (∀ m : Machine, m.config.stepLimit = none → ∃ m', run sum m = .ok (.int 3) m' ∧ Quiet m m') ∧
    ∃ l r, Construction.construct "left-to-right" [pair, sum] = .ok l ∧
      Construction.construct "right-to-left" [pair, sum] = .ok r ∧
      ∀ t ∈ [l, r, .seq [pair, sum]], ExecutesTo t (.seq [.int 4, .int 5, .int 3]) := by
  intro pair sum
  have hpair : readTerm "tuple-elements(tuple(4, 5))" = .ok pair := by decide +kernel +zetaReduce
  have hsum : readTerm "integer-add(1, 2)" = .ok sum := by decide +kernel +zetaReduce
  have hpurePair : pair.Pure := by decide
  have hpureSum : sum.Pure := by decide
  have hes : ∀ e ∈ [pair, sum], e.Pure ∧ ∃ source, readTerm source = .ok e := by
    simp only [List.forall_mem_cons, List.not_mem_nil, false_implies, implies_true, and_true]
    exact ⟨⟨hpurePair, _, hpair⟩, hpureSum, _, hsum⟩
  -- what comes out on one machine tells the value
  have hrun : run sum .blank = .ok (.int 3) { Machine.blank with steps := 1 } := run_eq_ok.mpr ⟨4, rfl⟩
  have hexecute : execute (.seq [pair, sum]) [] .blank =
      .ok ⟨.value (.seq [.int 4, .int 5, .int 3]), [], .empty⟩ { Machine.blank with steps := 4 } := by
    have hfor : Execution.executeFor 8 (.seq [pair, sum]) [] .blank =
        .ok ⟨.value (.seq [.int 4, .int 5, .int 3]), [], .empty⟩ { Machine.blank with steps := 4 } := rfl
    exact (execute_eq_iff (by trivial)).mpr ⟨8, hfor⟩
  have hgroup : ∀ l r : Term, .seq [pair, sum] ∈ [l, r, ofSequence (flatten [pair, sum])] := by
    intro l r
    exact List.mem_cons_of_mem _ (List.mem_cons_of_mem _ (List.mem_singleton.mpr rfl))
  obtain ⟨hstate, horder⟩ := pure_terms_ignore_state_and_order
  refine ⟨hpair, hsum, hpurePair, hpureSum, ?_, ?_⟩
  · rcases hstate _ sum hsum hpureSum with ⟨v, hv⟩ | hstuck
    · obtain ⟨m', hblank, -⟩ := hv .blank rfl
      cases hrun.symm.trans hblank
      exact hv
    · obtain ⟨cause, m', hblank, -⟩ := hstuck .blank rfl
      cases hrun.symm.trans hblank
  · obtain ⟨l, r, hl, hr, ⟨v, hv⟩ | hstuck⟩ := horder _ hes
    · obtain ⟨execution, m', hblank, houtcome⟩ := hv _ (hgroup l r) .blank [] rfl
      cases hexecute.symm.trans hblank
      cases houtcome
      exact ⟨l, r, hl, hr, hv⟩
    · obtain ⟨execution, m', last, cause, hblank, houtcome⟩ := hstuck _ (hgroup l r) .blank [] rfl
      cases hexecute.symm.trans hblank
      cases houtcome

end TermMachine
