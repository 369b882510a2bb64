import TermMachine.Proofs.EvaluationOrder
import TermMachine.Proofs.StepBudget
import TermMachine.Proofs.StoreTyping

/-!
# What is assigned and what is read back

An assignment puts the elements of the value into the slot of the variable's location, where the store keeps nothing but a
row of terms. Reading makes a term of that row again, in the way in which an execution makes its result of a finished
sequence (`Execution.normalize`): one element stands for itself. So a value that is no sequence comes back as it was, and so
does a sequence of two elements or more. A sequence of one element comes back as that element. And a row without elements is
what a slot holds before the first assignment.

Proved:
* `stepFor_of_nothing_pending`: a node over values steps by its rule as long as steps are left.
* `step_assign_ok`: an assignment that succeeds writes one slot, and nothing else.
* `step_assigned_of_get?`: a slot with something in it can be read.
* `assigned_after_assign`: what is read after an assignment, and what an assignment leaves alone.
* `assigned_element_of_assigned_sequence`: when the value does not come back as it was.
-/

namespace TermMachine

open Term Eval Rules Engine Execution

variable {m m' : Machine} {op : Operator} {params : List Term}

/-! ## Nodes over values -/

theorem pending_of_values (h : ∀ t ∈ params, t.isValue = true) : pending op params = [] := by
  refine List.eq_nil_iff_forall_not_mem.mpr fun (index, t) hmem => ?_
  obtain ⟨_, -, -, ht, hv⟩ := mem_pending.mp hmem
  rw [h t (List.mem_of_getElem? ht)] at hv
  cases hv

/-- As long as a step is left, a node with nothing pending steps by its rule. -/
theorem stepFor_of_nothing_pending (hpending : pending op params = []) (hleft : m.left ≠ some 0) (fuel : Nat) :
    stepFor (fuel + 1) (.node op params) m =
      applyRule (stepFor fuel) (advanceFor fuel) fuel op params { m with steps := m.steps + 1 } := by
  rw [stepFor, stepWith, stepNode_eq_rule hpending, bind_of_ok (charge_of_left hleft)]

/-- A rule that steps no argument leaves the entities alone when it is stuck. -/
theorem entities_of_rule_stuck {cause : Stuck} (hop : stepsArgument op = false) (hpending : pending op params = [])
    (h : step (.node op params) m = .error (.stuck cause) m') : m'.entities = m.entities := by
  obtain ⟨fuel, hfuel⟩ := (step_eq_iff (by trivial)).mp h
  cases fuel with
  | zero => cases hfuel
  | succ fuel =>
    rw [stepFor, stepWith, stepNode_eq_rule hpending] at hfuel
    rcases Eval.bind_eq_error.mp hfuel with hcharge | ⟨_, m₁, hcharge, hrule⟩
    · obtain ⟨_, hlimit, -⟩ := charge_eq_error hcharge
      cases hlimit
    · obtain rfl := charge_eq_ok hcharge
      rcases applyRule_cases hop hrule with ⟨_, hr⟩ | ⟨_, _, -, hr⟩
      · cases hr
        rfl
      · cases hr

/-! ## One slot -/

/-- The variable has a location and a type, the value is of that type, and its elements are put into the slot. -/
theorem step_assign_ok {x v t : Term} (hx : x.isValue = true) (hv : v.isValue = true)
    (h : step (.node (.effect .assign) [x, v]) m = .ok t m') :
    ∃ location ty, x = .data variableName [location, .type ty] ∧ ty.belongs v = true ∧
      m'.entities = m.entities.put Entity.store (.map ((storeMap m.entities).put location v.elements)) := by
  have hready : ready (.effect .assign) [x, v] = true :=
    pending_eq_nil.mp (pending_of_values (by simp [hx, hv]))
  cases fired_of_step rfl hready h with
  | entities heffect =>
    cases heffect with
    | assign hstore =>
      obtain ⟨location, ty, value, _, hx, hv, hbelongs, -, rfl⟩ := Discipline.assignment_eq_ok hstore
      cases hx
      cases hv
      exact ⟨location, ty, rfl, hbelongs, by simp⟩

theorem contents_of_get? {location : Term} {ty : Ty} {items : List Term} {store : Entries}
    (hget : store.get? location = some items) (hne : items ≠ []) :
    contents [.data variableName [location, .type ty]] store = .ok (ofSequence items) := by
  have hparts : variableParts (.data variableName [location, .type ty]) = .ok (location, ty) := variableParts_eq_ok.mpr rfl
  cases items with
  | nil => exact absurd rfl hne
  | cons t rest =>
    refine bind_eq_ok.mpr ⟨_, rfl, bind_eq_ok.mpr ⟨(location, ty), hparts, ?_⟩⟩
    simp only [hget]

/-- A slot with something in it can be read as long as a step is left. -/
theorem step_assigned_of_get? {location : Term} {ty : Ty} {items : List Term} (hleft : m.left ≠ some 0)
    (hget : (storeMap m.entities).get? location = some items) (hne : items ≠ []) :
    step (.node (.effect .assigned) [.data variableName [location, .type ty]]) m =
      .ok (ofSequence items) { m with steps := m.steps + 1 } := by
  have hpending : pending (.effect .assigned) [.data variableName [location, .type ty]] = [] :=
    pending_of_values (by simp [isValue])
  refine step_eq_ok.mpr ⟨1, (stepFor_of_nothing_pending hpending hleft 0).trans ?_⟩
  show ofRule (.effect .assigned) (contents _ (storeMap m.entities)) _ = _
  rw [contents_of_get? hget hne]
  rfl

/-! ## Writing, then reading -/

/-- What comes back is the value itself, unless that is a spread or a sequence of one element. -/
theorem normalize_eq_self {v : Term} (h : v.isSequence = false ∨ ∃ items, v = .seq items ∧ items.length ≠ 1) :
    normalize v = v := by
  rcases h with hv | ⟨items, rfl, hlength⟩
  · cases v with
    | seq items => cases hv
    | spread items => cases hv
    | _ => rfl
  · match items with
    | [] => rfl
    | [t] => exact absurd rfl hlength
    | t :: u :: rest => rfl

/-- After an assignment, reading the variable gives back the value, as long as a step is left and the value is not
empty; a sequence of one element comes back as that element and a spread as a sequence. The slots of other locations are
as they were, and so are all entities but the store. An assignment that is stuck leaves all entities as they were. -/
theorem assigned_after_assign {x v : Term} (hx : x.isValue = true) (hv : v.isValue = true) (m : Machine) :
    (∀ t m₁, step (.node (.effect .assign) [x, v]) m = .ok t m₁ → ∃ location ty,
      x = .data variableName [location, .type ty] ∧
      (v.elements ≠ [] → m₁.left ≠ some 0 →
        step (.node (.effect .assigned) [x]) m₁ = .ok (normalize v) { m₁ with steps := m₁.steps + 1 }) ∧
      (v.isSequence = false ∨ (∃ items, v = .seq items ∧ items.length ≠ 1) → normalize v = v) ∧
      (∀ other, other ≠ location → (storeMap m₁.entities).get? other = (storeMap m.entities).get? other) ∧
      (∀ name, name ≠ Entity.store → m₁.entities.find? name = m.entities.find? name)) ∧
    (∀ cause m₁, step (.node (.effect .assign) [x, v]) m = .error (.stuck cause) m₁ → m₁.entities = m.entities) := by
  constructor
  · intro t m₁ h
    obtain ⟨location, ty, rfl, -, hstore⟩ := step_assign_ok hx hv h
    have hslot : ∀ other, (storeMap m₁.entities).get? other =
        if other = location then some v.elements else (storeMap m.entities).get? other := by
      intro other
      rw [hstore, Discipline.storeMap_put_store, Term.Entries.get?_put]
    refine ⟨location, ty, rfl, ?_, normalize_eq_self, ?_, ?_⟩
    · intro hne hleft
      rw [normalize_eq]
      exact step_assigned_of_get? hleft (by rw [hslot, if_pos rfl]) hne
    · intro other hother
      rw [hslot, if_neg hother]
    · intro name hname
      rw [hstore, Entities.find?_put, if_neg hname]
  · intro cause m₁ h
    exact entities_of_rule_stuck rfl (pending_of_values (by simp [hx, hv])) h

/-- A pair comes back whole from a variable that takes what is no string, and another slot and the output are as before. -/
theorem assigned_after_assign_pair :
    let x : Term := .data variableName [.atom "a", .type (.complement .strings)]
    let v : Term := .seq [.int 1, .int 2]
    let m : Machine := ⟨{}, ⟨[(Entity.standardOut, .seq [.int 9]),
      (Entity.store, .map [(.atom "a", []), (.atom "b", [.int 5])])]⟩, ⟨0⟩, 0⟩
    ∃ m₁, step (.node (.effect .assign) [x, v]) m = .ok .null m₁ ∧
      step (.node (.effect .assigned) [x]) m₁ = .ok v { m₁ with steps := 2 } ∧
      (storeMap m₁.entities).get? (.atom "b") = some [.int 5] ∧
      m₁.entities.find? Entity.standardOut = some (.seq [.int 9]) ∧
      ∃ cause m₂, step (.node (.effect .assign) [.int 3, v]) m = .error (.stuck cause) m₂ ∧ m₂.entities = m.entities := by
  intro x v m
  let m₁ : Machine := ⟨{}, ⟨[(Entity.standardOut, .seq [.int 9]),
    (Entity.store, .map [(.atom "a", [.int 1, .int 2]), (.atom "b", [.int 5])])]⟩, ⟨0⟩, 1⟩
  have hassign : step (.node (.effect .assign) [x, v]) m = .ok .null m₁ :=
    step_eq_ok.mpr ⟨1, rfl⟩
  obtain ⟨location, ty, hx, hread, hself, hslots, hothers⟩ :=
    (assigned_after_assign (x := x) (v := v) rfl rfl m).1 _ _ hassign
  obtain ⟨rfl, rfl⟩ : Term.atom "a" = location ∧ Ty.complement .strings = ty := by simpa [x] using hx
  have hvalue := hself (.inr ⟨_, rfl, by decide⟩)
  have hstuck : isStuck (stepFor 1 (.node (.effect .assign) [.int 3, v]) m) = true := rfl
  obtain ⟨cause, m₂, hstuck⟩ := exists_of_isStuck hstuck
  have hstuck := (step_eq_iff (by trivial)).mpr ⟨1, hstuck⟩
  refine ⟨m₁, hassign, ?_, hslots (.atom "b") (by simp), hothers Entity.standardOut (by decide), cause, m₂, hstuck,
    (assigned_after_assign rfl rfl m).2 cause m₂ hstuck⟩
  have hdone := hread (by decide) (by decide)
  rwa [hvalue] at hdone

/-- A sequence of one number is assigned, and the number is read. A sequence of nothing is assigned, and the variable counts
as one that nothing was assigned to. And what was assigned in the last step that the limit allows cannot be read. -/
theorem assigned_element_of_assigned_sequence :
    let x : Term := .data variableName [.atom "a", .type (.complement .strings)]
    let assign : Term → Term := fun v => .node (.effect .assign) [x, v]
    let m : Option Nat → Machine := fun limit =>
      ⟨{ stepLimit := limit }, ⟨[(Entity.store, .map [(.atom "a", [])])]⟩, ⟨0⟩, 0⟩
    (∃ m₁ m₂, step (assign (.seq [.int 1])) (m none) = .ok .null m₁ ∧
      step (.node (.effect .assigned) [x]) m₁ = .ok (.int 1) m₂) ∧
    (∃ m₁ m₂, step (assign (.seq [])) (m none) = .ok .null m₁ ∧ step (.node (.effect .assigned) [x]) m₁ =
      .error (.stuck (.rule (.effect .assigned) (.uninitialised (.atom "a")))) m₂) ∧
    ∃ m₁ m₂, step (assign (.int 1)) (m (some 1)) = .ok .null m₁ ∧
      step (.node (.effect .assigned) [x]) m₁ = .error (.stepLimit 1) m₂ := by
  intro x assign m
  let after : Option Nat → List Term → Machine := fun limit items =>
    ⟨{ stepLimit := limit }, ⟨[(Entity.store, .map [(.atom "a", items)])]⟩, ⟨0⟩, 1⟩
  have hone : step (assign (.seq [.int 1])) (m none) = .ok .null (after none [.int 1]) :=
    step_eq_ok.mpr ⟨1, rfl⟩
  have hnone : step (assign (.seq [])) (m none) = .ok .null (after none []) :=
    step_eq_ok.mpr ⟨1, rfl⟩
  have hlast : step (assign (.int 1)) (m (some 1)) = .ok .null (after (some 1) [.int 1]) :=
    step_eq_ok.mpr ⟨1, rfl⟩
  have hread : stepFor 1 (.node (.effect .assigned) [x]) (after none [.int 1]) =
      .ok (.int 1) { after none [.int 1] with steps := 2 } := rfl
  have hempty : stepFor 1 (.node (.effect .assigned) [x]) (after none []) =
      .error (.stuck (.rule (.effect .assigned) (.uninitialised (.atom "a")))) { after none [] with steps := 2 } := rfl
  have hexceeded : stepFor 1 (.node (.effect .assigned) [x]) (after (some 1) [.int 1]) =
      .error (.stepLimit 1) { after (some 1) [.int 1] with steps := 2 } := rfl
  exact ⟨⟨_, _, hone, step_eq_ok.mpr ⟨1, hread⟩⟩,
    ⟨_, _, hnone, (step_eq_iff (by trivial)).mpr ⟨1, hempty⟩⟩,
    _, _, hlast, (step_eq_iff (by trivial)).mpr ⟨1, hexceeded⟩⟩

end TermMachine
