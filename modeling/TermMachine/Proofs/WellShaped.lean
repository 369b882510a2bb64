import TermMachine.Proofs.Invariant
import TermMachine.Proofs.Reading
import TermMachine.Proofs.Upkeep

/-!
# Nodes stay in shape

A term is well-shaped when every node in it, at any depth, has exactly the parameters that its operator declares, with a
run of terms in each place that absorbs one. Nothing checks this after a node was built, although nodes are rebuilt in
many places: a parameter gives way to its value, a spread is spliced and the parameters are bound anew, an operator that
steps its arguments puts them back. It holds all the same. So a rule that finds a parameter missing, or something else
where it expects a run, was given a node that nobody built by name or came to by steps.

A node comes to its rule only when all its eager parameters are values. That is said here by an equation: a step is
the same, whatever is done in the place of the rule of a node that is not ready for it.

Proved:
* `shape`: to be well-shaped is a discipline, so the engine keeps to it.
* `stepNode_eq_guarded`: a rule is applied to nothing but a node that is ready.
* `nodes_stay_shaped`: what is read or built by name is well-shaped, every step and run keeps terms and entities so, and
  none of them is ever stuck for a malformed node.
-/

namespace TermMachine

open Term Eval Rules

def Term.WellShaped (t : Term) : Prop := ∀ op params, .node op params ∈ t.parts → op.Shaped params

def Entities.WellShaped (s : Entities) : Prop := ∀ name t, s.find? name = some t → t.WellShaped

/-- To be well-shaped, as a discipline. Nothing is asked but of nodes, and no rule may blame their shape. -/
def shape : Discipline Unit where
  element _ := True
  node op params := op.Shaped params
  data _ _ _ := True
  type _ := True
  ledger _ _ _ := True
  excuse reason := reason.faultsShape = false
  element_of_not_isSequence _ := trivial
  node_update h hupdate := hupdate h
  data_mono _ _ := trivial
  data_other _ _ _ := trivial
  data_named _ _ _ _ := trivial
  ledger_use _ _ := trivial
  ledger_allocate _ _ := Discipline.same_world _
  ledger_assign _ _ _ _ _ := trivial
  excuse_ordinary h := by
    rw [Reason.isOrdinary, Bool.and_eq_true] at h
    simpa using h.1
  excuse_malformed _ h hmalformed := absurd h hmalformed
  excuse_unallocated _ _ _ := rfl

theorem admits_shape {w : Unit} {t : Term} : shape.Admits w t ↔ t.WellShaped := by
  constructor
  · intro h op params hnode
    exact h _ hnode
  · intro h u hu
    cases u with
    | node op params => exact h op params hu
    | _ => simp [Discipline.Fits, shape]

theorem stored_shape {w : Unit} {s : Entities} : shape.Stored w s ↔ s.WellShaped := by
  constructor
  · intro h name t ht
    exact admits_shape.mp (h.admits ht)
  · intro h
    exact ⟨fun {name t} ht => admits_shape.mpr (h name t ht), trivial⟩

/-! ## What is read or built by name -/

theorem readable_shape : Readable fun t => ∀ op params, t = .node op params → op.Shaped params where
  value v := by cases v <;> simp [ValueName.term, signal]
  int _ _ := by simp
  char _ := by simp
  string _ := by simp [Term.string]
  atom _ := by simp
  type _ _ := by simp
  seq _ := by simp
  node {op args params} h := by
    rintro _ _ ⟨rfl⟩
    exact Construction.shaped_of_bind h

theorem wellShaped_iff {t : Term} : t.WellShaped ↔ ∀ u ∈ t.parts, ∀ op params, u = .node op params → op.Shaped params := by
  constructor
  · rintro h u hu op params rfl
    exact h op params hu
  · intro h op params hnode
    exact h _ hnode op params rfl

theorem wellShaped_of_readTerm {source : String} {t : Term} (h : readTerm source = .ok t) : t.WellShaped :=
  wellShaped_iff.mpr (of_readTerm readable_shape.constructible h)

theorem wellShaped_construct {name : String} {args : List Term} {t : Term} (hargs : ∀ u ∈ args, u.WellShaped)
    (h : Construction.construct name args = .ok t) : t.WellShaped :=
  wellShaped_iff.mpr (readable_shape.parts_construct (fun u hu => wellShaped_iff.mp (hargs u hu)) h)

/-! ## Nodes that are ready for their rule -/

namespace Engine

def ready (op : Operator) (params : List Term) : Bool :=
  (op.params.zip params).all fun (p, t) => !p.isEager || t.isValue

theorem pending_eq_nil {op : Operator} {params : List Term} : pending op params = [] ↔ ready op params = true := by
  constructor
  · intro h
    rw [ready, List.all_eq_true]
    intro ⟨p, t⟩ hmem
    obtain ⟨index, hindex⟩ := List.mem_iff_getElem?.mp hmem
    obtain ⟨hp, ht⟩ := List.getElem?_zip_eq_some.mp hindex
    rcases he : p.isEager with _ | _
    · simp [he]
    · simp [isValue_of_pending_nil h hp he ht]
  · intro h
    refine List.eq_nil_iff_forall_not_mem.mpr fun (index, t) hmem => ?_
    obtain ⟨p, hp, he, ht, hv⟩ := mem_pending.mp hmem
    have hzip : (p, t) ∈ op.params.zip params :=
      List.mem_iff_getElem?.mpr ⟨index, List.getElem?_zip_eq_some.mpr ⟨hp, ht⟩⟩
    have hready := List.all_eq_true.mp h _ hzip
    simp [he, hv] at hready

/-- The rule is applied only to a node that is ready: on any other, anything might stand in its place. -/
theorem stepNode_eq_guarded (fuel : Nat) (op : Operator) (params : List Term) (other : Eval Term) :
    stepNode (fuel + 1) op params = (do
      charge
      match ← reducePending (runFor fuel) op params none (pending op params) with
      | some next => return next
      | none =>
        if ready op params then applyRule (stepFor fuel) (advanceFor fuel) fuel op params else other) := by
  funext m
  show (charge >>= _) m = (charge >>= _) m
  rcases hc : charge m with ⟨u, m₁⟩ | ⟨halt, m₁⟩
  · rw [bind_of_ok hc, bind_of_ok hc]
    show (reducePending (runFor fuel) op params none (pending op params) >>= _) m₁ = _
    rcases hr : reducePending (runFor fuel) op params none (pending op params) m₁ with ⟨r, m₂⟩ | ⟨halt, m₂⟩
    · rw [bind_of_ok hr, bind_of_ok hr]
      cases r with
      | some next => rfl
      | none =>
        obtain ⟨hpending, -⟩ := reducePending_none hr
        simp only [pending_eq_nil.mp hpending, if_true]
        rfl
    · rw [bind_of_error hr, bind_of_error hr]
  · rw [bind_of_error hc, bind_of_error hc]

end Engine

/-! ## Causes -/

/-- The cause goes back to a rule that misses a parameter, or finds something else where it expects a run, or to there
being no rule. -/
def Stuck.BlamesShape (cause : Stuck) : Prop :=
  ∃ reason, cause.root? = some reason ∧
    ((∃ index, reason = .missingParameter index) ∨ (∃ found, reason = .unexpected .sequence found) ∨
      reason.text? = some "no rule applies")

/-- Operators come in families, and the rule of a family is given for all of its members. So every operator has a rule, and
none of them says that there is none. -/
theorem text?_ne_no_rule (reason : Reason) : reason.text? ≠ some "no rule applies" := by
  intro h
  have hlen : reason.text?.map String.length = some 15 := by
    rw [h]
    rfl
  -- the texts that are put together are longer, and the others are compared as they stand
  cases reason with
  | unexplained => cases h
  | failed => simp [Reason.text?] at h
  | noGivenValue => simp [Reason.text?] at h
  | inputExhausted => simp [Reason.text?] at h
  | integerOverflow => simp [Reason.text?] at h
  | nothingToChoose => simp [Reason.text?] at h
  | _ =>
    simp only [Reason.text?, Option.map_some, Option.some.injEq, String.length, String.toList_append,
      List.length_append] at hlen
    simp at hlen <;> omega

theorem not_blamesShape {cause : Stuck} (h : shape.Excuses cause) : ¬ cause.BlamesShape := by
  rintro ⟨reason, hroot, ⟨index, rfl⟩ | ⟨found, rfl⟩ | htext⟩
  · cases h _ hroot
  · cases h _ hroot
  · exact text?_ne_no_rule reason htext

def EndsShaped : EStateM.Result Halt Machine Term → Prop
  | .ok t m => t.WellShaped ∧ m.entities.WellShaped
  | .error halt m => m.entities.WellShaped ∧ ∀ cause, halt = .stuck cause → ¬ cause.BlamesShape

def Outcome.Shaped : Outcome → Prop
  | .value v => v.WellShaped
  | .stuck t cause => t.WellShaped ∧ ¬ cause.BlamesShape

theorem endsShaped_of_upheld {t : Term} {r : EStateM.Result Halt Machine Term}
    (h : shape.Upheld () (shape.Reduct t) r) : EndsShaped r := by
  cases r with
  | ok t' m =>
    obtain ⟨_, -, hs, ht⟩ := h
    exact ⟨admits_shape.mp ht.1, stored_shape.mp hs⟩
  | error halt m =>
    obtain ⟨⟨_, -, hs⟩, hexcuse⟩ := h
    exact ⟨stored_shape.mp hs, fun cause hcause => not_blamesShape (hexcuse cause hcause)⟩

theorem outcome_shaped {w : Unit} {outcome : Outcome} (h : shape.Ended w outcome) : outcome.Shaped := by
  cases outcome with
  | value v => exact admits_shape.mp h
  | stuck t cause => exact ⟨admits_shape.mp h.1, not_blamesShape h.2⟩

/-- What is read or built by name is well-shaped. From a well-shaped term and well-shaped entities, a step, a run and an
execution leave such terms and entities whatever they end with, and are never stuck for a malformed node. No rule is
applied before every eager parameter is a value. -/
theorem nodes_stay_shaped :
    (∀ source t, readTerm source = .ok t → t.WellShaped) ∧
    (∀ name args t, (∀ u ∈ args, u.WellShaped) → Construction.construct name args = .ok t → t.WellShaped) ∧
    (∀ t (m : Machine), t.WellShaped → m.entities.WellShaped → EndsShaped (step t m) ∧ EndsShaped (run t m)) ∧
    (∀ t inputs (m m' : Machine) execution, t.WellShaped → (∀ u ∈ inputs, u.WellShaped) → m.entities.WellShaped →
      execute t inputs m = .ok execution m' → execution.outcome.Shaped ∧ m'.entities.WellShaped) ∧
    (∀ fuel op params other, Engine.stepNode (fuel + 1) op params = (do
      charge
      match ← Engine.reducePending (Engine.runFor fuel) op params none (Engine.pending op params) with
      | some next => return next
      | none =>
        if Engine.ready op params then
          Engine.applyRule (Engine.stepFor fuel) (Engine.advanceFor fuel) fuel op params
        else other)) := by
  refine ⟨fun _ _ => wellShaped_of_readTerm, fun _ _ _ => wellShaped_construct, ?_, ?_, Engine.stepNode_eq_guarded⟩
  · intro t m ht hm
    have hadmits : shape.Admits () t := admits_shape.mpr ht
    have hstored : shape.Stored () m.entities := stored_shape.mpr hm
    exact ⟨endsShaped_of_upheld (Discipline.step_upholds () t hadmits m hstored),
      endsShaped_of_upheld (Discipline.run_upholds () t hadmits m hstored)⟩
  · intro t inputs m m' execution ht hinputs hm h
    have hadmits : shape.AdmitsAll () inputs := fun u hu => admits_shape.mpr (hinputs u hu)
    have hupheld := Discipline.execute_upholds (admits_shape.mpr ht) hadmits m (stored_shape.mpr hm)
    rw [h] at hupheld
    obtain ⟨_, -, hs, hended⟩ := hupheld
    exact ⟨outcome_shaped hended, stored_shape.mp hs⟩

/-- Two parts of a tuple are spliced where one number is expected: stuck, but for no fault of the node. -/
theorem nodes_stay_shaped_spliced :
    let t : Term := .node (.arithmetic .subtract)
      [.node (.composite .tupleElements) [.data tupleName [.int 5, .int 4]], .int 3]
    let m : Machine := ⟨{}, .empty, ⟨0⟩, 0⟩
    t.WellShaped ∧ m.entities.WellShaped ∧
      ∃ cause m', step t m = .error (.stuck cause) m' ∧ m'.entities.WellShaped ∧ ¬ cause.BlamesShape := by
  intro t m
  have ht : t.WellShaped := by
    intro op params hnode
    simp only [t, parts, partsOfAll, List.append_nil, List.cons_append, List.nil_append, List.mem_cons,
      List.not_mem_nil, or_false, node.injEq, reduceCtorEq] at hnode
    rcases hnode with ⟨rfl, rfl⟩ | ⟨rfl, rfl⟩
    · exact .cons (Param.holds_of_not_isSequence rfl _) (.cons (Param.holds_of_not_isSequence rfl _) .nil)
    · exact .cons (Param.holds_of_not_isSequence rfl _) .nil
  have hm : m.entities.WellShaped := by
    intro name u hu
    cases hu
  have hstuck : isStuck (Engine.stepFor 8 t m) = true := by decide +kernel
  obtain ⟨cause, m', h⟩ := exists_of_isStuck hstuck
  have h := (step_eq_iff (by trivial)).mpr ⟨8, h⟩
  have hends := (nodes_stay_shaped.2.2.1 t m ht hm).1
  rw [h] at hends
  exact ⟨ht, hm, cause, m', h, hends.1, hends.2 cause rfl⟩

end TermMachine
