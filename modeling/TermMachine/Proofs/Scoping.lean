import TermMachine.Proofs.StoreLaws

/-!
# The given value keeps to its scope

`give` binds a value for the extent of one step of its body and puts back what was bound before, whatever came of the
step: a result, a term that is stuck, or a limit that was exceeded. Nothing else writes to that entity. So after a
computation the given value is the one from before, or is unset as before, however the computation ended.

The store keeps its order as well. An entity that is set again stays in its place, a new one comes last, and an attempt
that is taken back brings back the store as it was, order included. Two entities are ever removed: the given value by
the `give` that has added it, and the signal of `yield`, which may come back in another place. All others are, in the
order they had, at the beginning of the store that is left.

Proved:
* `allows_keepsScope`: the engine changes entities in no other way.
* `given_value_is_scoped`: the given value and the order after every step, run and execution.
-/

namespace TermMachine

open Term Eval Rules

namespace Entities

variable {s s' s'' : Entities} {name : String} {value : Term}

/-! ## The order of the entities -/

/-- The names of the entities that last: all but the signal of `yield`. -/
def lasting (s : Entities) : List String := s.names.filter (Entity.yielded ≠ ·)

theorem lasting_put (s : Entities) (name : String) (value : Term) : s.lasting <+: (s.put name value).lasting := by
  unfold lasting
  rw [names_put]
  split
  · exact List.prefix_refl _
  · rw [List.filter_append]
    exact List.prefix_append _ _

theorem lasting_remove_yielded (s : Entities) : (s.remove Entity.yielded).lasting = s.lasting := by
  simp [lasting, names_remove]

/-! ## Scope -/

/-- The given value is the same in both stores, or unset in both; and the entities that were set, the signal of `yield`
aside, are still set in the same order, before all new ones. -/
structure KeepsScope (s s' : Entities) : Prop where
  given : s'.find? Entity.givenValue = s.find? Entity.givenValue
  order : s.lasting <+: s'.lasting

namespace KeepsScope

theorem refl (s : Entities) : KeepsScope s s := ⟨rfl, List.prefix_refl _⟩

theorem trans (h : KeepsScope s s') (h' : KeepsScope s' s'') : KeepsScope s s'' :=
  ⟨h'.given.trans h.given, h.order.trans h'.order⟩

theorem put (hname : name ≠ Entity.givenValue) (s : Entities) (value : Term) : KeepsScope s (s.put name value) := by
  refine ⟨?_, lasting_put s name value⟩
  rw [find?_put, if_neg hname.symm]

theorem cleared (s : Entities) : KeepsScope s (s.remove Entity.yielded) := by
  have horder := lasting_remove_yielded s
  constructor
  · rw [find?_remove, if_neg (by decide)]
  · exact horder ▸ List.prefix_refl _

/-- Binding a value for a computation and putting back what was bound before. -/
theorem bound (h : KeepsScope (s.put Entity.givenValue value) s') :
    KeepsScope s (s'.assign Entity.givenValue (s.find? Entity.givenValue)) := by
  rcases hf : s.find? Entity.givenValue with _ | old
  · -- the name was added at the end, so what comes off again is behind all that was there
    have hnew : Entity.givenValue ∉ s.names := find?_eq_none.mp hf
    refine ⟨by rw [assign, find?_remove, if_pos rfl, hf], ?_⟩
    obtain ⟨more, hmore⟩ := h.order
    refine ⟨more.filter (Entity.givenValue ≠ ·), ?_⟩
    have hs : s.lasting.filter (Entity.givenValue ≠ ·) = s.lasting := by
      rw [List.filter_eq_self]
      intro n hn
      have hn : n ∈ s.names := (List.mem_filter.mp hn).1
      grind
    have hadded : (s.put Entity.givenValue value).lasting = s.lasting ++ [Entity.givenValue] := by
      rw [lasting, names_put, if_neg hnew, List.filter_append]
      rfl
    have hremoved : (s'.remove Entity.givenValue).lasting = s'.lasting.filter (Entity.givenValue ≠ ·) := by
      rw [lasting, lasting, names_remove, List.filter_filter, List.filter_filter]
      congr 1
      funext n
      exact Bool.and_comm _ _
    rw [assign, hremoved, ← hmore, hadded, List.filter_append, List.filter_append, hs]
    simp
  · refine ⟨by rw [assign, find?_put, if_pos rfl, hf], ?_⟩
    have hbound := (lasting_put s Entity.givenValue value).trans h.order
    exact hbound.trans (lasting_put s' Entity.givenValue old)

/-- The rules on entities leave the given value alone. -/
theorem effected {params : List Term} {op : Operator.Effect} {t : Term} (h : Effected params s op t s') :
    KeepsScope s s' := by
  cases h with
  | yield => exact put (by decide) _ _
  | yieldOnValue => exact put (by decide) _ _
  | given => exact refl _
  | print => exact put (by decide) _ _
  | read hpop =>
    unfold popFirst at hpop
    split at hpop <;> cases hpop
    exact put (by decide) _ _
  | useAtomNotIn => exact put (by decide) _ _
  | allocateVariable _ hs' =>
    subst hs'
    exact (put (by decide) _ _).trans (put (by decide) _ _)
  | assign => exact put (by decide) _ _
  | assigned => exact refl _

end KeepsScope

end Entities

/-! ## The engine -/

theorem allows_keepsScope : Allows fun m m' => m.entities.KeepsScope m'.entities where
  refl m := .refl m.entities
  trans h h' := h.trans h'
  charge m := .refl m.entities
  choices m _ := .refl m.entities
  restore {m _} _ := .refl m.entities
  effect h := .effected h
  bound _ h := h.bound
  cleared m := .cleared m.entities

/-- The machine that is left by a step, a run or an execution of any terms, be it with a result, stuck or at the step
limit, has the given value that the machine before it had, or none if that had none. The entities that were set before,
the signal of `yield` aside, come first in it and in the same order. -/
theorem given_value_is_scoped (t : Term) (inputs : List Term) (m : Machine) :
    m.entities.KeepsScope (machineAfter (step t m)).entities ∧
    m.entities.KeepsScope (machineAfter (run t m)).entities ∧
    m.entities.KeepsScope (machineAfter (execute t inputs m)).entities := by
  have hsupply : Keeps (fun m m' => m.entities.KeepsScope m'.entities) (Execution.supply inputs) := by
    intro m
    unfold Execution.supply
    by_cases hempty : (flatten inputs).isEmpty = true
    · simp only [hempty, if_true]
      exact .refl m.entities
    · simp only [hempty]
      exact .put (by decide) _ _
  exact ⟨keeps_step allows_keepsScope t m, keeps_run allows_keepsScope t m,
    keeps_execute allows_keepsScope hsupply t m⟩

end TermMachine
