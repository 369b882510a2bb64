import TermMachine.Proofs.Fuel
import TermMachine.Proofs.StepCases
import TermMachine.Proofs.Nodes

/-!
# A stuck step leaves no trace in the entities

A part of a term that gets stuck is taken back by `speculate`, so a sequence, or a node with an
argument still to run, that is stuck as a whole has its entities as they were. The rules come after
that: each of them looks at its parameters before it writes, and the lazy ones step one argument
only, so they are stuck without a trace when that argument is. The one exception is `atomic`, which
steps its body again and again and keeps what the earlier steps did.

`Traceless` says this of a step function, of the terms that mention no `atomic`; the induction is on
the fuel, one lemma for each rule that steps an argument.
-/

namespace TermMachine

open Term Eval Rules

namespace Entities

theorem write_write_search {name : String} {value old : Term} {entries : List (String × Term)}
    (h : search name entries = some old) : write name old (write name value entries) = entries := by
  induction entries with
  | nil => simp [search] at h
  | cons e rest ih =>
    obtain ⟨n, t⟩ := e
    by_cases hn : name = n
    · simp only [search, hn, if_true, Option.some.injEq] at h
      simp [write, hn, h]
    · simp only [search, hn, if_false] at h
      simp [write, hn, ih h]

theorem filter_write_of_search_none {name : String} {value : Term} {entries : List (String × Term)}
    (h : search name entries = none) :
    (write name value entries).filter (fun e => name ≠ e.1) = entries := by
  induction entries with
  | nil => simp [write]
  | cons e rest ih =>
    obtain ⟨n, t⟩ := e
    by_cases hn : name = n
    · simp [search, hn] at h
    · simp only [search, hn, if_false] at h
      have := ih h
      simp_all [write]

/-- Binding an entity and putting back what it held before changes nothing, not even the order. -/
theorem assign_put_find? (s : Entities) (name : String) (value : Term) :
    (s.put name value).assign name (s.find? name) = s := by
  rcases hf : s.find? name with _ | old
  · exact congrArg Entities.mk (filter_write_of_search_none hf)
  · exact congrArg Entities.mk (write_write_search hf)

end Entities

namespace Engine

/-! ## What is speculated on -/

theorem stepFirst_stuck {s : Operator → List Term → Eval Term} {blocked : Option Stuck} {items : List Term}
    {m m' : Machine} {cause : Stuck} (h : stepFirst s blocked items m = .error (.stuck cause) m') :
    m'.entities = m.entities := by
  induction items generalizing blocked m with
  | nil =>
    cases blocked with
    | none => simp [stepFirst] at h
    | some c =>
      simp only [stepFirst, stuck_apply, EStateM.Result.error.injEq] at h
      rw [← h.2]
  | cons t rest ih =>
    simp only [stepFirst] at h
    split at h
    · rcases bind_eq_error.mp h with h | ⟨_, _, _, h⟩
      · exact ih h
      · cases h
    · rcases bind_eq_error.mp h with h | ⟨r, m₁, hr, h⟩
      · exact absurd rfl ((speculate_eq_error.mp h).2 cause)
      · rcases speculate_eq_ok.mp hr with ⟨next, rfl, -⟩ | ⟨c, m₂, rfl, -, rfl⟩
        · cases h
        · rcases bind_eq_error.mp h with h | ⟨_, _, _, h⟩
          · have hrest := ih h
            exact hrest
          · cases h

/-- A stuck sequence, spread or not, leaves the entities as they were. -/
theorem stepWith_sequence_stuck {s : Operator → List Term → Eval Term} {t : Term} {m m' : Machine}
    {cause : Stuck} (ht : t.isSequence = true) (h : stepWith s t m = .error (.stuck cause) m') :
    m'.entities = m.entities := by
  cases t with
  | seq items =>
    simp only [stepWith] at h
    split at h
    · cases h
    · rcases bind_eq_error.mp h with h | ⟨_, _, _, h⟩
      · exact stepFirst_stuck h
      · cases h
  | spread items =>
    simp only [stepWith] at h
    split at h
    · cases h
    · rcases bind_eq_error.mp h with h | ⟨_, _, _, h⟩
      · exact stepFirst_stuck h
      · cases h
  | _ => simp [isSequence] at ht

theorem reducePending_stuck {run : Term → Eval Term} {op : Operator} {params : List Term}
    {blocked : Option Stuck} {rest : List (Nat × Term)} {m m' : Machine} {cause : Stuck}
    (h : reducePending run op params blocked rest m = .error (.stuck cause) m') :
    m'.entities = m.entities := by
  induction rest generalizing blocked m with
  | nil =>
    cases blocked with
    | none => simp [reducePending] at h
    | some c =>
      simp only [reducePending, stuck_apply, EStateM.Result.error.injEq] at h
      rw [← h.2]
  | cons p rest ih =>
    obtain ⟨index, t⟩ := p
    simp only [reducePending] at h
    rcases bind_eq_error.mp h with h | ⟨r, m₁, hr, h⟩
    · exact absurd rfl ((speculate_eq_error.mp h).2 cause)
    · rcases speculate_eq_ok.mp hr with ⟨next, rfl, -⟩ | ⟨c, m₂, rfl, -, rfl⟩
      · cases h
      · have hrest := ih h
        exact hrest

/-! ## Rules -/

def isAtomic (op : Operator) : Bool := op = .effect .atomic

/-- A step that is stuck leaves no trace in the entities, if its term mentions no `atomic`. -/
def Traceless (step : Term → Eval Term) : Prop :=
  ∀ t m cause m', t.mentions isAtomic = false → step t m = .error (.stuck cause) m' → m'.entities = m.entities

theorem param_mentions {p : Operator → Bool} {params : List Term} {index : Nat} {t : Term}
    (hp : anyMentions p params = false) (h : params[index]? = some t) : t.mentions p = false :=
  anyMentions_eq_false.mp hp t (List.mem_of_getElem? h)

theorem get_mentions {p : Operator → Bool} {items : List Term} (hp : anyMentions p items = false)
    (index : Nat) : (Sequence.get items index).mentions p = false := by
  unfold Sequence.get
  rw [List.getD_eq_getElem?_getD]
  rcases hi : items[index]? with _ | t
  · rfl
  · exact param_mentions hp hi

variable {step : Term → Eval Term}

theorem stepOne_stuck (hs : Traceless step) {op : Operator} {choose : List Term → Option Nat}
    {params : List Term} {m m' : Machine} {cause : Stuck} (hp : anyMentions isAtomic params = false)
    (h : stepOne step op choose params m = .error (.stuck cause) m') : m'.entities = m.entities := by
  rcases stepOne_cases h with ⟨reason, hr⟩ | ⟨items, hitems, ⟨-, hr⟩ | ⟨index, -, hr⟩⟩
  · cases hr; rfl
  · cases hr
  · have hseq := param_mentions hp hitems
    rw [mentions] at hseq
    exact hs _ _ _ _ (get_mentions hseq index) (bind_pure_stuck hr.symm)

theorem sequential_stuck (hs : Traceless step) {params : List Term} {m m' : Machine} {cause : Stuck}
    (hp : anyMentions isAtomic params = false)
    (h : sequential step params m = .error (.stuck cause) m') : m'.entities = m.entities := by
  rcases sequential_cases h with ⟨reason, hr⟩ | ⟨statements, last, hst, -, hcase⟩
  · cases hr; rfl
  rcases hcase with ⟨-, hr⟩ | ⟨first, rest, rfl, ⟨-, hr⟩ | ⟨-, -, hr⟩ | ⟨-, -, hr⟩⟩
  · cases hr
  · have hseq := param_mentions hp hst
    rw [mentions, anyMentions, Bool.or_eq_false_iff] at hseq
    exact hs _ _ _ _ hseq.1 (bind_pure_stuck hr.symm)
  · cases hr
  · cases hr

/-- `give` binds a value, steps and unbinds: with the step the whole is without a trace. -/
theorem give_stuck (hs : Traceless step) {params : List Term} {m m' : Machine} {cause : Stuck}
    (hp : anyMentions isAtomic params = false)
    (h : give step params m = .error (.stuck cause) m') : m'.entities = m.entities := by
  rcases give_cases h with ⟨reason, hr⟩ | ⟨value, body, -, hbody, ⟨-, hr⟩ | ⟨-, hr⟩⟩
  · cases hr; rfl
  · cases hr
  · obtain ⟨m₁, hm₁, rfl⟩ := withGiven_eq_error.mp (bind_pure_stuck hr.symm)
    have hbound := hs _ _ _ _ (param_mentions hp hbody) hm₁
    simp only [hbound, Entities.assign_put_find?]

theorem applyRule_stuck (hs : Traceless step) {advance : Term → Eval Term} {rounds : Nat} {op : Operator}
    {params : List Term} {m m' : Machine} {cause : Stuck} (hop : isAtomic op = false)
    (hp : anyMentions isAtomic params = false)
    (h : applyRule step advance rounds op params m = .error (.stuck cause) m') :
    m'.entities = m.entities := by
  by_cases hstep : stepsArgument op = true
  · unfold stepsArgument at hstep
    split at hstep
    · exact stepOne_stuck hs hp h
    · exact stepOne_stuck hs hp h
    · exact sequential_stuck hs hp h
    · exact give_stuck hs hp h
    · simp [isAtomic] at hop
    · cases hstep
  · rcases applyRule_cases (by simpa using hstep) h with ⟨reason, hr⟩ | ⟨t, m₁, -, hr⟩
    · cases hr; rfl
    · cases hr

/-! ## Steps -/

/-- A node is stuck without a trace in its eager parameters, or when its rule is. -/
theorem stepNode_stuck {fuel : Nat} {op : Operator} {params : List Term} {m m' : Machine} {cause : Stuck}
    (h : stepNode (fuel + 1) op params m = .error (.stuck cause) m') :
    m'.entities = m.entities ∨ pending op params = [] ∧ ∃ m₁, m₁.entities = m.entities ∧
      applyRule (stepFor fuel) (advanceFor fuel) fuel op params m₁ = .error (.stuck cause) m' := by
  rcases Eval.bind_eq_error.mp h with hc | ⟨_, m₁, hc, hrest⟩
  · obtain ⟨_, hlimit, -⟩ := charge_eq_error hc
    cases hlimit
  have hm₁ := charge_eq_ok hc
  rcases Eval.bind_eq_error.mp hrest with hr | ⟨r, m₂, hr, hrule⟩
  · left
    have := reducePending_stuck hr
    rw [this, hm₁]
  · cases r with
    | some next => cases hrule
    | none =>
      obtain ⟨hpending, rfl⟩ := reducePending_none hr
      exact Or.inr ⟨hpending, m₂, by rw [hm₁], hrule⟩

theorem stepFor_traceless (fuel : Nat) : Traceless (stepFor fuel) := by
  induction fuel with
  | zero =>
    intro t m cause m' ht h
    cases t with
    | seq items => exact stepWith_sequence_stuck rfl h
    | spread items => exact stepWith_sequence_stuck rfl h
    | _ => cases h
  | succ fuel ih =>
    intro t m cause m' ht h
    cases t with
    | seq items => exact stepWith_sequence_stuck rfl h
    | spread items => exact stepWith_sequence_stuck rfl h
    | node op params =>
      rw [mentions, Bool.or_eq_false_iff] at ht
      rcases stepNode_stuck h with hm | ⟨-, m₁, hm₁, hrule⟩
      · exact hm
      · rw [applyRule_stuck ih ht.1 ht.2 hrule, hm₁]
    | _ => cases h

end Engine

/-- A node one of whose eager parameters is not a value yet. -/
inductive AwaitsParameter : Term → Prop
  | intro {op : Operator} {params : List Term} {i : Nat} {p : Param} {argument : Term} :
      op.params[i]? = some p → p.isEager = true → params[i]? = some argument →
      argument.isValue = false → AwaitsParameter (.node op params)

/-- A stuck step of a sequence, of a node with an eager parameter that is not a value yet, or of a
term that mentions no `atomic` leaves the entities exactly as they were, their order included. -/
theorem entities_of_step_stuck {t : Term} {m m' : Machine} {cause : Stuck}
    (ht : t.isSequence = true ∨ AwaitsParameter t ∨ t.mentions Engine.isAtomic = false)
    (h : step t m = .error (.stuck cause) m') : m'.entities = m.entities := by
  obtain ⟨fuel, hfuel⟩ := (step_eq_iff (by trivial)).mp h
  rcases ht with hseq | ⟨hparam, heager, harg, hvalue⟩ | hatomic
  · exact Engine.stepWith_sequence_stuck hseq hfuel
  · cases fuel with
    | zero => cases hfuel
    | succ fuel =>
      rcases Engine.stepNode_stuck hfuel with hm | ⟨hpending, -⟩
      · exact hm
      · have := Engine.mem_pending.mpr ⟨_, hparam, heager, harg, hvalue⟩
        rw [hpending] at this
        cases this
  · exact Engine.stepFor_traceless fuel t m cause m' hatomic hfuel

/-- The first argument prints inside `atomic` before it gets stuck, and nothing is printed. -/
theorem entities_of_step_stuck_print :
    let t : Term := .node (.logic .isEqual)
      [.node (.effect .atomic) [.node (.flow .sequential)
        [.seq [.node (.effect .print) [.seq [.int 9]]], .node (.flow .stuck) []]], .int 1]
    let m : Machine := ⟨{}, ⟨[(Entity.standardOut, .seq [.int 1])]⟩, ⟨0⟩, 0⟩
    ∃ cause m', step t m = .error (.stuck cause) m' ∧ m'.entities = m.entities := by
  intro t m
  have hstuck : isStuck (Engine.stepFor 8 t m) = true := by decide +kernel
  obtain ⟨cause, m', h⟩ := exists_of_isStuck hstuck
  have h := (step_eq_iff (by trivial)).mpr ⟨8, h⟩
  have hawaits : AwaitsParameter t := .intro (i := 0) rfl rfl rfl rfl
  exact ⟨cause, m', h, entities_of_step_stuck (Or.inr (Or.inl hawaits)) h⟩

end TermMachine
