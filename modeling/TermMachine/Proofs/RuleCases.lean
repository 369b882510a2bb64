import TermMachine.Engine
import TermMachine.Proofs.Computation

/-!
# What the rules can come to

Each lemma here says all that a rule can come to: it is stuck at once, with the machine as it was, or
it does one of a few things. The lazy rules on the order of evaluation and `give` go on with the step
of an argument; the other rules on entities read and write them once, as `Effected` lists. What is
proved about the engine goes through these lemmas and never opens a rule again.
-/

namespace TermMachine

open Term Eval

namespace Rules

/-- A rule that first reads its parameters is stuck there, or goes on with what it read. -/
theorem bind_ofRule_cases {α β : Type} {op : Operator} {r : Except Reason α} {f : α → Eval β}
    {m : Machine} {out : EStateM.Result Halt Machine β} (h : (ofRule op r >>= f) m = out) :
    (∃ reason, out = .error (.stuck (.rule op reason)) m) ∨ ∃ a, r = .ok a ∧ f a m = out := by
  cases r with
  | ok a => exact Or.inr ⟨a, rfl, h⟩
  | error reason => exact Or.inl ⟨reason, h.symm⟩

/-- What goes on with the result of a computation without getting stuck is stuck only with it. -/
theorem bind_pure_stuck {α β : Type} {x : Eval α} {f : α → β} {m m' : Machine} {halt : Halt}
    (h : (x >>= fun a => pure (f a)) m = .error halt m') : x m = .error halt m' := by
  rcases Eval.bind_eq_error.mp h with hx | ⟨_, _, _, hf⟩
  · exact hx
  · cases hf

variable {step : Term → Eval Term} {params : List Term} {m : Machine} {out : EStateM.Result Halt Machine Term}

theorem stepOne_cases {op : Operator} {choose : List Term → Option Nat}
    (h : stepOne step op choose params m = out) :
    (∃ reason, out = .error (.stuck (.rule op reason)) m) ∨
    ∃ items, params[0]? = some (.seq items) ∧
      ((choose items = none ∧ out = .ok (ofSequence items) m) ∨
      ∃ index, choose items = some index ∧ out = (step (Sequence.get items index) >>= fun next =>
        pure (node op [seq (Sequence.replace items index next)])) m) := by
  rcases bind_ofRule_cases h with hr | ⟨items, hitems, hout⟩
  · exact Or.inl hr
  · refine Or.inr ⟨items, sequenceArg_eq_ok.mp hitems, ?_⟩
    rcases hc : choose items with _ | index
    · rw [hc] at hout
      exact Or.inl ⟨rfl, hout.symm⟩
    · rw [hc] at hout
      exact Or.inr ⟨index, rfl, hout.symm⟩

/-- The statements of `sequential` are done, or the first one is stepped, dropped or in the way. -/
theorem sequential_cases (h : sequential step params m = out) :
    (∃ reason, out = .error (.stuck (.rule (.flow .sequential) reason)) m) ∨
    ∃ statements last, params[0]? = some (.seq statements) ∧ params[1]? = some last ∧
      ((statements = [] ∧ out = .ok last m) ∨
      ∃ first rest, statements = first :: rest ∧
        ((first.isValue = false ∧ out = (step first >>= fun next =>
            pure (node (.flow .sequential) [seq (Sequence.replace statements 0 next), last])) m) ∨
          (first = .null ∧ rest = [] ∧ out = .ok last m) ∨
          first = .null ∧ rest ≠ [] ∧ out = .ok (node (.flow .sequential) [seq rest, last]) m)) := by
  rcases bind_ofRule_cases h with hr | ⟨statements, hst, hout⟩
  · exact Or.inl hr
  rcases bind_ofRule_cases hout with hr | ⟨last, hlast, hout⟩
  · exact Or.inl hr
  rcases statements with _ | ⟨first, rest⟩
  · exact Or.inr ⟨[], last, sequenceArg_eq_ok.mp hst, arg_eq_ok.mp hlast, Or.inl ⟨rfl, hout.symm⟩⟩
  · rcases hv : first.isValue with _ | _
    · refine Or.inr ⟨_, last, sequenceArg_eq_ok.mp hst, arg_eq_ok.mp hlast, Or.inr ⟨first, rest, rfl, ?_⟩⟩
      have hr : first.isReducible = true := by simp [isReducible, hv]
      simp only [hr] at hout
      exact Or.inl ⟨hv, hout.symm⟩
    · have hr : first.isReducible = false := by simp [isReducible, hv]
      simp only [hr] at hout
      by_cases hnull : first = .null
      · subst hnull
        refine Or.inr ⟨_, last, sequenceArg_eq_ok.mp hst, arg_eq_ok.mp hlast, Or.inr ⟨_, rest, rfl, Or.inr ?_⟩⟩
        rcases rest with _ | ⟨next, rest⟩
        · exact Or.inl ⟨rfl, rfl, hout.symm⟩
        · exact Or.inr ⟨rfl, by simp, hout.symm⟩
      · refine Or.inl ⟨.statementValue first, ?_⟩
        cases first with
        | null => exact absurd rfl hnull
        | _ => exact hout.symm

theorem choose_cases (h : choose params m = out) :
    (∃ reason, out = .error (.stuck (.rule (.flow .choice) reason)) m) ∨
    ∃ options t choices, params[0]? = some (.seq options) ∧
      Sequence.pick options m.choices = some (t, choices) ∧ out = .ok t { m with choices } := by
  rcases bind_ofRule_cases h with hr | ⟨options, hopt, hout⟩
  · exact Or.inl hr
  rw [bind_of_ok (get_apply m)] at hout
  rcases hp : Sequence.pick options m.choices with _ | ⟨t, choices⟩
  · rw [hp] at hout
    exact Or.inl ⟨_, hout.symm⟩
  · rw [hp] at hout
    exact Or.inr ⟨options, t, choices, sequenceArg_eq_ok.mp hopt, hp, hout.symm⟩

theorem give_cases (h : give step params m = out) :
    (∃ reason, out = .error (.stuck (.rule (.effect .give) reason)) m) ∨
    ∃ value body, params[0]? = some value ∧ params[1]? = some body ∧
      ((body.isValue = true ∧ out = .ok body m) ∨
      body.isValue = false ∧ out = (withGiven value (step body) >>= fun next =>
        pure (node (.effect .give) [value, next])) m) := by
  rcases bind_ofRule_cases h with hr | ⟨value, hvalue, hout⟩
  · exact Or.inl hr
  rcases bind_ofRule_cases hout with hr | ⟨body, hbody, hout⟩
  · exact Or.inl hr
  refine Or.inr ⟨value, body, arg_eq_ok.mp hvalue, arg_eq_ok.mp hbody, ?_⟩
  rcases hv : body.isValue with _ | _
  · simp only [hv] at hout
    exact Or.inr ⟨rfl, hout.symm⟩
  · simp only [hv] at hout
    exact Or.inl ⟨rfl, hout.symm⟩

/-! ## Entities -/

/-- What the rules on entities other than `atomic` and `give` do: the term that they give, and the
entities after them. -/
inductive Effected (params : List Term) (s : Entities) : Operator.Effect → Term → Entities → Prop
  | yield : Effected params s .yield .null (s.put Entity.yielded signal)
  | yieldOnValue {value : Term} : params[0]? = some value →
      Effected params s .yieldOnValue value (s.put Entity.yielded signal)
  | given {value : Term} : s.find? Entity.givenValue = some value → Effected params s .given value s
  | print {values : List Term} : params[0]? = some (.seq values) →
      Effected params s .print .null (s.append Entity.standardOut (.seq values))
  | read {value : Term} {s' : Entities} : s.popFirst Entity.standardIn = some (value, s') →
      Effected params s .read value s'
  | useAtomNotIn {excluded : List Term} : params[0]? = some (.set excluded) →
      Effected params s .useAtomNotIn (freshAtom (excluded ++ usedAtoms s)) (s.put Entity.usedAtoms
        (.set (Elements.insert (freshAtom (excluded ++ usedAtoms s)) (usedAtoms s))))
  | allocateVariable {ty : Ty} {s' : Entities} : params[0]? = some (.type ty) →
      s' = s.put Entity.usedAtoms (.set (Elements.insert (freshAtom (usedAtoms s)) (usedAtoms s))) →
      Effected params s .allocateVariable
        (.data variableName (flatten [freshAtom (usedAtoms s), .type ty]))
        (s'.put Entity.store (.map (Entries.put (freshAtom (usedAtoms s)) [] (storeMap s'))))
  | assign {store : Entries} : assignment params (storeMap s) = .ok store →
      Effected params s .assign .null (s.put Entity.store (.map store))
  | assigned {value : Term} : contents params (storeMap s) = .ok value → Effected params s .assigned value s

theorem asSet?_eq_some {t : Term} {elements : List Term} : t.asSet? = some elements ↔ t = .set elements := by
  cases t <;> simp [asSet?]

theorem asType?_eq_some {t : Term} {ty : Ty} : t.asType? = some ty ↔ t = .type ty := by
  cases t <;> simp [asType?]

theorem effect_cases {advance : Term → Eval Term} {rounds : Nat} {op : Operator.Effect}
    (hatomic : op ≠ .atomic) (hgive : op ≠ .give) (h : effect step advance rounds op params m = out) :
    (∃ reason, out = .error (.stuck (.rule (.effect op) reason)) m) ∨
    ∃ t s, Effected params m.entities op t s ∧ out = .ok t { m with entities := s } := by
  cases op with
  | atomic => exact absurd rfl hatomic
  | give => exact absurd rfl hgive
  | yield => exact Or.inr ⟨_, _, .yield, h.symm⟩
  | yieldOnValue =>
    rcases bind_ofRule_cases h with hr | ⟨value, hvalue, hout⟩
    · exact Or.inl hr
    · exact Or.inr ⟨_, _, .yieldOnValue (arg_eq_ok.mp hvalue), hout.symm⟩
  | given =>
    rw [effect, bind_of_ok (entities_apply m)] at h
    rcases hf : m.entities.find? Entity.givenValue with _ | value
    · rw [hf] at h
      exact Or.inl ⟨_, h.symm⟩
    · rw [hf] at h
      exact Or.inr ⟨_, _, .given hf, h.symm⟩
  | print =>
    rcases bind_ofRule_cases h with hr | ⟨values, hvalues, hout⟩
    · exact Or.inl hr
    · exact Or.inr ⟨_, _, .print (sequenceArg_eq_ok.mp hvalues), hout.symm⟩
  | read =>
    rw [effect, bind_of_ok (entities_apply m)] at h
    rcases hf : m.entities.popFirst Entity.standardIn with _ | ⟨value, s⟩
    · rw [hf] at h
      exact Or.inl ⟨_, h.symm⟩
    · rw [hf] at h
      exact Or.inr ⟨_, _, .read hf, h.symm⟩
  | useAtomNotIn =>
    rcases bind_ofRule_cases h with hr | ⟨excluded, hex, hout⟩
    · exact Or.inl hr
    · obtain ⟨t, ht, hset⟩ := Rules.bind_eq_ok.mp hex
      rw [elements, expect_eq_ok, asSet?_eq_some] at hset
      subst hset
      exact Or.inr ⟨_, _, .useAtomNotIn (arg_eq_ok.mp ht), hout.symm⟩
  | allocateVariable =>
    rcases bind_ofRule_cases h with hr | ⟨ty, hty, hout⟩
    · exact Or.inl hr
    · obtain ⟨t, ht, hview⟩ := Rules.bind_eq_ok.mp hty
      rw [type, expect_eq_ok, asType?_eq_some] at hview
      subst hview
      exact Or.inr ⟨_, _, .allocateVariable (arg_eq_ok.mp ht) rfl, hout.symm⟩
  | assign =>
    rw [effect, bind_of_ok (entities_apply m)] at h
    rcases bind_ofRule_cases h with hr | ⟨store, hstore, hout⟩
    · exact Or.inl hr
    · exact Or.inr ⟨_, _, .assign hstore, hout.symm⟩
  | assigned =>
    rw [effect, bind_of_ok (entities_apply m)] at h
    rcases hc : contents params (storeMap m.entities) with reason | value
    · rw [hc] at h
      exact Or.inl ⟨reason, h.symm⟩
    · rw [hc] at h
      exact Or.inr ⟨_, _, .assigned hc, h.symm⟩

end Rules

namespace Engine

open Rules

def stepsArgument : Operator → Bool
  | .flow .leftToRight | .flow .rightToLeft | .flow .sequential | .effect .give | .effect .atomic => true
  | _ => false

/-- What the rules of the other operators give, and the machine after them. -/
inductive Fired (params : List Term) (m : Machine) : Operator → Term → Machine → Prop
  | effect {items : List Term} : params[0]? = some (.seq items) → Fired params m (.flow .effect) .null m
  | choice {options : List Term} {t : Term} {choices : ChoiceStream} : params[0]? = some (.seq options) →
      Sequence.pick options m.choices = some (t, choices) →
      Fired params m (.flow .choice) t { m with choices }
  | ifTrueElse {b : Bool} {t : Term} : params[0]? = some (.bool b) →
      params[if b then 1 else 2]? = some t → Fired params m (.flow .ifTrueElse) t m
  | entities {op : Operator.Effect} {t : Term} {s : Entities} : Effected params m.entities op t s →
      Fired params m (.effect op) t { m with entities := s }
  | logic {op : Operator.Logic} {t : Term} : logic op params = .ok t → Fired params m (.logic op) t m
  | arithmetic {op : Operator.Arithmetic} {t : Term} : arithmetic op params = .ok t →
      Fired params m (.arithmetic op) t m
  | composite {op : Operator.Composite} {t : Term} : composite op params = .ok t →
      Fired params m (.composite op) t m
  | mapping {op : Operator.Mapping} {t : Term} : mapping op params = .ok t → Fired params m (.mapping op) t m
  | collection {op : Operator.Collection} {t : Term} {choices : ChoiceStream} :
      collection op params m.choices = .ok (t, choices) → Fired params m (.collection op) t { m with choices }

theorem asBool?_eq_some {t : Term} {b : Bool} : t.asBool? = some b ↔ t = .bool b := by
  cases t <;> simp [asBool?]

theorem ofRule_cases {op : Operator} {r : Result Term} {m : Machine}
    {out : EStateM.Result Halt Machine Term} (h : ofRule op r m = out) :
    (∃ reason, out = .error (.stuck (.rule op reason)) m) ∨ ∃ t, r = .ok t ∧ out = .ok t m := by
  cases r with
  | ok t => exact Or.inr ⟨t, rfl, h.symm⟩
  | error reason => exact Or.inl ⟨reason, h.symm⟩

variable {step advance : Term → Eval Term} {rounds : Nat} {params : List Term} {m : Machine}
  {out : EStateM.Result Halt Machine Term}

/-- A rule that steps no argument is stuck at once, or gives its result. -/
theorem applyRule_cases {op : Operator} (hop : stepsArgument op = false)
    (h : applyRule step advance rounds op params m = out) :
    (∃ reason, out = .error (.stuck (.rule op reason)) m) ∨
    ∃ t m', Fired params m op t m' ∧ out = .ok t m' := by
  cases op with
  | flow f =>
    cases f with
    | leftToRight => cases hop
    | rightToLeft => cases hop
    | sequential => cases hop
    | effect =>
      rcases bind_ofRule_cases h with hr | ⟨items, hitems, hout⟩
      · exact Or.inl hr
      · exact Or.inr ⟨_, _, .effect (sequenceArg_eq_ok.mp hitems), hout.symm⟩
    | choice =>
      rcases choose_cases h with hr | ⟨options, t, choices, hopt, hpick, hout⟩
      · exact Or.inl hr
      · exact Or.inr ⟨_, _, .choice hopt hpick, hout⟩
    | ifTrueElse =>
      rcases ofRule_cases h with hr | ⟨t, ht, hout⟩
      · exact Or.inl hr
      · obtain ⟨b, hb, ht⟩ := Rules.bind_eq_ok.mp ht
        obtain ⟨u, hu, hb⟩ := Rules.bind_eq_ok.mp hb
        rw [boolean, expect_eq_ok, asBool?_eq_some] at hb
        subst hb
        refine Or.inr ⟨t, m, .ifTrueElse (arg_eq_ok.mp hu) ?_, hout⟩
        cases b with
        | true => exact arg_eq_ok.mp ht
        | false => exact arg_eq_ok.mp ht
    | stuck => exact Or.inl ⟨_, h.symm⟩
    | fail => exact Or.inl ⟨_, h.symm⟩
  | effect f =>
    have hatomic : f ≠ .atomic := by rintro rfl; cases hop
    have hgive : f ≠ .give := by rintro rfl; cases hop
    rcases effect_cases hatomic hgive h with hr | ⟨t, s, ht, hout⟩
    · exact Or.inl hr
    · exact Or.inr ⟨t, _, .entities ht, hout⟩
  | collection f =>
    rw [applyRule, bind_of_ok (get_apply m)] at h
    rcases bind_ofRule_cases h with hr | ⟨⟨t, choices⟩, ht, hout⟩
    · exact Or.inl hr
    · exact Or.inr ⟨t, _, .collection ht, hout.symm⟩
  | logic f =>
    rcases ofRule_cases h with hr | ⟨t, ht, hout⟩
    · exact Or.inl hr
    · exact Or.inr ⟨t, m, .logic ht, hout⟩
  | arithmetic f =>
    rcases ofRule_cases h with hr | ⟨t, ht, hout⟩
    · exact Or.inl hr
    · exact Or.inr ⟨t, m, .arithmetic ht, hout⟩
  | composite f =>
    rcases ofRule_cases h with hr | ⟨t, ht, hout⟩
    · exact Or.inl hr
    · exact Or.inr ⟨t, m, .composite ht, hout⟩
  | mapping f =>
    rcases ofRule_cases h with hr | ⟨t, ht, hout⟩
    · exact Or.inl hr
    · exact Or.inr ⟨t, m, .mapping ht, hout⟩

end Engine

end TermMachine
