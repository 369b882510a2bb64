import Mathlib.Data.List.Forall2
import TermMachine.Proofs.RuleCases

/-!
# The shape of nodes

A node is shaped when it has one parameter for each that its operator declares, and a run of terms wherever
one is absorbed. Binding arguments gives such parameters, and putting a value in the place of a parameter keeps
them so, as long as a run gives way to a run.

A rule that reads a shaped node finds every parameter it asks for. It may still refuse what it finds, but then
for a reason of another kind: `Ordinary` says so of a rule, and there is one law for every way of reading a
parameter and one lemma for every family of rules. Only the rules on variables can also miss a location.

Proved:
* `shaped_of_bind`, `Operator.Shaped.set`: where shaped nodes come from.
* `mem_bindTo`: binding makes nothing of its arguments but a run.
* `logic_ordinary`, `arithmetic_ordinary`, `composite_ordinary`, `mapping_ordinary`, `collection_ordinary`: the
  rules that touch nothing but their parameters never blame the shape of a shaped node.
* `assignment_refuses`, `contents_refuses`: neither do the rules on variables, which otherwise report only a
  location that the store does not have.
* `applyRule_refuses`: the same of all rules that step no argument.
-/

namespace TermMachine

open Term

/-- What a parameter asks of the term in its place: that it is a run, if it absorbs one. -/
def Param.Holds (p : Param) (t : Term) : Prop := p.isSequence = true → ∃ items, t = .seq items

def Operator.Shaped (op : Operator) (params : List Term) : Prop := List.Forall₂ Param.Holds op.params params

theorem Param.holds_of_not_isSequence {p : Param} (h : p.isSequence = false) (t : Term) : p.Holds t := by
  intro hp
  rw [h] at hp
  cases hp

namespace Operator.Shaped

variable {op : Operator} {params : List Term} {index : Nat} {p : Param}

/-- A declared parameter is there. -/
theorem getElem? (h : op.Shaped params) (hp : op.params[index]? = some p) :
    ∃ t, params[index]? = some t ∧ p.Holds t := by
  obtain ⟨hlt, rfl⟩ := List.getElem?_eq_some_iff.mp hp
  have hlt' : index < params.length := h.length_eq ▸ hlt
  exact ⟨params.get ⟨index, hlt'⟩, List.getElem?_eq_getElem hlt', h.get hlt hlt'⟩

/-- A term may take the place of another, a run that of a run. -/
theorem set (h : op.Shaped params) {value : Term}
    (hvalue : ∀ items, params[index]? = some (.seq items) → ∃ items', value = .seq items') :
    op.Shaped (params.set index value) := by
  unfold Shaped at h ⊢
  generalize op.params = ps at h
  induction h generalizing index with
  | nil => exact .nil
  | @cons q t ps ts ht hts ih =>
    cases index with
    | zero =>
      refine .cons (fun hq => ?_) hts
      obtain ⟨items, rfl⟩ := ht hq
      exact hvalue items rfl
    | succ index => exact .cons ht (ih fun items h => hvalue items (by simpa using h))

end Operator.Shaped

namespace Construction

theorem holds_of_no_run {ps : List Param} {args : List Term} (hps : ps.countP Param.isSequence = 0)
    (hlen : args.length = ps.length) : List.Forall₂ Param.Holds ps args := by
  refine List.forall₂_iff_get.mpr ⟨hlen.symm, fun i h₁ h₂ => ?_⟩
  have hnone := List.countP_eq_zero.mp hps (ps.get ⟨i, h₁⟩) (List.get_mem ps ⟨i, h₁⟩)
  exact Param.holds_of_not_isSequence (by simpa using hnone) _

/-- The arguments before the run are given out one by one, and those after it are just enough. -/
theorem holds_bindTo {ps : List Param} {args : List Term} (hone : ps.countP Param.isSequence ≤ 1)
    (hlen : if ps.any Param.isSequence then ps.length - 1 ≤ args.length else args.length = ps.length) :
    List.Forall₂ Param.Holds ps (bindTo ps args) := by
  induction ps generalizing args with
  | nil => exact .nil
  | cons p ps ih =>
    rcases hp : p.isSequence with _ | _
    · cases args with
      | nil =>
        rcases hany : ps.any Param.isSequence with _ | _
        · simp [hp, hany] at hlen
        · cases ps with
          | nil => cases hany
          | cons q ps => simp [hp, hany] at hlen
      | cons arg rest =>
        simp only [bindTo, hp, Bool.false_eq_true, if_false]
        refine .cons (Param.holds_of_not_isSequence hp arg) (ih ?_ ?_)
        · simpa [hp] using hone
        · simp only [List.any_cons, hp, Bool.false_or, List.length_cons] at hlen
          split at hlen
          · rename_i hany
            rw [if_pos hany]
            omega
          · rename_i hany
            rw [if_neg hany]
            omega
    · have hrest : ps.countP Param.isSequence = 0 := by
        rw [List.countP_cons_of_pos hp] at hone
        omega
      simp only [List.any_cons, hp, Bool.true_or, if_true, List.length_cons] at hlen
      simp only [bindTo, hp, if_true]
      refine .cons (fun _ => ⟨_, rfl⟩) (holds_of_no_run hrest ?_)
      rw [List.length_drop]
      omega

/-- What is bound is an argument, or the run that some of the arguments make. -/
theorem mem_bindTo {ps : List Param} {args : List Term} {t : Term} (h : t ∈ bindTo ps args) :
    t ∈ args ∨ ∃ absorbed, absorbed ⊆ args ∧ t = .seq (flatten absorbed) := by
  induction ps generalizing args with
  | nil => cases h
  | cons p ps ih =>
    unfold bindTo at h
    split at h
    · rcases List.mem_cons.mp h with h | h
      · exact .inr ⟨_, List.take_subset _ _, h⟩
      · exact .inl (List.mem_of_mem_drop h)
    · cases args with
      | nil => cases h
      | cons arg rest =>
        rcases List.mem_cons.mp h with rfl | h
        · exact .inl List.mem_cons_self
        · rcases ih h with hmem | ⟨absorbed, hsub, ht⟩
          · exact .inl (List.mem_cons_of_mem _ hmem)
          · exact .inr ⟨absorbed, List.subset_cons_of_subset _ hsub, ht⟩

theorem bind_eq_ok {op : Operator} {args params : List Term} (h : bind op args = .ok params) :
    params = bindTo op.params args := by
  unfold bind at h
  split at h
  · cases h
    rfl
  · cases h

theorem shaped_of_bind {op : Operator} {args params : List Term} (h : bind op args = .ok params) :
    op.Shaped params := by
  unfold bind at h
  split at h
  · rename_i hadmits
    cases h
    refine holds_bindTo op.countP_isSequence_le ?_
    unfold Operator.arity at hadmits
    split at hadmits
    · rename_i hany
      rw [if_pos hany]
      simpa [Arity.admits] using hadmits
    · rename_i hany
      rw [if_neg hany]
      simpa [Arity.admits] using hadmits
  · cases h

end Construction

/-! ## Reasons -/

namespace Reason

/-- Whether a rule blames the shape of its node: a parameter is not there, or is no run. -/
def faultsShape : Reason → Bool
  | missingParameter _ | unexpected .sequence _ => true
  | _ => false

/-- Whether a rule blames the store: it has no such location. -/
def missesLocation : Reason → Bool
  | notAllocated _ => true
  | _ => false

def isOrdinary (reason : Reason) : Bool := !reason.faultsShape && !reason.missesLocation

end Reason

/-- The reason at the bottom, if it was a rule that did not apply. -/
def Stuck.root? : Stuck → Option Reason
  | rule _ reason => some reason
  | parameter _ cause => cause.root?
  | element cause => cause.root?
  | misfit _ _ => none
  | noProgress _ => none

namespace Rules

def Ordinary {α : Type} (r : Result α) : Prop := ∀ reason, r = .error reason → reason.isOrdinary = true

namespace Ordinary

variable {α β : Type}

theorem ok (a : α) : Ordinary (.ok a) := fun _ h => nomatch h

theorem pure (a : α) : Ordinary (pure a : Result α) := ok a

theorem error {reason : Reason} (h : reason.isOrdinary = true) : Ordinary (.error reason : Result α) := by
  rintro _ ⟨rfl⟩
  exact h

theorem bind {x : Result α} {f : α → Result β} (hx : Ordinary x) (hf : ∀ a, Ordinary (f a)) :
    Ordinary (x >>= f) := by
  cases x with
  | ok a => exact hf a
  | error reason => exact error (hx reason rfl)

/-- A view refuses a term for not being what it shows. -/
theorem expect {expected : Expected} (h : expected ≠ .sequence) (view : Term → Option α) (t : Term) :
    Ordinary (expect expected view t) := by
  unfold Rules.expect
  split
  · exact ok _
  · refine error ?_
    cases expected with
    | sequence => exact absurd rfl h
    | _ => rfl

theorem integer (t : Term) : Ordinary (integer t) := expect (by decide) _ t

theorem boolean (t : Term) : Ordinary (boolean t) := expect (by decide) _ t

theorem type (t : Term) : Ordinary (type t) := expect (by decide) _ t

theorem elements (t : Term) : Ordinary (elements t) := expect (by decide) _ t

theorem entries (t : Term) : Ordinary (entries t) := expect (by decide) _ t

theorem dataArgs (name : String) (t : Term) : Ordinary (dataArgs name t) := expect (by simp) _ t

end Ordinary

/-! ## Reading the parameters of a shaped node -/

section
variable {op : Operator} {params : List Term} {index : Nat} {p : Param} (hs : op.Shaped params)
include hs

theorem arg_ordinary (hp : op.params[index]? = some p) : Ordinary (arg params index) := by
  obtain ⟨t, ht, -⟩ := hs.getElem? hp
  rw [arg_eq_ok.mpr ht]
  exact .ok t

theorem sequenceArg_ordinary (hp : op.params[index]? = some p) (hrun : p.isSequence = true) :
    Ordinary (sequenceArg params index) := by
  obtain ⟨t, ht, hholds⟩ := hs.getElem? hp
  obtain ⟨items, rfl⟩ := hholds hrun
  rw [sequenceArg_eq_ok.mpr ht]
  exact .ok items

theorem integerArg_ordinary (hp : op.params[index]? = some p) : Ordinary (integerArg params index) :=
  .bind (arg_ordinary hs hp) .integer

theorem booleanArg_ordinary (hp : op.params[index]? = some p) : Ordinary (booleanArg params index) :=
  .bind (arg_ordinary hs hp) .boolean

end

/-! ## The families of rules -/

theorem conjunction_ordinary (terms : List Term) : Ordinary (conjunction terms) := by
  induction terms with
  | nil => exact .ok _
  | cons t rest ih =>
    refine .bind (.boolean t) fun b => ?_
    cases b with
    | true => exact ih
    | false => exact .ok _

theorem disjunction_ordinary (terms : List Term) : Ordinary (disjunction terms) := by
  induction terms with
  | nil => exact .ok _
  | cons t rest ih =>
    refine .bind (.boolean t) fun b => ?_
    cases b with
    | true => exact .ok _
    | false => exact ih

theorem logic_ordinary {op : Operator.Logic} {params : List Term} (hs : (Operator.logic op).Shaped params) :
    Ordinary (logic op params) := by
  cases op with
  | not => exact .bind (booleanArg_ordinary hs rfl) fun _ => .pure _
  | and =>
    exact .bind (sequenceArg_ordinary hs rfl rfl) fun terms => .bind (conjunction_ordinary terms) fun _ => .pure _
  | or =>
    exact .bind (sequenceArg_ordinary hs rfl rfl) fun terms => .bind (disjunction_ordinary terms) fun _ => .pure _
  | implies =>
    exact .bind (booleanArg_ordinary hs rfl) fun _ => .bind (booleanArg_ordinary hs rfl) fun _ => .pure _
  | exclusiveOr =>
    exact .bind (booleanArg_ordinary hs rfl) fun _ => .bind (booleanArg_ordinary hs rfl) fun _ => .pure _
  | isEqual => exact .bind (arg_ordinary hs rfl) fun _ => .bind (arg_ordinary hs rfl) fun _ => .pure _
  | isInType =>
    exact .bind (arg_ordinary hs rfl) fun _ => .bind (arg_ordinary hs rfl) fun t => .bind (.type t) fun _ => .pure _

theorem fitting_ordinary (n : Int) : Ordinary (fitting n) := by
  unfold fitting
  split
  · exact .ok n
  · exact .error rfl

theorem accumulate_ordinary (f : Int → Int → Int) (total : Int) (terms : List Term) :
    Ordinary (accumulate f total terms) := by
  induction terms generalizing total with
  | nil => exact .ok total
  | cons t rest ih => exact .bind (.integer t) fun _ => .bind (fitting_ordinary _) fun next => ih next

theorem powerTimes_ordinary (acc base : Int) (exponent : Nat) : Ordinary (powerTimes acc base exponent) := by
  fun_induction powerTimes acc base exponent with
  | case1 acc => exact .ok acc
  | case2 => exact fitting_ordinary _
  | case3 _ base _ _ _ _ _ ih =>
    exact .bind (fitting_ordinary _) fun acc => .bind (fitting_ordinary _) fun base => ih acc base
  | case4 acc _ _ _ _ _ _ ih => exact .bind (.ok acc) fun acc => .bind (fitting_ordinary _) fun base => ih acc base

section
variable {op : Operator} {params : List Term} (hs : op.Shaped params)
include hs

theorem integerPair_ordinary (hop : op.params = [.eager, .eager]) : Ordinary (integerPair params) :=
  .bind (integerArg_ordinary hs (by rw [hop]; rfl)) fun _ =>
    .bind (integerArg_ordinary hs (by rw [hop]; rfl)) fun _ => .pure _

theorem comparison_ordinary (hop : op.params = [.eager, .eager]) (holds : Int → Int → Bool) :
    Ordinary (comparison holds params) :=
  .bind (integerPair_ordinary hs hop) fun _ => .pure _

theorem natural_ordinary (hop : op.params = [.eager]) : Ordinary (natural params) := by
  refine .bind (integerArg_ordinary hs (by rw [hop]; rfl)) fun n => ?_
  split
  · exact .ok n
  · exact .error rfl

theorem collect_ordinary (hop : op.params = [.eagerSeq]) (name : String) : Ordinary (collect name params) :=
  .bind (sequenceArg_ordinary hs (by rw [hop]; rfl) rfl) fun _ => .pure _

theorem takeApart_ordinary (hop : op.params = [.eager]) (name : String) : Ordinary (takeApart name params) :=
  .bind (arg_ordinary hs (by rw [hop]; rfl)) fun t => .bind (.dataArgs name t) fun _ => .pure _

end

theorem arithmetic_ordinary {op : Operator.Arithmetic} {params : List Term}
    (hs : (Operator.arithmetic op).Shaped params) : Ordinary (arithmetic op params) := by
  cases op with
  | add =>
    exact .bind (sequenceArg_ordinary hs rfl rfl) fun terms => .bind (accumulate_ordinary _ _ terms) fun _ => .pure _
  | multiply =>
    exact .bind (sequenceArg_ordinary hs rfl rfl) fun terms => .bind (accumulate_ordinary _ _ terms) fun _ => .pure _
  | subtract => exact .bind (integerPair_ordinary hs rfl) fun _ => .bind (fitting_ordinary _) fun _ => .pure _
  | divide =>
    refine .bind (integerPair_ordinary hs rfl) fun (a, b) => ?_
    by_cases hb : b = 0
    · simp only [hb, if_true]
      exact .pure _
    · simp only [hb, if_false]
      exact .bind (fitting_ordinary _) fun _ => .pure _
  | modulo =>
    refine .bind (integerPair_ordinary hs rfl) fun (a, b) => ?_
    by_cases hb : b = 0
    · simp only [hb, if_true]
      exact .pure _
    · simp only [hb, if_false]
      exact .bind (fitting_ordinary _) fun _ => .pure _
  | power =>
    refine .bind (integerPair_ordinary hs rfl) fun (base, exponent) => ?_
    show Ordinary (if _ then _ else _)
    split
    · exact .error rfl
    · exact .bind (powerTimes_ordinary _ _ _) fun _ => .pure _
  | absoluteValue => exact .bind (integerArg_ordinary hs rfl) fun _ => .bind (fitting_ordinary _) fun _ => .pure _
  | negate => exact .bind (integerArg_ordinary hs rfl) fun _ => .bind (fitting_ordinary _) fun _ => .pure _
  | isLess =>
    rw [arithmetic]
    exact comparison_ordinary hs rfl _
  | isGreater =>
    rw [arithmetic]
    exact comparison_ordinary hs rfl _
  | isLessOrEqual =>
    rw [arithmetic]
    exact comparison_ordinary hs rfl _
  | isGreaterOrEqual =>
    rw [arithmetic]
    exact comparison_ordinary hs rfl _
  | successor => exact .bind (natural_ordinary hs rfl) fun _ => .bind (fitting_ordinary _) fun _ => .pure _
  | predecessor => exact .bind (natural_ordinary hs rfl) fun _ => .pure _

theorem concatenation_ordinary (lists : List Term) : Ordinary (concatenation lists) := by
  induction lists with
  | nil => exact .ok _
  | cons t rest ih => exact .bind (.dataArgs listName t) fun _ => .bind ih fun _ => .pure _

theorem composite_ordinary {op : Operator.Composite} {params : List Term}
    (hs : (Operator.composite op).Shaped params) : Ordinary (composite op params) := by
  cases op with
  | length => exact .bind (sequenceArg_ordinary hs rfl rfl) fun _ => .pure _
  | index =>
    exact .bind (integerArg_ordinary hs rfl) fun _ => .bind (sequenceArg_ordinary hs rfl rfl) fun _ => .pure _
  | reverse => exact .bind (sequenceArg_ordinary hs rfl rfl) fun _ => .pure _
  | tuple => exact collect_ordinary hs rfl _
  | tupleElements => exact takeApart_ordinary hs rfl _
  | list => exact collect_ordinary hs rfl _
  | listElements => exact takeApart_ordinary hs rfl _
  | listAppend =>
    exact .bind (sequenceArg_ordinary hs rfl rfl) fun lists => .bind (concatenation_ordinary lists) fun _ => .pure _
  | listHead => exact .bind (arg_ordinary hs rfl) fun t => .bind (.dataArgs listName t) fun _ => .pure _
  | listTail =>
    refine .bind (arg_ordinary hs rfl) fun t => .bind (.dataArgs listName t) fun args => ?_
    cases args with
    | nil => exact .pure _
    | cons _ _ => exact .pure _
  | vector => exact collect_ordinary hs rfl _
  | vectorElements => exact takeApart_ordinary hs rfl _
  | datatypeValue =>
    exact .bind (arg_ordinary hs rfl) fun t => .bind (.expect (by decide) _ t) fun _ =>
      .bind (sequenceArg_ordinary hs rfl rfl) fun _ => .pure _

theorem addTuples_ordinary (acc : Entries) (tuples : List Term) : Ordinary (addTuples acc tuples) := by
  induction tuples generalizing acc with
  | nil => exact .ok _
  | cons t rest ih =>
    refine .bind (.expect (by decide) _ t) fun (key, value) => ?_
    rcases hput : acc.putNew? key value with _ | next
    · simp only [hput]
      exact .ok _
    · simp only [hput]
      exact ih next

theorem unite_ordinary (acc : Entries) (maps : List Term) : Ordinary (unite acc maps) := by
  induction maps generalizing acc with
  | nil => exact .ok _
  | cons t rest ih =>
    refine .bind (.entries t) fun more => ?_
    rcases hadd : addEntries? acc more with _ | next
    · simp only
      exact .ok _
    · simp only
      exact ih next

theorem override_ordinary (acc : Entries) (maps : List Term) : Ordinary (override acc maps) := by
  induction maps generalizing acc with
  | nil => exact .ok _
  | cons t rest ih => exact .bind (.entries t) fun _ => ih _

theorem mapping_ordinary {op : Operator.Mapping} {params : List Term} (hs : (Operator.mapping op).Shaped params) :
    Ordinary (mapping op params) := by
  cases op with
  | map =>
    exact .bind (sequenceArg_ordinary hs rfl rfl) fun tuples => .bind (addTuples_ordinary _ tuples) fun _ => .pure _
  | empty => exact .ok _
  | lookup =>
    exact .bind (arg_ordinary hs rfl) fun t => .bind (.entries t) fun _ =>
      .bind (arg_ordinary hs rfl) fun _ => .pure _
  | override =>
    exact .bind (sequenceArg_ordinary hs rfl rfl) fun maps => .bind (override_ordinary _ maps) fun _ => .pure _
  | unite =>
    exact .bind (sequenceArg_ordinary hs rfl rfl) fun maps => .bind (unite_ordinary _ maps) fun _ => .pure _
  | domain => exact .bind (arg_ordinary hs rfl) fun t => .bind (.entries t) fun _ => .pure _
  | elements => exact .bind (arg_ordinary hs rfl) fun t => .bind (.entries t) fun _ => .pure _
  | delete =>
    exact .bind (arg_ordinary hs rfl) fun t => .bind (.entries t) fun _ =>
      .bind (arg_ordinary hs rfl) fun k => .bind (.expect (by decide) _ k) fun _ => .pure _

theorem union_ordinary (acc sets : List Term) : Ordinary (union acc sets) := by
  induction sets generalizing acc with
  | nil => exact .ok _
  | cons t rest ih => exact .bind (.elements t) fun _ => ih _

theorem elementNotIn_ordinary (ty : Ty) (excluded : List Term) : Ordinary (elementNotIn ty excluded) := by
  cases ty with
  | booleans => exact .ok _
  | integers => exact .ok _
  | naturalNumbers => exact .ok _
  | characters => exact .ok _
  | atoms => exact .ok _
  | _ => exact .error rfl

theorem collection_ordinary {op : Operator.Collection} {params : List Term}
    (hs : (Operator.collection op).Shaped params) (choices : ChoiceStream) :
    Ordinary (collection op params choices) := by
  cases op with
  | set => exact .bind (sequenceArg_ordinary hs rfl rfl) fun _ => .pure _
  | empty => exact .ok _
  | isIn =>
    exact .bind (arg_ordinary hs rfl) fun _ => .bind (arg_ordinary hs rfl) fun t => .bind (.elements t) fun _ => .pure _
  | elements => exact .bind (arg_ordinary hs rfl) fun t => .bind (.elements t) fun _ => .pure _
  | unite =>
    exact .bind (sequenceArg_ordinary hs rfl rfl) fun sets => .bind (union_ordinary _ sets) fun _ => .pure _
  | difference =>
    exact .bind (arg_ordinary hs rfl) fun t => .bind (.elements t) fun _ =>
      .bind (arg_ordinary hs rfl) fun u => .bind (.elements u) fun _ => .pure _
  | size => exact .bind (arg_ordinary hs rfl) fun t => .bind (.elements t) fun _ => .pure _
  | insert =>
    exact .bind (arg_ordinary hs rfl) fun _ => .bind (arg_ordinary hs rfl) fun t => .bind (.elements t) fun _ => .pure _
  | someElement => exact .bind (arg_ordinary hs rfl) fun t => .bind (.elements t) fun _ => .pure _
  | elementNotIn =>
    exact .bind (arg_ordinary hs rfl) fun t => .bind (arg_ordinary hs rfl) fun u => .bind (.elements u) fun excluded =>
      .bind (.type t) fun ty => .bind (elementNotIn_ordinary ty excluded) fun _ => .pure _

/-! ## Variables -/

theorem dataArgs_eq_ok {name : String} {t : Term} {args : List Term} :
    dataArgs name t = .ok args ↔ t = .data name args := by
  rw [dataArgs, expect_eq_ok]
  cases t with
  | data constructor args' =>
    by_cases hname : constructor = name <;> simp [dataArgs?, hname]
  | _ => simp [dataArgs?]

theorem variableParts_eq_ok {t location : Term} {ty : Ty} :
    variableParts t = .ok (location, ty) ↔ t = .data variableName [location, .type ty] := by
  unfold variableParts
  constructor
  · intro h
    obtain ⟨args, hargs, h⟩ := bind_eq_ok.mp h
    split at h
    · cases h
      exact dataArgs_eq_ok.mp hargs
    · cases h
  · rintro rfl
    rfl

theorem variableParts_ordinary (t : Term) : Ordinary (variableParts t) := by
  refine .bind (.dataArgs variableName t) fun args => ?_
  split
  · exact .ok _
  · exact .error rfl

/-- The store has no such location as the variable at the first place names. -/
def Unallocated (params : List Term) (store : Entries) (reason : Reason) : Prop :=
  ∃ location ty, params[0]? = some (.data variableName [location, .type ty]) ∧ store.get? location = none ∧
    reason = .notAllocated location

theorem bind_eq_error {α β : Type} {x : Result α} {f : α → Result β} {reason : Reason} :
    (x >>= f) = .error reason ↔ x = .error reason ∨ ∃ a, x = .ok a ∧ f a = .error reason := by
  cases x with
  | ok a => simp [bind, Except.bind]
  | error e => simp [bind, Except.bind]

theorem assignment_refuses {params : List Term} {store : Entries} {reason : Reason}
    (hs : (Operator.effect .assign).Shaped params) (h : assignment params store = .error reason) :
    reason.isOrdinary = true ∨ Unallocated params store reason := by
  rcases bind_eq_error.mp h with h | ⟨t, ht, h⟩
  · exact .inl (arg_ordinary hs rfl _ h)
  rcases bind_eq_error.mp h with h | ⟨⟨location, ty⟩, hparts, h⟩
  · exact .inl (variableParts_ordinary t _ h)
  rcases bind_eq_error.mp h with h | ⟨value, -, h⟩
  · exact .inl (arg_ordinary hs rfl _ h)
  have hvariable : params[0]? = some (.data variableName [location, .type ty]) := by
    rw [arg_eq_ok.mp ht, variableParts_eq_ok.mp hparts]
  split at h
  · cases h
    exact .inl rfl
  · rcases hget : store.get? location with _ | old
    · rw [hget] at h
      cases h
      exact .inr ⟨location, ty, hvariable, hget, rfl⟩
    · rw [hget] at h
      cases h

theorem contents_refuses {params : List Term} {store : Entries} {reason : Reason}
    (hs : (Operator.effect .assigned).Shaped params) (h : contents params store = .error reason) :
    reason.isOrdinary = true ∨ Unallocated params store reason := by
  rcases bind_eq_error.mp h with h | ⟨t, ht, h⟩
  · exact .inl (arg_ordinary hs rfl _ h)
  rcases bind_eq_error.mp h with h | ⟨⟨location, ty⟩, hparts, h⟩
  · exact .inl (variableParts_ordinary t _ h)
  have hvariable : params[0]? = some (.data variableName [location, .type ty]) := by
    rw [arg_eq_ok.mp ht, variableParts_eq_ok.mp hparts]
  simp only at h
  split at h
  · rename_i hget
    cases h
    exact .inr ⟨location, ty, hvariable, hget, rfl⟩
  · cases h
    exact .inl rfl
  · cases h

end Rules

/-! ## All rules that step no argument -/

namespace Engine

open Eval Rules

theorem bind_ofRule_stuck {α β : Type} {op : Operator} {r : Result α} {f : α → Eval β} {reason : Reason}
    {m m' : Machine} (h : (ofRule op r >>= f) m = .error (.stuck (.rule op reason)) m') :
    r = .error reason ∨ ∃ a, r = .ok a ∧ f a m = .error (.stuck (.rule op reason)) m' := by
  cases r with
  | ok a => exact .inr ⟨a, rfl, h⟩
  | error reason' =>
    cases h
    exact .inl rfl

theorem ofRule_stuck {α : Type} {op : Operator} {r : Result α} {reason : Reason} {m m' : Machine}
    (h : ofRule op r m = .error (.stuck (.rule op reason)) m') : r = .error reason := by
  cases r with
  | ok a => cases h
  | error reason' =>
    cases h
    rfl

variable {step advance : Term → Eval Term} {rounds : Nat} {params : List Term} {reason : Reason} {m m' : Machine}

theorem flow_refuses {op : Operator.Flow} (hop : stepsArgument (.flow op) = false)
    (hs : (Operator.flow op).Shaped params)
    (h : flow step op params m = .error (.stuck (.rule (.flow op) reason)) m') : reason.isOrdinary = true := by
  cases op with
  | leftToRight => cases hop
  | rightToLeft => cases hop
  | sequential => cases hop
  | effect =>
    rcases bind_ofRule_stuck h with hr | ⟨_, _, h⟩
    · exact sequenceArg_ordinary hs rfl rfl _ hr
    · cases h
  | choice =>
    rcases bind_ofRule_stuck h with hr | ⟨options, _, h⟩
    · exact sequenceArg_ordinary hs rfl rfl _ hr
    · rw [bind_of_ok (get_apply m)] at h
      rcases hpick : Sequence.pick options m.choices with _ | ⟨t, choices⟩
      · rw [hpick] at h
        cases h
        rfl
      · rw [hpick] at h
        cases h
  | ifTrueElse =>
    have hordinary : Ordinary (do if ← booleanArg params 0 then arg params 1 else arg params 2) := by
      refine .bind (booleanArg_ordinary hs rfl) fun b => ?_
      cases b with
      | true => exact arg_ordinary hs (show (Operator.flow .ifTrueElse).params[1]? = some .lazy from rfl)
      | false => exact arg_ordinary hs (show (Operator.flow .ifTrueElse).params[2]? = some .lazy from rfl)
    exact hordinary _ (ofRule_stuck h)
  | stuck =>
    cases h
    rfl
  | fail =>
    cases h
    rfl

theorem effect_refuses {op : Operator.Effect} (hop : stepsArgument (.effect op) = false)
    (hs : (Operator.effect op).Shaped params)
    (h : effect step advance rounds op params m = .error (.stuck (.rule (.effect op) reason)) m') :
    reason.isOrdinary = true ∨ Unallocated params (storeMap m.entities) reason := by
  cases op with
  | atomic => cases hop
  | give => cases hop
  | yield => cases h
  | yieldOnValue =>
    rcases bind_ofRule_stuck h with hr | ⟨_, _, h⟩
    · exact .inl (arg_ordinary hs rfl _ hr)
    · cases h
  | given =>
    rw [effect, bind_of_ok (entities_apply m)] at h
    rcases hf : m.entities.find? Entity.givenValue with _ | value
    · rw [hf] at h
      cases h
      exact .inl rfl
    · rw [hf] at h
      cases h
  | print =>
    rcases bind_ofRule_stuck h with hr | ⟨_, _, h⟩
    · exact .inl (sequenceArg_ordinary hs rfl rfl _ hr)
    · cases h
  | read =>
    rw [effect, bind_of_ok (entities_apply m)] at h
    rcases hf : m.entities.popFirst Entity.standardIn with _ | ⟨value, s⟩
    · rw [hf] at h
      cases h
      exact .inl rfl
    · rw [hf] at h
      cases h
  | useAtomNotIn =>
    rcases bind_ofRule_stuck h with hr | ⟨_, _, h⟩
    · have hordinary : Ordinary (arg params 0 >>= Rules.elements) := .bind (arg_ordinary hs rfl) .elements
      exact .inl (hordinary _ hr)
    · cases h
  | allocateVariable =>
    rcases bind_ofRule_stuck h with hr | ⟨_, _, h⟩
    · have hordinary : Ordinary (arg params 0 >>= Rules.type) := .bind (arg_ordinary hs rfl) .type
      exact .inl (hordinary _ hr)
    · cases h
  | assign =>
    rw [effect, bind_of_ok (entities_apply m)] at h
    rcases bind_ofRule_stuck h with hr | ⟨_, _, h⟩
    · exact assignment_refuses hs hr
    · cases h
  | assigned =>
    rw [effect, bind_of_ok (entities_apply m)] at h
    exact contents_refuses hs (ofRule_stuck h)

/-- A rule that steps no argument refuses a shaped node for an ordinary reason, or for want of a location. -/
theorem applyRule_refuses {op : Operator} (hop : stepsArgument op = false) (hs : op.Shaped params)
    (h : applyRule step advance rounds op params m = .error (.stuck (.rule op reason)) m') :
    reason.isOrdinary = true ∨ Unallocated params (storeMap m.entities) reason := by
  cases op with
  | flow f => exact .inl (flow_refuses hop hs h)
  | effect f => exact effect_refuses hop hs h
  | logic f => exact .inl (logic_ordinary hs _ (ofRule_stuck h))
  | arithmetic f => exact .inl (arithmetic_ordinary hs _ (ofRule_stuck h))
  | composite f => exact .inl (composite_ordinary hs _ (ofRule_stuck h))
  | mapping f => exact .inl (mapping_ordinary hs _ (ofRule_stuck h))
  | collection f =>
    rw [applyRule, bind_of_ok (get_apply m)] at h
    rcases bind_ofRule_stuck h with hr | ⟨⟨t, choices⟩, _, h⟩
    · exact .inl (collection_ordinary hs _ _ hr)
    · cases h

end Engine

end TermMachine
