import TermMachine.Proofs.Descent
import TermMachine.Proofs.NodeShape
import TermMachine.Proofs.RoundTrip

/-!
# Binding and splicing

`Construction.bind` cuts an argument list into parameters, `Construction.flattenParams` puts the parameters together again
with others in the place of one. Parameters hold their arguments in order, so the arguments before a parameter are those
of the parameters before it.

Proved:
* `bound_bindTo`: arguments that fit are bound to parameters that hold these arguments.
* `flattenParams_eq`: splicing replaces the argument of one parameter and leaves the others.
* `bind_and_splice`: together, neither loses, doubles nor moves an argument.
-/

namespace TermMachine

namespace Operator

/-- The number of arguments fits the parameters: one for each of them, or if one of them takes a run, at least one for each
of the others. -/
def Fits (op : Operator) (count : Nat) : Prop :=
  if op.params.any Param.isSequence then op.params.countP (!·.isSequence) ≤ count else count = op.params.length

end Operator

namespace Construction

open Engine (argumentsAt)

theorem length_eq_runs_add_fixed (ps : List Param) :
    ps.length = ps.countP Param.isSequence + ps.countP (!·.isSequence) := by
  simpa using List.length_eq_countP_add_countP Param.isSequence (l := ps)

/-- All but one of the parameters are fixed if one of them takes a run. -/
theorem countP_fixed {ps : List Param} (hany : ps.any Param.isSequence = true) (hone : ps.countP Param.isSequence ≤ 1) :
    ps.countP (!·.isSequence) = ps.length - 1 := by
  have hsum := length_eq_runs_add_fixed ps
  have hpos : 0 < ps.countP Param.isSequence := by
    obtain ⟨p, hp, hrun⟩ := List.any_eq_true.mp hany
    exact List.countP_pos_iff.mpr ⟨p, hp, hrun⟩
  omega

theorem admits_iff_fits (op : Operator) (count : Nat) : op.arity.admits count = true ↔ op.Fits count := by
  unfold Operator.arity Operator.Fits
  split
  · rw [countP_fixed ‹_› op.countP_isSequence_le]
    simp [Arity.admits]
  · simp [Arity.admits]

theorem bind_isOk_iff_fits (op : Operator) (args : List Term) :
    (∃ params, bind op args = .ok params) ↔ op.Fits args.length := by
  rw [← admits_iff_fits]
  unfold bind
  split
  · exact ⟨fun _ => ‹_›, fun _ => ⟨_, rfl⟩⟩
  · exact ⟨fun ⟨_, h⟩ => (nomatch h), fun h => absurd h ‹_›⟩

/-! ## Binding -/

theorem bound_of_no_run {ps : List Param} {args : List Term} (hps : ps.countP Param.isSequence = 0)
    (hlen : args.length = ps.length) : Bound ps args := by
  induction ps generalizing args with
  | nil =>
    obtain rfl := List.eq_nil_of_length_eq_zero hlen
    exact .nil
  | cons p ps ih =>
    cases args with
    | nil => cases hlen
    | cons arg rest =>
      rcases hp : p.isSequence with _ | _
      · exact .single arg hp (ih (by simpa [List.countP_cons, hp] using hps) (Nat.succ.inj hlen))
      · simp [hp] at hps

/-- The arguments before the run are given out one by one, the run takes what those behind it leave. -/
theorem bound_bindTo {ps : List Param} {args : List Term} (hone : ps.countP Param.isSequence ≤ 1)
    (hfixed : ps.countP (!·.isSequence) ≤ args.length)
    (hall : ps.countP Param.isSequence = 0 → args.length = ps.length) (hargs : ∀ t ∈ args, t.isSequence = false) :
    Bound ps (bindTo ps args) ∧ argumentsOf ps (bindTo ps args) = args := by
  induction ps generalizing args with
  | nil =>
    obtain rfl := List.eq_nil_of_length_eq_zero (hall rfl)
    exact ⟨.nil, rfl⟩
  | cons p ps ih =>
    rcases hp : p.isSequence with _ | _
    · simp only [List.countP_cons, hp, Bool.not_false, Bool.false_eq_true, if_true, if_false, Nat.add_zero]
        at hone hfixed hall
      cases args with
      | nil => cases hfixed
      | cons arg rest =>
        simp only [List.length_cons, Nat.add_le_add_iff_right, Nat.add_right_cancel_iff] at hfixed hall
        obtain ⟨hbound, harguments⟩ := ih hone hfixed hall fun t ht => hargs t (.tail _ ht)
        simp only [bindTo, hp, Bool.false_eq_true, if_false, argumentsOf, harguments]
        exact ⟨.single arg hp hbound, rfl⟩
    · simp only [List.countP_cons, hp, Bool.not_true, Bool.false_eq_true, if_true, if_false, Nat.add_zero] at hone hfixed
      have hrest : ps.countP Param.isSequence = 0 := by omega
      have hlen : (args.drop (args.length - ps.length)).length = ps.length := by
        have hsum := length_eq_runs_add_fixed ps
        rw [List.length_drop]
        omega
      have hbound := bound_of_no_run hrest hlen
      have hitems : ∀ t ∈ args.take (args.length - ps.length), t.isSequence = false :=
        fun t ht => hargs t (List.mem_of_mem_take ht)
      simp only [bindTo, hp, if_true, Term.flatten_of_no_sequence hitems, argumentsOf, Term.elements,
        argumentsOf_of_no_run hbound hrest, List.take_append_drop]
      exact ⟨.run hp hitems hbound, trivial⟩

/-- Arguments that are bound are held by the parameters. -/
theorem bound_of_bind {op : Operator} {args params : List Term} (h : bind op args = .ok params)
    (hargs : ∀ t ∈ args, t.isSequence = false) : Bound op.params params ∧ argumentsOf op.params params = args := by
  have hfits : op.Fits args.length := (bind_isOk_iff_fits op args).mp ⟨params, h⟩
  obtain rfl := bind_eq_ok h
  unfold Operator.Fits at hfits
  refine bound_bindTo op.countP_isSequence_le ?_ (fun hnone => ?_) hargs
  · split at hfits
    · exact hfits
    · rw [hfits]
      exact List.countP_le_length
  · rwa [if_neg] at hfits
    rw [List.any_eq_true]
    rintro ⟨p, hp, hrun⟩
    exact List.countP_eq_zero.mp hnone p hp hrun

/-! ## Splicing -/

theorem argumentsOf_append {ps qs : List Param} {ts us : List Term} (hlen : ts.length = ps.length) :
    argumentsOf (ps ++ qs) (ts ++ us) = argumentsOf ps ts ++ argumentsOf qs us := by
  induction ps generalizing ts with
  | nil =>
    obtain rfl := List.eq_nil_of_length_eq_zero hlen
    rfl
  | cons p ps ih =>
    cases ts with
    | nil => cases hlen
    | cons t ts =>
      simp only [List.cons_append, argumentsOf, ih (Nat.succ.inj hlen), List.append_assoc]

/-- Where nothing is replaced, parameters give the arguments that they hold. -/
theorem flatMap_argumentsAt {op : Operator} {index first : Nat} {replacement : List Term} {ps : List Param}
    {ts : List Term} (hlen : ts.length = ps.length) (hshape : ∀ k < ps.length, op.params[first + k]? = ps[k]?)
    (hindex : index < first ∨ first + ts.length ≤ index) :
    (ts.zipIdx first).flatMap (argumentsAt op index replacement) = argumentsOf ps ts := by
  induction ts generalizing first ps with
  | nil =>
    obtain rfl := List.eq_nil_of_length_eq_zero hlen.symm
    rfl
  | cons t ts ih =>
    cases ps with
    | nil => cases hlen
    | cons p ps =>
      rw [List.length_cons] at hindex
      have hfirst : op.params[first]? = some p := hshape 0 (Nat.zero_lt_succ _)
      have hne : first ≠ index := by omega
      have hrest := @ih (first + 1) ps (Nat.succ.inj hlen) (fun k hk => ?_) (by omega)
      · rw [List.zipIdx_cons, List.flatMap_cons, hrest]
        simp only [argumentsAt, hne, if_false, hfirst, Option.any_some, argumentsOf]
      · have := hshape (k + 1) (Nat.succ_lt_succ hk)
        rwa [← Nat.add_assoc, Nat.add_right_comm] at this

/-- Splicing replaces the argument of a parameter and leaves those of the others. -/
theorem flattenParams_eq {op : Operator} {params : List Term} {index : Nat} {t : Term}
    (hlen : params.length = op.params.length) (ht : params[index]? = some t) (replacement : List Term) :
    flattenParams op params index replacement =
      argumentsOf (op.params.take index) (params.take index) ++ replacement ++
        argumentsOf (op.params.drop (index + 1)) (params.drop (index + 1)) := by
  obtain ⟨hlt, rfl⟩ := List.getElem?_eq_some_iff.mp ht
  have hsplit : params = params.take index ++ params[index] :: params.drop (index + 1) := by
    rw [List.getElem_cons_drop, List.take_append_drop]
  have hbefore : (params.take index).length = index := List.length_take_of_le (Nat.le_of_lt hlt)
  show params.zipIdx.flatMap (argumentsAt op index replacement) = _
  conv => lhs; rw [hsplit]
  rw [List.zipIdx_append, List.flatMap_append, List.zipIdx_cons, List.flatMap_cons, hbefore, List.append_assoc]
  congr 1
  · refine flatMap_argumentsAt (by simp [hlen]) (fun k hk => ?_) (.inr (by omega))
    rw [List.length_take] at hk
    rw [Nat.zero_add, List.getElem?_take_of_lt (by omega)]
  · congr 1
    · simp [argumentsAt]
    · refine flatMap_argumentsAt (by simp [hlen]) (fun k hk => ?_) (.inl (by omega))
      rw [List.getElem?_drop, Nat.zero_add]

/-- A parameter that takes one argument stands for it. -/
theorem argumentsOf_split {op : Operator} {params : List Term} {index : Nat} {p : Param} {t : Term}
    (hlen : params.length = op.params.length) (hp : op.params[index]? = some p) (hfixed : p.isSequence = false)
    (ht : params[index]? = some t) : argumentsOf op.params params =
      argumentsOf (op.params.take index) (params.take index) ++ [t] ++
        argumentsOf (op.params.drop (index + 1)) (params.drop (index + 1)) := by
  obtain ⟨hlt, rfl⟩ := List.getElem?_eq_some_iff.mp ht
  obtain ⟨hlt', rfl⟩ := List.getElem?_eq_some_iff.mp hp
  conv =>
    lhs
    rw [← List.take_append_drop index op.params, ← List.take_append_drop index params]
    rw [← List.getElem_cons_drop hlt, ← List.getElem_cons_drop hlt']
  rw [argumentsOf_append (by simp [hlen]), argumentsOf, hfixed, List.append_assoc]
  rfl

/-! ## Both together -/

/-- A parameter that takes a run holds one. -/
theorem bound_run {ps : List Param} {ts : List Term} {index : Nat} {p : Param} (h : Bound ps ts) (hp : ps[index]? = some p)
    (hrun : p.isSequence = true) : ∃ items, ts[index]? = some (.seq items) := by
  induction h generalizing index with
  | nil => cases hp
  | single t hsingle _ ih =>
    cases index with
    | zero =>
      cases hp
      rw [hsingle] at hrun
      cases hrun
    | succ index => exact ih hp
  | run _ _ _ ih =>
    cases index with
    | zero => exact ⟨_, rfl⟩
    | succ index => exact ih hp

/-- Arguments without sequences are bound exactly if their number fits. There is then one parameter for each that is declared,
a sequence where a run is taken, and a parameter that takes one argument, put in its own place, gives back the arguments.

In turn, if parameters hold what is declared, then any list can be put in the place of one that takes one argument: it stands
where that argument stood among those that the others hold. This is bound exactly if its number fits, and if the
argument itself is put there, to the same parameters. -/
theorem bind_and_splice (op : Operator) :
    (∀ args : List Term, (∀ t ∈ args, t.isSequence = false) →
      ((∃ params, bind op args = .ok params) ↔ op.Fits args.length) ∧
      ∀ params, bind op args = .ok params →
        params.length = op.params.length ∧
        (∀ (i : Nat) p, op.params[i]? = some p → p.isSequence = true → ∃ items, params[i]? = some (.seq items)) ∧
        ∀ (i : Nat) p, op.params[i]? = some p → p.isSequence = false →
          ∃ t, params[i]? = some t ∧ flattenParams op params i [t] = args) ∧
    ∀ params : List Term, Bound op.params params → ∀ (i : Nat) p, op.params[i]? = some p → p.isSequence = false →
      ∃ t, params[i]? = some t ∧
        argumentsOf op.params params = argumentsOf (op.params.take i) (params.take i) ++ [t] ++
          argumentsOf (op.params.drop (i + 1)) (params.drop (i + 1)) ∧
        (∀ r, flattenParams op params i r = argumentsOf (op.params.take i) (params.take i) ++ r ++
          argumentsOf (op.params.drop (i + 1)) (params.drop (i + 1))) ∧
        (∀ r, (∃ params', bind op (flattenParams op params i r) = .ok params') ↔
          op.Fits (flattenParams op params i r).length) ∧
        bind op (flattenParams op params i [t]) = .ok params := by
  -- put in its own place, an argument stays where it is
  have hsplice : ∀ {params : List Term}, Bound op.params params →
      ∀ {i : Nat} {p}, op.params[i]? = some p → p.isSequence = false →
      ∃ t, params[i]? = some t ∧ flattenParams op params i [t] = argumentsOf op.params params := by
    intro params hbound i p hp hfixed
    obtain ⟨hlt, -⟩ := List.getElem?_eq_some_iff.mp hp
    obtain ⟨t, ht⟩ : ∃ t, params[i]? = some t := ⟨_, List.getElem?_eq_getElem (hbound.length_eq ▸ hlt)⟩
    exact ⟨t, ht, by rw [flattenParams_eq hbound.length_eq ht, argumentsOf_split hbound.length_eq hp hfixed ht]⟩
  refine ⟨fun args hargs => ⟨bind_isOk_iff_fits op args, fun params hbind => ?_⟩, fun params hbound i p hp hfixed => ?_⟩
  · obtain ⟨hbound, harguments⟩ := bound_of_bind hbind hargs
    refine ⟨hbound.length_eq, fun i p hp hrun => bound_run hbound hp hrun, fun i p hp hfixed => ?_⟩
    rw [← harguments]
    exact hsplice hbound hp hfixed
  · obtain ⟨t, ht, hown⟩ := hsplice hbound hp hfixed
    refine ⟨t, ht, argumentsOf_split hbound.length_eq hp hfixed ht, flattenParams_eq hbound.length_eq ht,
      fun r => bind_isOk_iff_fits op _, ?_⟩
    rw [hown]
    exact bind_argumentsOf hbound

/-- `index(2,10,20)`: the run takes what is behind the first argument, and `4, 5` in its place push one argument into
the run. -/
theorem bind_and_splice_index :
    let op : Operator := .composite .index
    let params : List Term := [.int 2, .seq [.int 10, .int 20]]
    bind op [.int 2, .int 10, .int 20] = .ok params ∧ flattenParams op params 0 [.int 2] = [.int 2, .int 10, .int 20] ∧
      flattenParams op params 0 [.int 4, .int 5] = [.int 4, .int 5, .int 10, .int 20] ∧
      bind op (flattenParams op params 0 [.int 2]) = .ok params := by
  intro op params
  have hbind : bind op [.int 2, .int 10, .int 20] = .ok params := by rfl
  have hbound : Bound op.params params := .single _ rfl (.run rfl (by simp [Term.isSequence]) .nil)
  obtain ⟨hback, hsplice⟩ := bind_and_splice op
  obtain ⟨t, ⟨⟩, hargs⟩ := ((hback [.int 2, .int 10, .int 20] (by simp [Term.isSequence])).2 params hbind).2.2 0 _ rfl rfl
  obtain ⟨t, ⟨⟩, -, hreplaced, -, hagain⟩ := hsplice params hbound 0 _ rfl rfl
  exact ⟨hbind, hargs, hreplaced _, hagain⟩

end Construction

end TermMachine
