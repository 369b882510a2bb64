import TermMachine.Proofs.Closed
import TermMachine.Proofs.Fuel

/-!
# Every step comes down

From a closed term in a closed machine, a step that succeeds leads to a closed term in a closed
machine with less left to do: fewer nodes in the term and the input together, or as many nodes in a
smaller term. Reading only moves nodes from the input to the term, so the two are counted together.

The argument goes with the place where the step happens. The step of a part lowers the whole by as
much (`Descends.lift`); running a parameter to its value takes away all of its nodes; and a rule
takes away the node that it replaces. The only step that takes away no node drops a null from the
statements of `sequential`.

Proved: `descends_of_step`, that a step comes down, and `Engine.runWith_descends`, what a run comes to.
-/

namespace TermMachine

open Term Eval Rules

def weight (t : Term) (s : Entities) : Nat := t.nodes + s.inputNodes

/-- `t'` with the entities `s'` is closed and has less left to do than `t` with `s`. -/
structure Descends (t : Term) (s : Entities) (t' : Term) (s' : Entities) : Prop where
  closed : t'.closed = true
  entities : s'.Closed
  input : s'.inputNodes ≤ s.inputNodes
  lower : weight t' s' < weight t s ∨ weight t' s' = weight t s ∧ t'.size < t.size

namespace Descends

variable {t t' u u' : Term} {s s' s'' : Entities}

theorem trans (h₁ : Descends t s t' s') (h₂ : Descends t' s' u s'') : Descends t s u s'' where
  closed := h₂.closed
  entities := h₂.entities
  input := Nat.le_trans h₂.input h₁.input
  lower := by
    have h₁ := h₁.lower
    have h₂ := h₂.lower
    omega

/-- A part that comes down takes the whole with it, if the rest does not grow. -/
theorem lift (h : Descends u s u' s') (hc : t'.closed = true) (hn : t'.nodes + u.nodes ≤ t.nodes + u'.nodes)
    (hsize : t'.size + u.size ≤ t.size + u'.size) : Descends t s t' s' where
  closed := hc
  entities := h.entities
  input := h.input
  lower := by
    have h := h.lower
    unfold weight at h ⊢
    omega

/-- Fewer nodes are enough, whatever the size. -/
theorem of_nodes (hc : t'.closed = true) (hs : s'.Closed) (hin : s'.inputNodes ≤ s.inputNodes)
    (h : t'.nodes + s'.inputNodes < t.nodes + s.inputNodes) : Descends t s t' s' :=
  ⟨hc, hs, hin, Or.inl h⟩

/-- Clearing the signal of `atomic` leaves the input alone. -/
theorem cleared (h : Descends t s t' s') : Descends t s t' (s'.remove Entity.yielded) := by
  have hinput : (s'.remove Entity.yielded).inputNodes = s'.inputNodes := Entities.inputNodes_remove (by decide)
  refine ⟨h.closed, h.entities.remove _, ?_, ?_⟩
  · rw [hinput]
    exact h.input
  · rw [weight, hinput]
    exact h.lower

/-- Binding a value for a step and unbinding it after leaves the input alone. -/
theorem unbound {value : Term} (h : Descends t (s.put Entity.givenValue value) t' s') (hs : s.Closed) :
    Descends t s t' (s'.assign Entity.givenValue (s.find? Entity.givenValue)) := by
  have hname : Entity.givenValue ≠ Entity.standardIn := by decide
  have hin := h.input
  have hlower := h.lower
  simp only [weight, Entities.inputNodes_put hname] at hin hlower
  refine ⟨h.closed, h.entities.assign hs hname, ?_, ?_⟩
  · rw [Entities.inputNodes_assign hname]
    exact hin
  · simp only [weight, Entities.inputNodes_assign hname]
    exact hlower

end Descends

/-- Steps come down from closed terms in closed machines. -/
def Descending (step : Term → Eval Term) : Prop :=
  ∀ t m t' m', t.closed = true → m.entities.Closed → t.isValue = false →
    step t m = .ok t' m' → Descends t m.entities t' m'.entities

namespace Engine

/-! ## Sequences -/

theorem wrap_descends {wrap : List Term → Term} (hwrap : wrap = Term.seq ∨ wrap = Term.spread)
    {before after : List Term} {u next : Term} {s s' : Entities}
    (hc : (wrap (before ++ u :: after)).closed = true) (h : Descends u s next s') :
    Descends (wrap (before ++ u :: after)) s (wrap (flatten (before ++ next :: after))) s' := by
  have hsize := sizeOfAll_flatten (before ++ next :: after)
  have hclosed := h.closed
  rcases hwrap with rfl | rfl
  · refine h.lift ?_ ?_ ?_
    · simp_all [Term.closed, allClosed]
    · simp only [Term.nodes, nodesIn_flatten, nodesIn_append, nodesIn]; omega
    · simp only [Term.size, sizeOfAll_append, sizeOfAll] at hsize ⊢; omega
  · refine h.lift ?_ ?_ ?_
    · simp_all [Term.closed, allClosed]
    · simp only [Term.nodes, nodesIn_flatten, nodesIn_append, nodesIn]; omega
    · simp only [Term.size, sizeOfAll_append, sizeOfAll] at hsize ⊢; omega

theorem mem_wrap {wrap : List Term → Term} (hwrap : wrap = Term.seq ∨ wrap = Term.spread) {items : List Term}
    {u : Term} (hu : u ∈ items) (hc : (wrap items).closed = true) :
    u.closed = true ∧ u.nodes ≤ (wrap items).nodes ∧ u.size < (wrap items).size := by
  have hn := nodes_le_of_mem hu
  have hs := size_le_of_mem hu
  rcases hwrap with rfl | rfl
  · rw [Term.closed, allClosed_iff] at hc
    exact ⟨hc u hu, by simpa [Term.nodes] using hn, by simp only [Term.size]; omega⟩
  · rw [Term.closed, allClosed_iff] at hc
    exact ⟨hc u hu, by simpa [Term.nodes] using hn, by simp only [Term.size]; omega⟩

/-- If nodes come down then so do the sequences around them. -/
theorem stepWith_descends {s : Operator → List Term → Eval Term}
    (hs : ∀ op params m t' m', (Term.node op params).closed = true → m.entities.Closed →
      s op params m = .ok t' m' → Descends (.node op params) m.entities t' m'.entities) :
    Descending (stepWith s) := by
  intro t
  induction hsize : t.size using Nat.strongRecOn generalizing t with
  | ind n ih =>
    intro m t' m' hc hm hv h
    by_cases hseq : t.isSequence = true
    · obtain ⟨wrap, before, u, after, next, m₁, hwrap, rfl, hu, hm₁, hstep, rfl⟩ := stepWith_sequence_ok hseq hv h
      obtain ⟨huc, -, husize⟩ := mem_wrap hwrap (by simp : u ∈ before ++ u :: after) hc
      have hd := ih u.size (by omega) u rfl m₁ next m' huc (hm₁ ▸ hm) hu hstep
      rw [hm₁] at hd
      exact wrap_descends hwrap hc hd
    · cases t with
      | node op params => exact hs op params m t' m' hc hm (by simpa only [stepWith] using h)
      | seq items => exact absurd rfl hseq
      | spread items => exact absurd rfl hseq
      | _ => simp [isValue] at hv

/-! ## Runs -/

theorem advanceWith_descends {step : Term → Eval Term} (hs : Descending step) :
    Descending (advanceWith step) :=
  fun t m t' m' hc hm hv h => hs t m t' m' hc hm hv (advanceWith_ok h)

/-- A run ends with a closed value, which has no nodes, and never adds to the input. -/
theorem runWith_descends {advance : Term → Eval Term} (ha : Descending advance) {rounds : Nat} {t v : Term}
    {m m' : Machine} (hc : t.closed = true) (hm : m.entities.Closed)
    (h : runWith advance rounds t m = .ok v m') :
    v.isValue = true ∧ v.closed = true ∧ m'.entities.Closed ∧
      m'.entities.inputNodes ≤ m.entities.inputNodes := by
  induction rounds generalizing t m with
  | zero =>
    unfold runWith at h
    split at h
    · cases h
      exact ⟨‹_›, hc, hm, Nat.le_refl _⟩
    · cases h
  | succ rounds ih =>
    unfold runWith at h
    split at h
    · cases h
      exact ⟨‹_›, hc, hm, Nat.le_refl _⟩
    · rename_i hv
      obtain ⟨next, m₁, hnext, h⟩ := Eval.bind_eq_ok.mp h
      have hd := ha t m next m₁ hc hm (by simpa using hv) hnext
      obtain ⟨hvalue, hclosed, hm', hin⟩ := ih hd.closed hd.entities h
      exact ⟨hvalue, hclosed, hm', Nat.le_trans hin hd.input⟩

/-! ## Parameters -/

theorem nodesIn_bindTo (ps : List Param) (args : List Term) :
    nodesIn (Construction.bindTo ps args) ≤ nodesIn args := by
  induction ps generalizing args with
  | nil => simp [Construction.bindTo, nodesIn]
  | cons p ps ih =>
    unfold Construction.bindTo
    split
    · have hsplit : nodesIn args = nodesIn (args.take (args.length - ps.length)) +
          nodesIn (args.drop (args.length - ps.length)) := by
        rw [← nodesIn_append, List.take_append_drop]
      simp only [nodesIn, Term.nodes, nodesIn_flatten]
      omega
    · cases args with
      | nil => simp
      | cons arg rest =>
        have := ih rest
        simp only [nodesIn]; omega

theorem allClosed_bindTo (ps : List Param) {args : List Term} (h : allClosed args = true) :
    allClosed (Construction.bindTo ps args) = true := by
  induction ps generalizing args with
  | nil => rfl
  | cons p ps ih =>
    unfold Construction.bindTo
    split
    · have hsplit : allClosed (args.take (args.length - ps.length) ++
          args.drop (args.length - ps.length)) = true := by
        rwa [List.take_append_drop]
      rw [allClosed_append] at hsplit
      simpa only [allClosed, Term.closed, allClosed_flatten] using hsplit
    · cases args with
      | nil => rfl
      | cons arg rest =>
        simp only [allClosed, Bool.and_eq_true] at h ⊢
        exact ⟨h.1, ih h.2⟩

/-- What a parameter at a position contributes to the arguments, with others in the place of one. -/
def argumentsAt (op : Operator) (index : Nat) (replacement : List Term) : Term × Nat → List Term :=
  fun (param, position) =>
    if position = index then replacement
    else if op.params[position]?.any Param.isSequence then param.elements
    else [param]

theorem nodesIn_argumentsAt {op : Operator} {index position : Nat} {replacement : List Term}
    (h : position ≠ index) (t : Term) :
    nodesIn (argumentsAt op index replacement (t, position)) = t.nodes := by
  simp only [argumentsAt, h, if_false]
  split
  · exact nodesIn_elements t
  · simp [nodesIn]

theorem nodesIn_arguments_after {op : Operator} {index first : Nat} {replacement params : List Term}
    (h : index < first) :
    nodesIn ((params.zipIdx first).flatMap (argumentsAt op index replacement)) = nodesIn params := by
  induction params generalizing first with
  | nil => rfl
  | cons t rest ih =>
    have hne : first ≠ index := by omega
    rw [List.zipIdx_cons, List.flatMap_cons, nodesIn_append, nodesIn_argumentsAt hne, ih (by omega), nodesIn]

theorem nodesIn_arguments {op : Operator} {index first : Nat} {replacement params : List Term} {u : Term}
    (hle : first ≤ index) (h : params[index - first]? = some u) :
    nodesIn ((params.zipIdx first).flatMap (argumentsAt op index replacement)) + u.nodes =
      nodesIn params + nodesIn replacement := by
  induction params generalizing first with
  | nil => cases h
  | cons t rest ih =>
    rw [List.zipIdx_cons, List.flatMap_cons, nodesIn_append]
    by_cases hfirst : first = index
    · subst hfirst
      simp only [Nat.sub_self, List.getElem?_cons_zero, Option.some.injEq] at h
      subst h
      rw [nodesIn_arguments_after (by omega)]
      simp only [argumentsAt, if_true, nodesIn]
      omega
    · have hsub : index - first = index - (first + 1) + 1 := by omega
      rw [hsub, List.getElem?_cons_succ] at h
      have := ih (by omega) h
      rw [nodesIn_argumentsAt hfirst]
      simp only [nodesIn]
      omega

/-- Splicing puts the nodes of the replacement in the place of those of the parameter. -/
theorem nodesIn_flattenParams {op : Operator} {params replacement : List Term} {index : Nat} {u : Term}
    (h : params[index]? = some u) :
    nodesIn (Construction.flattenParams op params index replacement) + u.nodes =
      nodesIn params + nodesIn replacement :=
  nodesIn_arguments (Nat.zero_le _) h

theorem allClosed_flattenParams {op : Operator} {params replacement : List Term} {index : Nat}
    (hp : allClosed params = true) (hr : allClosed replacement = true) :
    allClosed (Construction.flattenParams op params index replacement) = true := by
  rw [allClosed_iff]
  intro t ht
  obtain ⟨⟨u, position⟩, hu, ht⟩ := List.mem_flatMap.mp ht
  have huc : u.closed = true := allClosed_iff.mp hp u (List.fst_mem_of_mem_zipIdx hu)
  by_cases hpos : position = index
  · simp only [hpos, if_true] at ht
    exact allClosed_iff.mp hr t ht
  · simp only [hpos, if_false] at ht
    split at ht
    · rw [← allClosed_elements, allClosed_iff] at huc
      exact huc t ht
    · rw [List.mem_singleton.mp ht]
      exact huc

/-- The value of a pending parameter has no nodes, and so the node has fewer. -/
theorem replaceParam_descends {op : Operator} {params : List Term} {index : Nat} {u value next : Term}
    {s : Entities} {m m' : Machine} (hp : allClosed params = true) (hu : params[index]? = some u)
    (hreducible : u.isValue = false) (hvalue : value.isValue = true) (hclosed : value.closed = true)
    (hm : m.entities.Closed) (hin : m.entities.inputNodes ≤ s.inputNodes)
    (h : replaceParam op params index value m = .ok next m') :
    Descends (.node op params) s next m'.entities := by
  have hpos := nodes_pos_of_reducible hreducible
  have hzero := nodes_of_closed_value hclosed hvalue
  obtain ⟨rfl, rfl | ⟨items, rfl, rfl⟩⟩ := replaceParam_ok h
  · have hset := nodesIn_set hu value
    refine .of_nodes ?_ hm hin ?_
    · rw [Term.closed]
      exact allClosed_set hp hclosed index
    · simp only [Term.nodes]; omega
  · rw [Term.nodes] at hzero
    rw [Term.closed] at hclosed
    have hflat : nodesIn (Construction.flattenParams op params index items) + u.nodes =
        nodesIn params + nodesIn items := nodesIn_flattenParams hu
    have hbind := nodesIn_bindTo op.params (Construction.flattenParams op params index items)
    refine .of_nodes ?_ hm hin ?_
    · rw [Term.closed]
      exact allClosed_bindTo _ (allClosed_flattenParams hp hclosed)
    · simp only [Term.nodes]; omega

/-! ## Rules that step an argument -/

/-- What `left-to-right` and `right-to-left` choose is an argument that is not a value. -/
def ChoosesReducible (choose : List Term → Option Nat) : Prop :=
  ∀ items index, choose items = some index → ∃ u, items[index]? = some u ∧ u.isValue = false

theorem firstReducible?_chooses : ChoosesReducible firstReducible? := by
  intro items index h
  obtain ⟨hlt, hred, -⟩ := List.findIdx?_eq_some_iff_getElem.mp h
  refine ⟨items[index], List.getElem?_eq_getElem hlt, ?_⟩
  simpa [isReducible] using hred

theorem lastReducible?_chooses : ChoosesReducible lastReducible? := by
  intro items index h
  obtain ⟨k, hk, rfl⟩ := Option.map_eq_some_iff.mp h
  obtain ⟨hlt, hred, -⟩ := List.findIdx?_eq_some_iff_getElem.mp hk
  rw [List.length_reverse] at hlt
  rw [List.getElem_reverse] at hred
  refine ⟨items[items.length - 1 - k], List.getElem?_eq_getElem (by omega), ?_⟩
  simpa [isReducible] using hred

theorem params_two {params : List Term} {t u : Term} (h₀ : params[0]? = some t) (h₁ : params[1]? = some u) :
    ∃ rest, params = t :: u :: rest := by
  match params with
  | [] => cases h₀
  | [_] => cases h₁
  | _ :: _ :: rest =>
    cases h₀
    cases h₁
    exact ⟨rest, rfl⟩

section
variable {step : Term → Eval Term} (hs : Descending step) {params : List Term} {m m' : Machine} {t' : Term}
  (hc : allClosed params = true) (hm : m.entities.Closed)
include hs hc hm

theorem stepOne_descends {op : Operator} {choose : List Term → Option Nat} (hchoose : ChoosesReducible choose)
    (h : stepOne step op choose params m = .ok t' m') :
    Descends (.node op params) m.entities t' m'.entities := by
  rcases stepOne_cases h with ⟨_, hr⟩ | ⟨items, hitems, ⟨-, hr⟩ | ⟨index, hindex, hr⟩⟩
  · cases hr
  · cases hr
    obtain ⟨hclosed, hnodes⟩ := param_closed hc hitems
    rw [Term.closed] at hclosed
    rw [Term.nodes] at hnodes
    refine .of_nodes (by rwa [closed_ofSequence]) hm (Nat.le_refl _) ?_
    simp only [nodes_ofSequence, Term.nodes]; omega
  · obtain ⟨next, m₁, hstep, hr⟩ := Eval.bind_eq_ok.mp hr.symm
    cases hr
    obtain ⟨u, hu, hreducible⟩ := hchoose items index hindex
    have hget : Sequence.get items index = u := Sequence.get_of_getElem? hu
    obtain ⟨hclosed, hnodes⟩ := param_closed hc hitems
    have hsize := size_le_of_mem (List.mem_of_getElem? hitems)
    rw [Term.closed] at hclosed
    rw [Term.nodes] at hnodes
    rw [Term.size] at hsize
    have hd := hs u m next m' (allClosed_iff.mp hclosed u (List.mem_of_getElem? hu)) hm hreducible (hget ▸ hstep)
    have hset := nodesIn_set hu next
    have hsetSize := sizeOfAll_set hu next
    have hflat := sizeOfAll_flatten (items.set index next)
    refine hd.lift ?_ ?_ ?_
    · simpa [Term.closed, allClosed, Sequence.replace] using allClosed_set hclosed hd.closed index
    · simp only [Term.nodes, nodesIn, Sequence.replace, nodesIn_flatten]; omega
    · simp only [Term.size, sizeOfAll, Sequence.replace]; omega

theorem sequential_descends (h : sequential step params m = .ok t' m') :
    Descends (.node (.flow .sequential) params) m.entities t' m'.entities := by
  rcases sequential_cases h with ⟨_, hr⟩ | ⟨statements, last, hst, hlast, hcase⟩
  · cases hr
  obtain ⟨more, rfl⟩ := params_two hst hlast
  simp only [allClosed, Term.closed, Bool.and_eq_true] at hc
  have hdone : Descends (.node (.flow .sequential) (.seq statements :: last :: more)) m.entities last
      m.entities := by
    refine .of_nodes hc.2.1 hm (Nat.le_refl _) ?_
    simp only [Term.nodes, nodesIn]; omega
  rcases hcase with ⟨-, hr⟩ | ⟨first, rest, rfl, ⟨hfirst, hr⟩ | ⟨-, -, hr⟩ | ⟨rfl, -, hr⟩⟩
  · cases hr
    exact hdone
  · obtain ⟨next, m₁, hstep, hr⟩ := Eval.bind_eq_ok.mp hr.symm
    cases hr
    have hclosed := hc.1
    rw [allClosed, Bool.and_eq_true] at hclosed
    have hd := hs first m next m' hclosed.1 hm hfirst hstep
    have hflat := sizeOfAll_flatten (next :: rest)
    refine hd.lift ?_ ?_ ?_
    · simp [Term.closed, allClosed, Sequence.replace, hd.closed, hclosed.2, hc.2.1]
    · simp only [Term.nodes, nodesIn, Sequence.replace, nodesIn_flatten, List.set_cons_zero]; omega
    · simp only [Term.size, sizeOfAll, Sequence.replace, List.set_cons_zero] at hflat ⊢; omega
  · cases hr
    exact hdone
  · cases hr
    refine ⟨?_, hm, Nat.le_refl _, ?_⟩
    · have hclosed := hc.1
      rw [allClosed, Bool.and_eq_true] at hclosed
      simp [Term.closed, allClosed, hclosed.2, hc.2.1]
    · -- Only here are there as many nodes as before, and a null less.
      simp only [weight, Term.nodes, nodesIn, Term.size, sizeOfAll]; omega

theorem give_descends (hvalue : Evaluated (.effect .give) params) (h : give step params m = .ok t' m') :
    Descends (.node (.effect .give) params) m.entities t' m'.entities := by
  rcases give_cases h with ⟨_, hr⟩ | ⟨value, body, hv, hb, hcase⟩
  · cases hr
  obtain ⟨more, rfl⟩ := params_two hv hb
  simp only [allClosed, Bool.and_eq_true] at hc
  rcases hcase with ⟨-, hr⟩ | ⟨hbody, hr⟩
  · cases hr
    refine .of_nodes hc.2.1 hm (Nat.le_refl _) ?_
    simp only [Term.nodes, nodesIn]; omega
  · obtain ⟨next, m₁, hgiven, hr⟩ := Eval.bind_eq_ok.mp hr.symm
    cases hr
    obtain ⟨m₂, hstep, rfl⟩ := withGiven_eq_ok.mp hgiven
    have hzero : value.nodes = 0 := hvalue 0 .eager value rfl rfl rfl
    have hd := hs body { m with entities := m.entities.put Entity.givenValue value } next m₂ hc.2.1
      (hm.put hzero) hbody hstep
    refine (hd.unbound hm).lift ?_ ?_ ?_
    · simp [Term.closed, allClosed, hc.1, hd.closed]
    · simp only [Term.nodes, nodesIn]; omega
    · simp only [Term.size, sizeOfAll]; omega

omit hc in
/-- `atomic` comes down with its body, step after step. -/
theorem atomicWithin_descends {rounds : Nat} {body : Term} (hbody : body.closed = true)
    (hv : body.isValue = false) (h : atomicWithin step rounds body m = .ok t' m') :
    ∃ last, Descends body m.entities last m'.entities ∧ (t' = last ∨ t' = .node (.effect .atomic) [last]) := by
  induction rounds generalizing body m with
  | zero =>
    unfold atomicWithin at h
    simp only [hv] at h
    cases h
  | succ rounds ih =>
    unfold atomicWithin at h
    simp only [hv, Bool.false_eq_true, if_false] at h
    obtain ⟨next, m₁, hnext, h⟩ := Eval.bind_eq_ok.mp h
    have hd := hs body m next m₁ hbody hm hv hnext
    obtain ⟨raised, m₂, hraised, h⟩ := Eval.bind_eq_ok.mp h
    cases hraised
    have hcleared := hd.cleared
    split at h
    · cases h
      refine ⟨next, hcleared, ?_⟩
      split
      · exact Or.inl rfl
      · exact Or.inr rfl
    · rcases hnv : next.isValue with _ | _
      · obtain ⟨last, hlast, ht'⟩ := ih hcleared.entities hd.closed hnv h
        exact ⟨last, hcleared.trans hlast, ht'⟩
      · unfold atomicWithin at h
        simp only [hnv, if_true] at h
        cases h
        exact ⟨_, hcleared, Or.inl rfl⟩

theorem atomic_descends {other : Term → Eval Term} {rounds : Nat}
    (h : effect other step rounds .atomic params m = .ok t' m') :
    Descends (.node (.effect .atomic) params) m.entities t' m'.entities := by
  obtain ⟨body, m₁, hrule, hloop⟩ := Eval.bind_eq_ok.mp h
  obtain ⟨harg, rfl⟩ := ofRule_eq_ok.mp hrule
  have hbody := arg_eq_ok.mp harg
  obtain ⟨hclosed, hnodes⟩ := param_closed hc hbody
  have hsize := size_le_of_mem (List.mem_of_getElem? hbody)
  rcases hv : body.isValue with _ | _
  · obtain ⟨last, hd, rfl | rfl⟩ := atomicWithin_descends hs hm hclosed hv hloop
    · have hlower := hd.lower
      refine .of_nodes hd.closed hd.entities hd.input ?_
      simp only [weight, Term.nodes] at hlower ⊢; omega
    · refine hd.lift ?_ ?_ ?_
      · simp [Term.closed, allClosed, hd.closed]
      · simp only [Term.nodes, nodesIn]; omega
      · simp only [Term.size, sizeOfAll]; omega
  · unfold atomicWithin at hloop
    simp only [hv, if_true] at hloop
    cases hloop
    refine .of_nodes hclosed hm (Nat.le_refl _) ?_
    simp only [Term.nodes]; omega

end

theorem applyRule_descends {step advance : Term → Eval Term} (hs : Descending step) (ha : Descending advance)
    {rounds : Nat} {op : Operator} {params : List Term} {m m' : Machine} {t' : Term}
    (hc : allClosed params = true) (hm : m.entities.Closed) (hp : Evaluated op params)
    (h : applyRule step advance rounds op params m = .ok t' m') :
    Descends (.node op params) m.entities t' m'.entities := by
  by_cases hstep : stepsArgument op = true
  · unfold stepsArgument at hstep
    split at hstep
    · exact stepOne_descends hs hc hm firstReducible?_chooses h
    · exact stepOne_descends hs hc hm lastReducible?_chooses h
    · exact sequential_descends hs hc hm h
    · exact give_descends hs hc hm hp h
    · exact atomic_descends ha hc hm (show effect step advance rounds .atomic params m = _ from h)
    · cases hstep
  · rcases applyRule_cases (by simpa using hstep) h with ⟨_, hr⟩ | ⟨t, m₁, hfired, hr⟩
    · cases hr
    · cases hr
      obtain ⟨hclosed, hm', hin, hnodes⟩ := hfired.closed hm hc hp
      refine .of_nodes hclosed hm' hin ?_
      simp only [Term.nodes]; omega

/-! ## Steps -/

theorem stepNode_descends {fuel : Nat} (hs : Descending (stepFor fuel)) {op : Operator} {params : List Term}
    {m m' : Machine} {t' : Term} (hc : allClosed params = true) (hm : m.entities.Closed)
    (h : stepNode (fuel + 1) op params m = .ok t' m') :
    Descends (.node op params) m.entities t' m'.entities := by
  have ha := advanceWith_descends hs
  rcases stepNode_ok h with ⟨index, u, value, m₁, m₂, hmem, hm₁, hrun, hreplace⟩ | ⟨hpending, hrule⟩
  · obtain ⟨p, -, -, hu, hreducible⟩ := mem_pending.mp hmem
    have huc := (param_closed hc hu).1
    obtain ⟨hvalue, hclosed, hm₂, hin⟩ := runWith_descends ha huc (hm₁ ▸ hm) hrun
    rw [hm₁] at hin
    exact replaceParam_descends hc hu hreducible hvalue hclosed hm₂ hin hreplace
  · exact applyRule_descends (m := { m with steps := m.steps + 1 }) hs ha hc hm
      (evaluated_of_pending hpending hc) hrule

theorem stepFor_descends (fuel : Nat) : Descending (stepFor fuel) := by
  induction fuel with
  | zero => exact stepWith_descends fun op params m t' m' hc hm h => by cases h
  | succ fuel ih =>
    refine stepWith_descends fun op params m t' m' hc hm h => ?_
    rw [Term.closed] at hc
    exact stepNode_descends ih hc hm h

theorem advanceFor_descends (fuel : Nat) : Descending (advanceFor fuel) :=
  advanceWith_descends (stepFor_descends fuel)

end Engine

/-- A step that succeeds comes down. -/
theorem descends_of_step {t t' : Term} {m m' : Machine} (hc : t.closed = true) (hm : m.entities.Closed)
    (hv : t.isValue = false) (h : step t m = .ok t' m') : Descends t m.entities t' m'.entities := by
  obtain ⟨fuel, hfuel⟩ := step_eq_ok.mp h
  exact Engine.stepFor_descends fuel t m t' m' hc hm hv hfuel

end TermMachine
