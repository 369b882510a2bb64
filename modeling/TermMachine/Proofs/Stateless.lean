import TermMachine.Proofs.FlatTerms
import TermMachine.Proofs.Rollback
import TermMachine.Proofs.Settling
import TermMachine.Proofs.Termination

/-!
# Terms that do not look at the state

A rule looks at the state only if it draws a choice or is one of those on entities. A term without them is pure, and comes
to the same on every machine without a step limit: nothing of the machine decides what is done, and nothing is left behind
but the number of steps. `give` may stay. It binds a value that nobody asks for, and what was bound before comes back to the
same place.

`Stateless` says this of a computation with a given amount of fuel. It is closed under the ways in which the engine puts
computations together, so a step is stateless by induction on the fuel. A run compares a term with the one before, to detect
that it stalls, and must know that the next term is pure as well. Both are read off one machine with no entities at all: on
it every step comes down (`Descent`) and keeps to a discipline (`Upkeep`), and any other machine does the same. The fuel that
is enough is read off that machine too (`Termination`).

Proved:
* `Stateless.bind`, `Stateless.speculate`, `Stateless.withGiven`: the laws.
* `stepNode_stateless`, by induction on the fuel.
* `Term.Tame.moves_or_jams`, `Term.Tame.runs_or_sticks`: what a step and a run of a pure term come to, on all machines.
-/

namespace TermMachine

open Term Eval Rules

/-! ## Pure terms -/

/-- The operators whose rule draws a choice, or reads or changes an entity. -/
def Operator.isImpure : Operator → Bool
  | .flow .choice | .collection .someElement => true
  | .effect .atomic | .effect .yield | .effect .yieldOnValue => true
  | .effect .given | .effect .print | .effect .read => true
  | .effect .useAtomNotIn | .effect .allocateVariable | .effect .assign | .effect .assigned => true
  | _ => false

def Term.Pure (t : Term) : Prop := ∀ op params, .node op params ∈ t.parts → op.isImpure = false

instance (t : Term) : Decidable t.Pure :=
  decidable_of_iff (∀ u ∈ t.parts, (match u with | .node op _ => op.isImpure | _ => false) = false) <| by
    constructor
    · intro h op params hmem
      exact h _ hmem
    · intro h u hu
      cases u with
      | node op params => exact h op params hu
      | _ => rfl

/-- To be pure, as a discipline. Nothing is asked but of operators. -/
def pureNodes : Discipline Unit where
  element _ := True
  node op _ := op.isImpure = false
  data _ _ _ := True
  type _ := True
  ledger _ _ _ := True
  excuse _ := True
  element_of_not_isSequence _ := trivial
  node_update h _ := h
  data_mono _ _ := trivial
  data_other _ _ _ := trivial
  data_named _ _ _ _ := trivial
  ledger_use _ _ := trivial
  ledger_allocate _ _ := Discipline.same_world _
  ledger_assign _ _ _ _ _ := trivial
  excuse_ordinary _ := trivial
  excuse_malformed _ _ _ := trivial
  excuse_unallocated _ _ _ := trivial

theorem admits_pureNodes {w : Unit} {t : Term} : pureNodes.Admits w t ↔ t.Pure := by
  constructor
  · intro h op params hmem
    exact h _ hmem
  · intro h u hu
    cases u with
    | node op params => exact h op params hu
    | _ => simp [Discipline.Fits, pureNodes]

/-- A pure term as reading makes it: flat, and with no node in a collection. -/
structure Term.Tame (t : Term) : Prop where
  pure : t.Pure
  flat : t.Flat
  closed : t.closed = true

theorem Term.Tame.of_readTerm {source : String} {t : Term} (h : readTerm source = .ok t) (hpure : t.Pure) : t.Tame :=
  ⟨hpure, flat_of_readTerm h, closed_of_readTerm h⟩

namespace Term.Tame

variable {t u : Term}

theorem part (h : t.Tame) (hu : u ∈ t.parts) : u.Tame where
  pure op params hmem := h.pure op params (parts_trans hu hmem)
  flat v hv := h.flat v (parts_trans hu hv)
  closed := closed_of_mem_parts h.closed hu

theorem item {items : List Term} (h : (Term.seq items).Tame) (hu : u ∈ items) : u.Tame :=
  h.part (mem_parts_seq.mpr (.inr ⟨u, hu, mem_parts_self u⟩))

theorem spreadItem {items : List Term} (h : (Term.spread items).Tame) (hu : u ∈ items) : u.Tame :=
  h.part (mem_parts_spread.mpr (.inr ⟨u, hu, mem_parts_self u⟩))

theorem param {op : Operator} {params : List Term} (h : (Term.node op params).Tame) (hu : u ∈ params) : u.Tame :=
  h.part (mem_parts_node.mpr (.inr ⟨u, hu, mem_parts_self u⟩))

theorem isPure {op : Operator} {params : List Term} (h : (Term.node op params).Tame) : op.isImpure = false :=
  h.pure op params (mem_parts_self _)

end Term.Tame

/-! ## Stateless computations -/

def Machine.after (m : Machine) (count : Nat) : Machine := { m with steps := m.steps + count }

theorem Machine.after_after (m : Machine) (n k : Nat) : (m.after n).after k = m.after (n + k) := by
  simp [Machine.after, Nat.add_assoc]

theorem Quiet.after (m : Machine) (count : Nat) : Quiet m (m.after count) := ⟨rfl, rfl, rfl⟩

namespace Eval

variable {α β : Type}

/-- A computation comes to the same on every machine without a step limit and leaves nothing behind; a result of it is as
`P` says. -/
inductive Stateless (P : α → Prop) (x : Eval α) : Prop
  | ok (a : α) (count : Nat) : P a → (∀ m, m.config.stepLimit = none → x m = .ok a (m.after count)) → Stateless P x
  | stuck (cause : Stuck) (count : Nat) :
      (∀ m, m.config.stepLimit = none → x m = .error (.stuck cause) (m.after count)) → Stateless P x
  | outOfFuel (count : Nat) :
      (∀ m, m.config.stepLimit = none → x m = .error .outOfFuel (m.after count)) → Stateless P x

namespace Stateless

variable {P Q : α → Prop} {x : Eval α}

theorem of_pure {a : α} (h : P a) : Stateless P (pure a) := .ok a 0 h fun _ _ => rfl

theorem of_stuck (cause : Stuck) : Stateless P (Eval.stuck cause) := .stuck cause 0 fun _ _ => rfl

theorem of_outOfFuel : Stateless P (throw .outOfFuel) := .outOfFuel 0 fun _ _ => rfl

theorem of_rule (op : Operator) (r : Except Reason α) : Stateless (fun a => r = .ok a) (ofRule op r) := by
  cases r with
  | ok a => exact of_pure rfl
  | error reason => exact of_stuck _

theorem charge : Stateless (fun _ => True) charge := .ok () 1 trivial fun _ hm => charge_unlimited hm

theorem imp (h : Stateless P x) (hPQ : ∀ a, P a → Q a) : Stateless Q x := by
  cases h with
  | ok a n ha hx => exact .ok a n (hPQ a ha) hx
  | stuck cause n hx => exact .stuck cause n hx
  | outOfFuel n hx => exact .outOfFuel n hx

theorem bind {Q : β → Prop} {f : α → Eval β} (hx : Stateless P x) (hf : ∀ a, P a → Stateless Q (f a)) :
    Stateless Q (x >>= f) := by
  cases hx with
  | ok a n ha hx =>
    have hthen : ∀ m, m.config.stepLimit = none → (x >>= f) m = f a (m.after n) := fun m hm => bind_of_ok (hx m hm)
    cases hf a ha with
    | ok b k hb hf =>
      refine .ok b (n + k) hb fun m hm => ?_
      rw [hthen m hm, hf (m.after n) hm, m.after_after]
    | stuck cause k hf =>
      refine .stuck cause (n + k) fun m hm => ?_
      rw [hthen m hm, hf (m.after n) hm, m.after_after]
    | outOfFuel k hf =>
      refine .outOfFuel (n + k) fun m hm => ?_
      rw [hthen m hm, hf (m.after n) hm, m.after_after]
  | stuck cause n hx => exact .stuck cause n fun m hm => bind_of_error (hx m hm)
  | outOfFuel n hx => exact .outOfFuel n fun m hm => bind_of_error (hx m hm)

/-- There is nothing to take back after an attempt. -/
theorem speculate (hx : Stateless P x) : Stateless (fun r => ∀ a, r = .ok a → P a) (speculate x) := by
  cases hx with
  | ok a n ha hx =>
    refine .ok (.ok a) n ?_ fun m hm => speculate_eq_ok.mpr (.inl ⟨a, rfl, hx m hm⟩)
    rintro _ ⟨rfl⟩
    exact ha
  | stuck cause n hx =>
    refine .ok (.error cause) n (by simp) fun m hm => ?_
    exact speculate_eq_ok.mpr (.inr ⟨cause, m.after n, rfl, hx m hm, rfl⟩)
  | outOfFuel n hx => exact .outOfFuel n fun m hm => speculate_eq_error.mpr ⟨hx m hm, by simp⟩

/-- What was given before comes back to its place. -/
theorem withGiven {value : Term} (hx : Stateless P x) : Stateless P (withGiven value x) := by
  have hunbound : ∀ (m : Machine) (count : Nat),
      { Machine.after { m with entities := m.entities.put Entity.givenValue value } count with
        entities := Entities.assign (m.entities.put Entity.givenValue value) Entity.givenValue
          (m.entities.find? Entity.givenValue) } = m.after count := by
    intro m count
    rw [Entities.assign_put_find?]
    rfl
  cases hx with
  | ok a n ha hx => exact .ok a n ha fun m hm => withGiven_eq_ok.mpr ⟨_, hx _ hm, (hunbound m n).symm⟩
  | stuck cause n hx => exact .stuck cause n fun m hm => withGiven_eq_error.mpr ⟨_, hx _ hm, (hunbound m n).symm⟩
  | outOfFuel n hx => exact .outOfFuel n fun m hm => withGiven_eq_error.mpr ⟨_, hx _ hm, (hunbound m n).symm⟩

end Stateless

end Eval

namespace Rules

/-- A rule on sets that draws no choice, and does not look at the stream. -/
def Undrawn (rule : ChoiceStream → Result (Term × ChoiceStream)) : Prop :=
  ∃ r : Result Term, ∀ choices, rule choices = r.map fun t => (t, choices)

theorem Undrawn.pure (t : Term) : Undrawn fun choices => pure (t, choices) := ⟨.ok t, fun _ => rfl⟩

theorem Undrawn.bind {α : Type} (x : Result α) {rule : α → ChoiceStream → Result (Term × ChoiceStream)}
    (h : ∀ a, Undrawn (rule a)) : Undrawn fun choices => x >>= fun a => rule a choices := by
  cases x with
  | ok a => exact h a
  | error reason => exact ⟨.error reason, fun _ => rfl⟩

/-- Of the rules on sets, only `some-element` draws. -/
theorem collection_undrawn {op : Operator.Collection} (hop : (Operator.collection op).isImpure = false)
    (params : List Term) : Undrawn (collection op params) := by
  cases op with
  | someElement => cases hop
  | empty => exact .pure _
  | set => exact .bind _ fun _ => .pure _
  | elements | unite | size => exact .bind _ fun _ => .bind _ fun _ => .pure _
  | isIn | insert => exact .bind _ fun _ => .bind _ fun _ => .bind _ fun _ => .pure _
  | difference => exact .bind _ fun _ => .bind _ fun _ => .bind _ fun _ => .bind _ fun _ => .pure _
  | elementNotIn =>
    exact .bind _ fun _ => .bind _ fun _ => .bind _ fun _ => .bind _ fun _ => .bind _ fun _ => .pure _

end Rules

/-! ## On a blank machine -/

def Term.Below (t' t : Term) : Prop := t'.nodes < t.nodes ∨ t'.nodes = t.nodes ∧ t'.size < t.size

theorem Term.Below.ne {t t' : Term} (h : t'.Below t) : t' ≠ t := by
  rintro rfl
  rw [Term.Below] at h
  omega

def Machine.blank : Machine := ⟨{ stepLimit := none }, .empty, ⟨0⟩, 0⟩

namespace Engine

/-- Without entities, a discipline that asks nothing of the store is kept from the term alone. -/
theorem admits_of_blank {D : Discipline Unit} (hledger : ∀ store used, D.ledger () store used) {fuel : Nat} {t t' : Term}
    {m' : Machine} (ht : D.Admits () t) (h : stepFor fuel t .blank = .ok t' m') : D.Admits () t' := by
  have hstored : D.Stored () Machine.blank.entities := ⟨fun hfind => (by cases hfind), hledger _ _⟩
  have hupheld := Discipline.stepFor_upholds fuel () t ht .blank hstored
  rw [h] at hupheld
  obtain ⟨_, -, -, ht'⟩ := hupheld
  exact ht'.1

/-- On a blank machine a step of a pure term leads down to a pure term. -/
theorem tame_of_blank {fuel : Nat} {t t' : Term} {m' : Machine} (ht : t.Tame) (hv : t.isValue = false)
    (h : stepFor fuel t .blank = .ok t' m') : t'.Tame ∧ t'.Below t := by
  have hdown := stepFor_descends fuel t .blank t' m' ht.closed Entities.closed_empty hv h
  have hpure := admits_of_blank (fun _ _ => trivial) (admits_pureNodes.mpr ht.pure) h
  have hflat := admits_of_blank (fun _ _ => trivial) (admits_flat.mpr ht.flat) h
  refine ⟨⟨admits_pureNodes.mp hpure, admits_flat.mp hflat, hdown.closed⟩, ?_⟩
  have hinput : Machine.blank.entities.inputNodes = 0 := rfl
  have hless := hdown.input
  have hlower := hdown.lower
  simp only [weight] at hlower
  rw [Term.Below]
  omega

/-! ## Sequences -/

mutual
theorem stepWith_stateless {s : Operator → List Term → Eval Term}
    (hs : ∀ op params, (Term.node op params).Tame → Stateless (fun _ => True) (s op params)) {t : Term} (ht : t.Tame) :
    Stateless (fun _ => True) (stepWith s t) := by
  cases t with
  | seq items =>
    simp only [stepWith]
    split
    · exact .of_pure trivial
    · exact .bind (stepFirst_stateless hs none fun u hu => ht.item hu) fun _ _ => .of_pure trivial
  | spread items =>
    simp only [stepWith]
    split
    · exact .of_pure trivial
    · exact .bind (stepFirst_stateless hs none fun u hu => ht.spreadItem hu) fun _ _ => .of_pure trivial
  | node op params => simpa only [stepWith] using hs op params ht
  | _ => simp only [stepWith]; exact .of_pure trivial

theorem stepFirst_stateless {s : Operator → List Term → Eval Term}
    (hs : ∀ op params, (Term.node op params).Tame → Stateless (fun _ => True) (s op params)) (blocked : Option Stuck)
    {items : List Term} (hitems : ∀ t ∈ items, t.Tame) : Stateless (fun _ => True) (stepFirst s blocked items) := by
  match items with
  | [] =>
    cases blocked with
    | none => simp only [stepFirst]; exact .of_pure trivial
    | some cause => simp only [stepFirst]; exact .of_stuck _
  | t :: rest =>
    have ht : t.Tame := hitems t (by simp)
    have hrest : ∀ u ∈ rest, u.Tame := fun u hu => hitems u (by simp [hu])
    simp only [stepFirst]
    split
    · exact .bind (stepFirst_stateless hs blocked hrest) fun _ _ => .of_pure trivial
    · refine .bind (stepWith_stateless hs ht).speculate fun r _ => ?_
      cases r with
      | ok next => exact .of_pure trivial
      | error cause => exact .bind (stepFirst_stateless hs (some cause) hrest) fun _ _ => .of_pure trivial
end

/-! ## Runs -/

/-- Stall detection is never in the way, for the next term is lower. -/
theorem advanceFor_stateless {fuel : Nat} {t : Term} (hstep : Stateless (fun _ => True) (stepFor fuel t)) (ht : t.Tame)
    (hv : t.isValue = false) : Stateless Term.Tame (advanceFor fuel t) := by
  have hhalts : ∀ {m m' : Machine} {halt : Halt}, stepFor fuel t m = .error halt m' →
      advanceFor fuel t m = .error halt m' := by
    intro m m' halt h
    rw [advanceFor, advanceWith, bind_of_ok (get_apply m), bind_of_error h]
  cases hstep with
  | ok next n _ hx =>
    -- the step was the same on the blank machine, where it is known to lead down
    obtain ⟨hnext, hlower⟩ := tame_of_blank ht hv (hx .blank rfl)
    exact .ok next n hnext fun m hm => advanceWith_of_ne (hx m hm) hlower.ne
  | stuck cause n hx => exact .stuck cause n fun m hm => hhalts (hx m hm)
  | outOfFuel n hx => exact .outOfFuel n fun m hm => hhalts (hx m hm)

theorem runWith_stateless {fuel : Nat} (hstep : ∀ t, t.Tame → Stateless (fun _ => True) (stepFor fuel t)) (rounds : Nat)
    {t : Term} (ht : t.Tame) : Stateless (fun v => v.Tame ∧ v.isValue = true) (runWith (advanceFor fuel) rounds t) := by
  induction rounds generalizing t with
  | zero =>
    unfold runWith
    split
    · exact .of_pure ⟨ht, ‹_›⟩
    · exact .of_outOfFuel
  | succ rounds ih =>
    unfold runWith
    split
    · exact .of_pure ⟨ht, ‹_›⟩
    · rename_i hv
      exact .bind (advanceFor_stateless (hstep t ht) ht (by simpa using hv)) fun next hnext => ih hnext

/-! ## Nodes -/

theorem reducePending_stateless {run : Term → Eval Term} {op : Operator} {params : List Term} (blocked : Option Stuck)
    {rest : List (Nat × Term)} (hrun : ∀ p ∈ rest, Stateless (fun _ => True) (run p.2)) :
    Stateless (fun _ => True) (reducePending run op params blocked rest) := by
  induction rest generalizing blocked with
  | nil =>
    cases blocked with
    | none => exact .of_pure trivial
    | some cause => exact .of_stuck _
  | cons p rest ih =>
    obtain ⟨index, t⟩ := p
    have hreplace : ∀ value, Stateless (fun _ => True) (replaceParam op params index value) := by
      intro value
      unfold replaceParam
      split
      · split
        · split
          · exact .of_pure trivial
          · exact .of_stuck _
        · exact .of_pure trivial
      · exact .of_pure trivial
    have hfirst : Stateless (fun _ => True) (run t) := hrun (index, t) (by simp)
    simp only [reducePending]
    refine .bind (Stateless.bind hfirst fun value _ => hreplace value).speculate fun r _ => ?_
    cases r with
    | ok next => exact .of_pure trivial
    | error cause => exact ih _ fun p hp => hrun p (List.mem_cons_of_mem _ hp)

section
variable {step : Term → Eval Term} (hs : ∀ t, t.Tame → Stateless (fun _ => True) (step t)) {params : List Term}
include hs

theorem stepOne_stateless {op : Operator} {choose : List Term → Option Nat} (ht : (Term.node op params).Tame)
    (hchoose : ChoosesReducible choose) : Stateless (fun _ => True) (stepOne step op choose params) := by
  refine .bind (.of_rule _ _) fun items hitems => ?_
  have hseq : (Term.seq items).Tame := ht.param (List.mem_of_getElem? (sequenceArg_eq_ok.mp hitems))
  rcases hc : choose items with _ | index
  · exact .of_pure trivial
  · obtain ⟨u, hu, -⟩ := hchoose items index hc
    have hget : Sequence.get items index = u := Sequence.get_of_getElem? hu
    simp only [hget]
    exact .bind (hs u (hseq.item (List.mem_of_getElem? hu))) fun _ _ => .of_pure trivial

theorem sequential_stateless (ht : (Term.node (.flow .sequential) params).Tame) :
    Stateless (fun _ => True) (sequential step params) := by
  refine .bind (.of_rule _ _) fun statements hstatements => .bind (.of_rule _ _) fun last _ => ?_
  have hseq : (Term.seq statements).Tame := ht.param (List.mem_of_getElem? (sequenceArg_eq_ok.mp hstatements))
  split
  · exact .of_pure trivial
  · split
    · exact .bind (hs _ (hseq.item (by simp))) fun _ _ => .of_pure trivial
    · split
      · exact .of_pure trivial
      · exact .of_stuck _

theorem give_stateless (ht : (Term.node (.effect .give) params).Tame) : Stateless (fun _ => True) (give step params) := by
  refine .bind (.of_rule _ _) fun value _ => .bind (.of_rule _ _) fun body hbody => ?_
  have hbody : body.Tame := ht.param (List.mem_of_getElem? (arg_eq_ok.mp hbody))
  split
  · exact .of_pure trivial
  · exact .bind (hs body hbody).withGiven fun _ _ => .of_pure trivial

theorem applyRule_stateless {advance : Term → Eval Term} {rounds : Nat} {op : Operator} (ht : (Term.node op params).Tame) :
    Stateless (fun _ => True) (applyRule step advance rounds op params) := by
  have hop := ht.isPure
  have hrule : ∀ op r, Stateless (fun _ => True) (ofRule op r : Eval Term) := fun op r =>
    (Stateless.of_rule op r).imp fun _ _ => trivial
  cases op with
  | flow f =>
    cases f with
    | leftToRight => exact stepOne_stateless hs ht firstReducible?_chooses
    | rightToLeft => exact stepOne_stateless hs ht lastReducible?_chooses
    | sequential => exact sequential_stateless hs ht
    | effect => exact .bind (.of_rule _ _) fun _ _ => .of_pure trivial
    | choice => cases hop
    | ifTrueElse => exact hrule _ _
    | stuck => exact .of_stuck _
    | fail => exact .of_stuck _
  | effect f =>
    cases f with
    | give => exact give_stateless hs ht
    | _ => cases hop
  | collection f =>
    -- the stream of choices comes out of the rule as it went in, and is put back
    obtain ⟨r, hr⟩ := collection_undrawn hop params
    have hcollection : applyRule step advance rounds (.collection f) params = ofRule (.collection f) r := by
      funext m
      rw [applyRule, bind_of_ok (get_apply m), hr]
      cases r <;> rfl
    rw [hcollection]
    exact hrule _ _
  | _ => exact hrule _ _

end

/-! ## Steps -/

theorem stepNode_stateless (fuel : Nat) (op : Operator) (params : List Term) (ht : (Term.node op params).Tame) :
    Stateless (fun _ => True) (stepNode fuel op params) := by
  induction fuel generalizing op params with
  | zero => exact .of_outOfFuel
  | succ fuel ih =>
    have hstep : ∀ t, t.Tame → Stateless (fun _ => True) (stepFor fuel t) := fun t ht => stepWith_stateless ih ht
    refine .bind .charge fun _ _ => .bind (reducePending_stateless none fun p hp => ?_) fun r _ => ?_
    · obtain ⟨_, -, -, hu, -⟩ := mem_pending.mp hp
      exact (runWith_stateless hstep fuel (ht.param (List.mem_of_getElem? hu))).imp fun _ _ => trivial
    · cases r with
      | some next => exact .of_pure trivial
      | none => exact applyRule_stateless hstep ht

theorem stepFor_stateless (fuel : Nat) {t : Term} (ht : t.Tame) : Stateless (fun _ => True) (stepFor fuel t) :=
  stepWith_stateless (stepNode_stateless fuel) ht

theorem runFor_stateless (fuel : Nat) {t : Term} (ht : t.Tame) :
    Stateless (fun v => v.Tame ∧ v.isValue = true) (runFor fuel t) :=
  runWith_stateless (fun _ ht => stepFor_stateless fuel ht) fuel ht

end Engine

/-! ## What pure terms come to -/

/-- A step of `t` is stuck, quietly and on any machine without a step limit. -/
def Jams (t : Term) : Prop := ∀ m : Machine, m.config.stepLimit = none →
  ∃ fuel cause m', Engine.stepFor fuel t m = .error (.stuck cause) m' ∧ Quiet m m'

def Sticks (t : Term) : Prop := ∀ m : Machine, m.config.stepLimit = none →
  ∃ fuel cause m', Engine.runFor fuel t m = .error (.stuck cause) m' ∧ Quiet m m'

theorem run_of_sticks {t : Term} (h : Sticks t) {m : Machine} (hm : m.config.stepLimit = none) :
    ∃ cause m', run t m = .error (.stuck cause) m' ∧ Quiet m m' := by
  obtain ⟨fuel, cause, m', hrun, hquiet⟩ := h m hm
  exact ⟨cause, m', (run_eq_iff (by trivial)).mpr ⟨fuel, hrun⟩, hquiet⟩

namespace Term.Tame

variable {t : Term} (ht : t.Tame)
include ht

theorem ready_blank : Ready t .blank := ⟨ht.closed, Entities.closed_empty, rfl⟩

/-- A step has one outcome, for all machines: fuel that is enough for a blank one is enough. -/
theorem moves_or_jams : (∃ t', Moves t t') ∨ Jams t := by
  obtain ⟨fuel, hfuel⟩ : ∃ fuel, Finished (Engine.stepFor fuel t Machine.blank) := Engine.stepFor_ends ht.ready_blank
  cases Engine.stepFor_stateless fuel ht with
  | ok t' n _ hx => exact .inl ⟨t', fun m hm => ⟨fuel, _, hx m hm, .after m n⟩⟩
  | stuck cause n hx => exact .inr fun m hm => ⟨fuel, cause, _, hx m hm, .after m n⟩
  | outOfFuel n hx =>
    rw [hx Machine.blank rfl] at hfuel
    exact hfuel.elim

theorem runs_or_sticks : (∃ v, Runs t v) ∨ Sticks t := by
  obtain ⟨fuel, hfuel⟩ : ∃ fuel, Finished (Engine.runFor fuel t Machine.blank) :=
    Engine.runFor_ends (Engine.endsBelow ht.ready_blank)
  cases Engine.runFor_stateless fuel ht with
  | ok v n _ hx => exact .inl ⟨v, fun m hm => ⟨fuel, _, hx m hm, .after m n⟩⟩
  | stuck cause n hx => exact .inr fun m hm => ⟨fuel, cause, _, hx m hm, .after m n⟩
  | outOfFuel n hx =>
    rw [hx Machine.blank rfl] at hfuel
    exact hfuel.elim

/-- A move of a pure term leads down to a pure term. -/
theorem of_moves {t' : Term} (hv : t.isValue = false) (h : Moves t t') : t'.Tame ∧ t'.Below t := by
  obtain ⟨fuel, m', hstep, -⟩ := h .blank rfl
  exact Engine.tame_of_blank ht hv hstep

end Term.Tame

end TermMachine
