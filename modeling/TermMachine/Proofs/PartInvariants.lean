import TermMachine.Proofs.FullyEvaluated
import TermMachine.Proofs.LocalComposition

/-!
# Invariants of the parts of terms

A discipline is kept by the rules whatever the run has done before. Where a property says how something came into a term,
a rule keeps it because of the state in which it is applied, so that state has to be at hand: the step that is under way
enters the node on a machine, its eager parameters are values, and its rule applies.

The property is one of single terms, asked of all their parts. Only sets, maps and nodes are looked at; sequences are taken
apart and joined all the time, and nothing is asked of them. The engine builds nodes when it puts the value of a parameter
in its place and when it goes on with an argument, and all else is built by the rules that step no argument. What these
have to keep is `Preserved`.

Proved:
* `Safe.bind`, `Safe.speculate`, `Safe.withGiven`: one law for each way to put computations together.
* `Preserved.composesAt`: so what the engine puts together in the course of a step keeps the property.
* `Preserved.step_safe`: so the step keeps it, whatever it ends with.
-/

namespace TermMachine

open Term Eval Rules

/-! ## Terms -/

namespace Term

def Throughout (Q : Term → Prop) (t : Term) : Prop := ∀ u ∈ t.parts, Q u

def isPlain : Term → Bool
  | .map _ | .set _ | .node _ _ => false
  | _ => true

variable {Q : Term → Prop} {t u : Term} {items : List Term}

theorem Throughout.self (h : t.Throughout Q) : Q t := h t (mem_parts_self t)

theorem Throughout.part (h : t.Throughout Q) (hu : u ∈ t.parts) : u.Throughout Q := fun v hv => h v (parts_trans hu hv)

/-- What a term contributes to a sequence. -/
theorem Throughout.elements (h : t.Throughout Q) : ∀ u ∈ t.elements, u.Throughout Q :=
  fun _ hu => h.part (mem_parts_of_element hu)

theorem throughout_flatten (h : ∀ v ∈ items, v.Throughout Q) : ∀ u ∈ flatten items, u.Throughout Q := by
  intro u hu
  obtain ⟨v, hv, hu⟩ := mem_parts_of_flatten hu
  exact (h v hv).part hu

/-- What is asked of a term with terms in it. -/
theorem throughout_of_parts (hparts : ∀ u, u ∈ t.parts ↔ u = t ∨ ∃ v ∈ items, u ∈ v.parts) :
    t.Throughout Q ↔ Q t ∧ ∀ v ∈ items, v.Throughout Q := by
  constructor
  · intro h
    exact ⟨h.self, fun v hv u hu => h u ((hparts u).mpr (.inr ⟨v, hv, hu⟩))⟩
  · rintro ⟨hself, hitems⟩ u hu
    rcases (hparts u).mp hu with rfl | ⟨v, hv, hu⟩
    · exact hself
    · exact hitems v hv u hu

theorem throughout_node {op : Operator} : (node op items).Throughout Q ↔ Q (node op items) ∧ ∀ v ∈ items, v.Throughout Q :=
  throughout_of_parts fun _ => mem_parts_node

theorem throughout_set : (set items).Throughout Q ↔ Q (set items) ∧ ∀ v ∈ items, v.Throughout Q :=
  throughout_of_parts fun _ => mem_parts_set

theorem throughout_map {entries : Entries} : (map entries).Throughout Q ↔
    Q (map entries) ∧ ∀ e ∈ entries, e.1.Throughout Q ∧ ∀ v ∈ e.2, v.Throughout Q := by
  constructor
  · intro h
    refine ⟨h.self, fun e he => ⟨fun u hu => h u ?_, fun v hv u hu => h u ?_⟩⟩
    · exact mem_parts_map.mpr (.inr ⟨e, he, .inl hu⟩)
    · exact mem_parts_map.mpr (.inr ⟨e, he, .inr ⟨v, hv, hu⟩⟩)
  · rintro ⟨hself, hentries⟩ u hu
    rcases mem_parts_map.mp hu with rfl | ⟨e, he, hu | ⟨v, hv, hu⟩⟩
    · exact hself
    · exact (hentries e he).1 u hu
    · exact (hentries e he).2 v hv u hu

def AsksNothingOfPlain (Q : Term → Prop) : Prop := ∀ t : Term, t.isPlain = true → Q t

section
variable (hQ : AsksNothingOfPlain Q)
include hQ

theorem throughout_seq : (seq items).Throughout Q ↔ ∀ v ∈ items, v.Throughout Q := by
  rw [throughout_of_parts fun _ => mem_parts_seq]
  exact and_iff_right (hQ _ rfl)

theorem throughout_spread : (spread items).Throughout Q ↔ ∀ v ∈ items, v.Throughout Q := by
  rw [throughout_of_parts fun _ => mem_parts_spread]
  exact and_iff_right (hQ _ rfl)

theorem throughout_data {name : String} : (data name items).Throughout Q ↔ ∀ v ∈ items, v.Throughout Q := by
  rw [throughout_of_parts fun _ => mem_parts_data]
  exact and_iff_right (hQ _ rfl)

/-- A plain term without terms in it. -/
theorem throughout_of_plain (ht : t.isPlain = true) (hparts : t.parts = [t]) : t.Throughout Q := by
  intro u hu
  rw [hparts, List.mem_singleton] at hu
  rw [hu]
  exact hQ t ht

theorem throughout_empty : Term.empty.Throughout Q := (throughout_seq hQ).mpr (by simp)

theorem throughout_get (h : ∀ v ∈ items, v.Throughout Q) (index : Nat) : (Sequence.get items index).Throughout Q := by
  unfold Sequence.get
  rw [List.getD_eq_getElem?_getD]
  rcases hi : items[index]? with _ | v
  · exact throughout_empty hQ
  · exact h v (List.mem_of_getElem? hi)

theorem throughout_ofSequence (h : ∀ v ∈ items, v.Throughout Q) : (ofSequence items).Throughout Q := by
  match items with
  | [] => exact throughout_empty hQ
  | [v] => exact h v (by simp)
  | _ :: _ :: _ => exact (throughout_seq hQ).mpr h

end

end Term

/-! ## Entities -/

def Entities.Throughout (Q : Term → Prop) (s : Entities) : Prop := ∀ name t, s.find? name = some t → t.Throughout Q

namespace Entities.Throughout

variable {Q : Term → Prop} {s s' : Entities} {name : String} {t : Term}

theorem put (h : s.Throughout Q) (ht : t.Throughout Q) (name : String) : (s.put name t).Throughout Q := by
  intro other u hu
  rw [find?_put] at hu
  split at hu
  · cases hu
    exact ht
  · exact h other u hu

theorem remove (h : s.Throughout Q) (name : String) : (s.remove name).Throughout Q := by
  intro other u hu
  rw [find?_remove] at hu
  split at hu
  · cases hu
  · exact h other u hu

/-- Putting back what the entity held before. -/
theorem assign (h : s'.Throughout Q) (hold : s.Throughout Q) (name : String) :
    (s'.assign name (s.find? name)).Throughout Q := by
  rcases hf : s.find? name with _ | t
  · exact h.remove name
  · exact h.put (hold name t hf) name

variable (hQ : AsksNothingOfPlain Q)
include hQ

theorem get (h : s.Throughout Q) (name : String) : (s.get name).Throughout Q := by
  unfold Entities.get
  rcases hf : s.find? name with _ | t
  · exact throughout_empty hQ
  · exact h name t hf

theorem append (h : s.Throughout Q) (ht : t.Throughout Q) (name : String) : (s.append name t).Throughout Q := by
  refine h.put ((throughout_seq hQ).mpr fun u hu => ?_) name
  rcases List.mem_append.mp hu with hu | hu
  · exact (h.get hQ name).elements u hu
  · exact ht.elements u hu

theorem popFirst (h : s.Throughout Q) (hpop : s.popFirst name = some (t, s')) : t.Throughout Q ∧ s'.Throughout Q := by
  have hstream := (h.get hQ name).elements
  unfold Entities.popFirst at hpop
  split at hpop
  · cases hpop
  · rename_i first rest hitems
    cases hpop
    have hmem : ∀ u ∈ t :: rest, u.Throughout Q := fun u hu => hstream u (show u ∈ s.stream name by rwa [hitems])
    exact ⟨hmem t (by simp), h.put ((throughout_seq hQ).mpr fun u hu => hmem u (List.mem_cons_of_mem _ hu)) name⟩

end Entities.Throughout

/-! ## Safe computations -/

/-- A computation came to entities that have the property throughout, and to a result as it should be if it came to one. -/
def Eval.Leaves {α : Type} (Q : Term → Prop) (post : α → Prop) : EStateM.Result Halt Machine α → Prop
  | .ok a m => post a ∧ m.entities.Throughout Q
  | .error _ m => m.entities.Throughout Q

/-- On the machine, the computation keeps the entities so that they have the property throughout, and its result is as it
should be. -/
def Eval.Safe {α : Type} (Q : Term → Prop) (post : α → Prop) (x : Eval α) (m : Machine) : Prop :=
  m.entities.Throughout Q → Leaves Q post (x m)

namespace Eval.Safe

variable {α β : Type} {Q : Term → Prop} {post : α → Prop} {x : Eval α} {m : Machine}

theorem bind {mid : β → Prop} {y : Eval β} {f : β → Eval α} (hy : Safe Q mid y m)
    (hf : ∀ b m', y m = .ok b m' → mid b → Safe Q post (f b) m') : Safe Q post (y >>= f) m := by
  intro hm
  have hleaves := hy hm
  rcases hr : y m with ⟨b, m₁⟩ | ⟨halt, m₁⟩
  · rw [hr] at hleaves
    rw [bind_of_ok hr]
    exact hf b m₁ hr hleaves.1 hleaves.2
  · rw [hr] at hleaves
    rw [bind_of_error hr]
    exact hleaves

theorem charge : Safe Q (fun _ => True) charge m := by
  intro hm
  rcases hr : Eval.charge m with ⟨u, m₁⟩ | ⟨halt, m₁⟩
  · rw [charge_eq_ok hr]
    exact ⟨trivial, hm⟩
  · rw [Leaves, entities_of_charge_error hr]
    exact hm

/-- A failed attempt leaves the entities as they were. -/
theorem speculate (h : Safe Q post x m) : Safe Q (Tried post fun _ => True) (speculate x) m := by
  intro hm
  have hleaves := h hm
  unfold Eval.speculate
  rcases hr : x m with ⟨a, m₁⟩ | ⟨halt, m₁⟩
  · rw [hr] at hleaves
    exact hleaves
  · rw [hr] at hleaves
    cases halt with
    | stuck cause => exact ⟨trivial, hm⟩
    | _ => exact hleaves

theorem recover (h : Safe Q post x m) : Safe Q (Tried post fun _ => True) (recover x) m := by
  intro hm
  have hleaves := h hm
  unfold Eval.recover
  rcases hr : x m with ⟨a, m₁⟩ | ⟨halt, m₁⟩
  · rw [hr] at hleaves
    exact hleaves
  · rw [hr] at hleaves
    cases halt with
    | stuck cause => exact ⟨trivial, hleaves⟩
    | _ => exact hleaves

theorem withGiven {value : Term} (hvalue : value.Throughout Q)
    (h : Safe Q post x { m with entities := m.entities.put Entity.givenValue value }) :
    Safe Q post (withGiven value x) m := by
  intro hm
  have hleaves := h (hm.put hvalue Entity.givenValue)
  unfold Rules.withGiven
  rcases hr : x { m with entities := m.entities.put Entity.givenValue value } with ⟨a, m₁⟩ | ⟨halt, m₁⟩
  · rw [hr] at hleaves
    exact ⟨hleaves.1, hleaves.2.assign hm Entity.givenValue⟩
  · rw [hr] at hleaves
    exact hleaves.assign hm Entity.givenValue

theorem advanceWith {step : Term → Eval Term} {t : Term} {post : Term → Prop} (h : Safe Q post (step t) m) :
    Safe Q post (Engine.advanceWith step t) m := by
  intro hm
  have hleaves := h hm
  rcases hr : Engine.advanceWith step t m with ⟨next, m₁⟩ | ⟨halt, m₁⟩
  · rw [Engine.advanceWith_ok hr] at hleaves
    exact hleaves
  · rcases Engine.advanceWith_error hr with hstep | ⟨-, hstep, -⟩
    · rw [hstep] at hleaves
      exact hleaves
    · rw [hstep] at hleaves
      exact hleaves.2

theorem settle {x : Nat → Eval α} (h : ∀ fuel, Safe Q post (x fuel) m) : Safe Q post (settle x) m := by
  intro hm
  unfold Eval.settle
  rcases hr : attempt x m m.fuel with _ | r
  · exact hm
  · obtain ⟨-, fuel, rfl⟩ := attempt_eq_some hr
    exact h fuel hm

end Eval.Safe

/-! ## What the rules have to keep -/

/-- Where the arguments come from that the parameters are bound to again when one of them was a spread. -/
theorem Construction.mem_flattenParams {op : Operator} {params items : List Term} {index : Nat} {u : Term}
    (h : u ∈ flattenParams op params index items) : u ∈ items ∨ ∃ param ∈ params,
      ((∃ position : Nat, op.params[position]?.any Param.isSequence = true) ∧ u ∈ param.elements) ∨ u = param := by
  obtain ⟨⟨param, position⟩, hmem, hu⟩ := List.mem_flatMap.mp h
  have hparam : param ∈ params := List.mem_of_getElem? (List.mem_zipIdx_iff_getElem?.mp hmem)
  simp only at hu
  split at hu
  · exact .inl hu
  · split at hu
    · rename_i hrun
      exact .inr ⟨param, hparam, .inl ⟨⟨position, hrun⟩, hu⟩⟩
    · exact .inr ⟨param, hparam, .inr (List.mem_singleton.mp hu)⟩

/-- A property of terms that is kept wherever one step of `t₀` on `m₀` makes a new set, map or node. -/
structure Preserved (t₀ : Term) (m₀ : Machine) (Q : Term → Prop) : Prop where
  plain : AsksNothingOfPlain Q
  /-- Of the operators whose rule steps an argument and puts it back, nothing is asked. -/
  stepping : ∀ {op} params, Engine.stepsArgument op = true → Q (.node op params)
  /-- A node in which the value of a pending parameter has taken its place. -/
  replaced : ∀ {op params index argument value next m m'}, (node op params).Throughout Q →
    (index, argument) ∈ Engine.pending op params → Enters t₀ m₀ value m →
    Engine.replaceParam op params index value m = .ok next m' → Q next
  /-- A rule that steps no argument, where it is applied. -/
  fired : ∀ {op params t m m'}, Enters t₀ m₀ (.node op params) m → step (.node op params) m = .ok t m' →
    (node op params).Throughout Q → m.entities.Throughout Q →
    Engine.Fired params { m with steps := m.steps + 1 } op t m' → t.Throughout Q ∧ m'.entities.Throughout Q

namespace Preserved

variable {t₀ : Term} {m₀ : Machine} {Q : Term → Prop}

/-- A node whose parameters have the property, in which a value that has it has taken its place. -/
theorem replaceParam_throughout (hP : Preserved t₀ m₀ Q) {op : Operator} {params : List Term} {index : Nat}
    {argument value next : Term} {m m' : Machine} (hnode : (node op params).Throughout Q)
    (hpending : (index, argument) ∈ Engine.pending op params) (henters : Enters t₀ m₀ value m)
    (hvalue : value.Throughout Q) (h : Engine.replaceParam op params index value m = .ok next m') : next.Throughout Q := by
  have hparams := (throughout_node.mp hnode).2
  have hnext := hP.replaced hnode hpending henters h
  rcases (Engine.replaceParam_ok h).2 with rfl | ⟨items, rfl, rfl⟩
  · refine throughout_node.mpr ⟨hnext, fun u hu => ?_⟩
    rcases List.mem_or_eq_of_mem_set hu with hu | rfl
    · exact hparams u hu
    · exact hvalue
  · have hargs : ∀ u ∈ Construction.flattenParams op params index items, u.Throughout Q := by
      intro u hu
      rcases Construction.mem_flattenParams hu with hu | ⟨param, hparam, ⟨-, hu⟩ | rfl⟩
      · exact hvalue.elements u hu
      · exact (hparams param hparam).elements u hu
      · exact hparams _ hparam
    refine throughout_node.mpr ⟨hnext, fun u hu => ?_⟩
    rcases Construction.mem_bindTo hu with hu | ⟨absorbed, hsub, rfl⟩
    · exact hargs u hu
    · exact (throughout_seq hP.plain).mpr (throughout_flatten fun v hv => hargs v (hsub hv))

theorem rule_safe (hP : Preserved t₀ m₀ Q) {fuel : Nat} {op : Operator} {params : List Term} {m m₁ : Machine}
    (henters : Enters t₀ m₀ (.node op params) m) (hcharge : charge m = .ok () m₁) (hpending : Engine.pending op params = [])
    (hop : Engine.stepsArgument op = false) (hnode : (node op params).Throughout Q) :
    Safe Q (Throughout Q) (Engine.applyRule (Engine.stepFor fuel) (Engine.advanceFor fuel) fuel op params) m₁ := by
  intro hm
  rcases Engine.applyRule_cases hop
    (rfl : Engine.applyRule (Engine.stepFor fuel) (Engine.advanceFor fuel) fuel op params m₁ = _) with
    ⟨reason, hr⟩ | ⟨t, m₂, hfired, hr⟩
  · rw [hr]
    exact hm
  · have hstep : Engine.stepNode (fuel + 1) op params m = .ok t m₂ := by
      rw [Engine.stepNode_eq_rule hpending, bind_of_ok hcharge, hr]
    obtain rfl := charge_eq_ok hcharge
    rw [hr]
    exact hP.fired henters (step_eq_ok.mpr ⟨fuel + 1, hstep⟩) hnode hm hfired

theorem composesAt (hP : Preserved t₀ m₀ Q) :
    ComposesAt (Enters t₀ m₀) (Throughout Q) (fun _ => True) (fun _ => Safe Q) where
  inside := .inside
  good_part := Throughout.part
  good_seq := (throughout_seq hP.plain).mpr
  good_spread := (throughout_spread hP.plain).mpr
  good_stepping hop hparams := throughout_node.mpr ⟨hP.stepping _ hop, hparams⟩
  good_replaced := hP.replaceParam_throughout
  fine_rule _ _ := trivial
  fine_misfit _ _ := trivial
  fine_element _ := trivial
  fine_parameter _ _ := trivial
  pure ha hm := ⟨ha, hm⟩
  stuck _ hm := hm
  outOfFuel hm := hm
  bind := .bind
  charge := .charge
  speculate := .speculate
  recover := .recover
  withGiven := .withGiven
  takeYield hm := ⟨trivial, hm.remove _⟩
  advance _ _ h := h.advanceWith
  rule := hP.rule_safe

/-- A property that is kept in the course of a step is kept by the step. -/
theorem step_safe (hP : Preserved t₀ m₀ Q) (ht₀ : t₀.Throughout Q) : Safe Q (Throughout Q) (step t₀) m₀ := by
  by_cases hv : t₀.isValue = true
  · intro hm
    rw [step_of_isValue hv]
    exact ⟨ht₀, hm⟩
  · exact .settle fun fuel => hP.composesAt.stepFor fuel .here ht₀ (by simpa using hv)

end Preserved

end TermMachine
