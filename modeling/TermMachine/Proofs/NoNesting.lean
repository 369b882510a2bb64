import TermMachine.Proofs.FlatTerms
import TermMachine.Proofs.FullyEvaluated

/-!
# Whatever is made of flat terms is flat

Joining terms takes the sequences among them apart, but only these and not what they hold; the other operations on sequences copy
elements as they are. One level is enough because there never is a second one: of flat terms all of them make flat
terms. That has to be true of every operation together, since each takes what the others made. So the operations are
listed as one inductive family (`Made`): reading, building terms by name, the operations on sequences and on entities,
steps, runs and executions, and what a run may reach. Flatness is proved by induction over that list.

Proved:
* `Visited.reached`: the states that a run may pass through are among those that it may reach.
* `made_flat`: whatever is made of flat terms is flat.
* `sequences_do_not_nest`: the same of the value that a program ends with, which therefore is neither a spread nor a
  sequence of one element.
-/

namespace TermMachine

open Term Eval

/-! ## What is made -/

inductive Holder where
  | term (t : Term)
  | row (items : List Term)
  | entities (s : Entities)

/-- No sequence that is held, at any depth, has a sequence for an element. -/
def Holder.Flat : Holder → Prop
  | .term t => t.Flat
  | .row items => (seq items).Flat
  | .entities s => s.Flat

def Outcome.term : Outcome → Term
  | .value v => v
  | .stuck t _ => t

/-- What can be made of flat terms, rows and entities. -/
inductive Made : Holder → Prop
  | flat {h : Holder} : h.Flat → Made h
  -- terms
  | read {source : String} {t : Term} : readTerm source = .ok t → Made (.term t)
  | construct {name : String} {args : List Term} {t : Term} : (∀ u ∈ args, Made (.term u)) →
      Construction.construct name args = .ok t → Made (.term t)
  | string (text : List Char) : Made (.term (Term.string text))
  | data (name : String) {args : List Term} : Made (.row args) → Made (.term (.data name args))
  | seq {items : List Term} : Made (.row items) → Made (.term (.seq items))
  -- sequences
  | join {terms : List Term} : (∀ t ∈ terms, Made (.term t)) → Made (.row (flatten terms))
  | get {items : List Term} (index : Nat) : Made (.row items) → Made (.term (Sequence.get items index))
  | tail {items : List Term} : Made (.row items) → Made (.row items.tail)
  | dropLast {items : List Term} : Made (.row items) → Made (.row items.dropLast)
  | slice {items out : List Term} {start endOffset : Nat} : Made (.row items) →
      Sequence.slice items start endOffset = .ok out → Made (.row out)
  | append {items more : List Term} : Made (.row items) → Made (.row more) → Made (.row (items ++ more))
  | replace {items : List Term} {t : Term} (index : Nat) : Made (.row items) → Made (.term t) →
      Made (.row (Sequence.replace items index t))
  | reverse {items : List Term} : Made (.row items) → Made (.row items.reverse)
  | first {items : List Term} : Made (.row items) → Made (.term (Sequence.popFirst items).1)
  | rest {items : List Term} : Made (.row items) → Made (.row (Sequence.popFirst items).2)
  -- entities
  | noEntities : Made (.entities .empty)
  | entity {s : Entities} (name : String) : Made (.entities s) → Made (.term (s.get name))
  | put {s : Entities} {t : Term} (name : String) : Made (.entities s) → Made (.term t) → Made (.entities (s.put name t))
  | appendTo {s : Entities} {t : Term} (name : String) : Made (.entities s) → Made (.term t) →
      Made (.entities (s.append name t))
  | remove {s : Entities} (name : String) : Made (.entities s) → Made (.entities (s.remove name))
  | popped {s s' : Entities} {name : String} {t : Term} : Made (.entities s) → s.popFirst name = some (t, s') →
      Made (.term t)
  | popFrom {s s' : Entities} {name : String} {t : Term} : Made (.entities s) → s.popFirst name = some (t, s') →
      Made (.entities s')
  -- evaluation: results, and the entities that are left by what has a result and by what has none
  | step {t t' : Term} {m m' : Machine} : Made (.term t) → Made (.entities m.entities) → step t m = .ok t' m' →
      Made (.term t')
  | afterStep {t : Term} {m : Machine} : Made (.term t) → Made (.entities m.entities) →
      Made (.entities (machineAfter (step t m)).entities)
  | run {t t' : Term} {m m' : Machine} : Made (.term t) → Made (.entities m.entities) → run t m = .ok t' m' →
      Made (.term t')
  | afterRun {t : Term} {m : Machine} : Made (.term t) → Made (.entities m.entities) →
      Made (.entities (machineAfter (run t m)).entities)
  | outcome {t : Term} {inputs : List Term} {m m' : Machine} {e : Execution} : Made (.term t) →
      (∀ input ∈ inputs, Made (.term input)) → Made (.entities m.entities) → execute t inputs m = .ok e m' →
      Made (.term e.outcome.term)
  | printed {t : Term} {inputs : List Term} {m m' : Machine} {e : Execution} : Made (.term t) →
      (∀ input ∈ inputs, Made (.term input)) → Made (.entities m.entities) → execute t inputs m = .ok e m' →
      Made (.row e.standardOut)
  | stored {t : Term} {inputs : List Term} {m m' : Machine} {e : Execution} : Made (.term t) →
      (∀ input ∈ inputs, Made (.term input)) → Made (.entities m.entities) → execute t inputs m = .ok e m' →
      Made (.term e.store)
  | afterExecution {t : Term} {inputs : List Term} {m : Machine} : Made (.term t) →
      (∀ input ∈ inputs, Made (.term input)) → Made (.entities m.entities) →
      Made (.entities (machineAfter (execute t inputs m)).entities)
  -- what is reached within a step
  | reached {t₀ t : Term} {s₀ s : Entities} {terms : List Term} : Made (.term t₀) → Made (.entities s₀) →
      Reached t₀ s₀ terms s → t ∈ terms → Made (.term t)
  | reachedEntities {t₀ : Term} {s₀ s : Entities} {terms : List Term} : Made (.term t₀) → Made (.entities s₀) →
      Reached t₀ s₀ terms s → Made (.entities s)

/-! ## Rows -/

section
variable {items more : List Term} {t : Term}

/-- A flat sequence is a row as the discipline of flat terms asks for it. -/
theorem row_flat {w : Unit} : flat.Row w items ↔ (seq items).Flat := by
  rw [← admits_flat (w := w), Discipline.admits_seq]

theorem admitsAll_flat {w : Unit} {terms : List Term} (h : ∀ t ∈ terms, t.Flat) : flat.AdmitsAll w terms :=
  fun t ht => admits_flat.mpr (h t ht)

theorem Term.Flat.data (name : String) (h : (seq items).Flat) : (Term.data name items).Flat := by
  rw [← admits_flat (w := ()), Discipline.admits_data]
  exact ⟨row_flat.mpr h, trivial⟩

theorem Term.Flat.subset (h : (seq more).Flat) (hsub : items ⊆ more) : (seq items).Flat :=
  row_flat (w := ()).mp ((row_flat.mpr h).subset hsub)

theorem Term.Flat.append (h : (seq items).Flat) (h' : (seq more).Flat) : (seq (items ++ more)).Flat :=
  row_flat (w := ()).mp ((row_flat.mpr h).append (row_flat.mpr h'))

theorem flat_join {terms : List Term} (h : ∀ t ∈ terms, t.Flat) : (seq (flatten terms)).Flat :=
  row_flat (w := ()).mp (admitsAll_flat h).flatten

theorem Term.Flat.get (h : (seq items).Flat) (index : Nat) : (Sequence.get items index).Flat :=
  admits_flat (w := ()).mp ((row_flat.mpr h).get index)

theorem Term.Flat.replace (h : (seq items).Flat) (ht : t.Flat) (index : Nat) :
    (seq (Sequence.replace items index t)).Flat :=
  row_flat (w := ()).mp ((row_flat.mpr h).replace (admits_flat.mpr ht) index)

theorem Term.Flat.of_mem (h : (seq items).Flat) (ht : t ∈ items) : t.Flat :=
  admits_flat (w := ()).mp ((row_flat.mpr h) t ht).2

theorem Term.Flat.slice {out : List Term} {start endOffset : Nat} (h : (seq items).Flat)
    (hout : Sequence.slice items start endOffset = .ok out) : (seq out).Flat := by
  unfold Sequence.slice at hout
  split at hout <;> cases hout
  exact h.subset fun u hu => List.take_subset _ _ (List.drop_subset _ _ hu)

theorem Term.Flat.popFirst (h : (seq items).Flat) :
    (Sequence.popFirst items).1.Flat ∧ (seq (Sequence.popFirst items).2).Flat := by
  cases items with
  | nil => exact ⟨admits_flat (w := ()).mp Discipline.admits_null, h⟩
  | cons first rest => exact ⟨h.of_mem (by simp [Sequence.popFirst]), h.subset (List.subset_cons_self _ _)⟩

theorem flat_construct {name : String} {args : List Term} (h : ∀ u ∈ args, u.Flat)
    (ht : Construction.construct name args = .ok t) : t.Flat := readable_flat.parts_construct h ht

end

/-! ## Entities -/

namespace Entities.Flat

variable {s s' : Entities} {t : Term} {name : String}

theorem empty : Entities.empty.Flat := fun _ _ h => nomatch h

theorem get (h : s.Flat) (name : String) : (s.get name).Flat :=
  admits_flat (w := ()).mp ((stored_flat.mpr h).get name)

theorem stream (h : s.Flat) (name : String) : (seq (s.stream name)).Flat :=
  row_flat (w := ()).mp ((stored_flat.mpr h).stream name)

theorem put (h : s.Flat) (ht : t.Flat) (name : String) : (s.put name t).Flat := by
  intro other u hu
  rw [find?_put] at hu
  split at hu
  · cases hu
    exact ht
  · exact h other u hu

theorem remove (h : s.Flat) (name : String) : (s.remove name).Flat := by
  intro other u hu
  rw [find?_remove] at hu
  split at hu
  · cases hu
  · exact h other u hu

theorem append (h : s.Flat) (ht : t.Flat) (name : String) : (s.append name t).Flat :=
  h.put ((h.stream name).append (row_flat (w := ()).mp (admits_flat.mpr ht).elements)) name

theorem popFirst (h : s.Flat) (hpop : s.popFirst name = some (t, s')) : t.Flat ∧ s'.Flat := by
  have hrow := h.stream name
  unfold Entities.popFirst at hpop
  split at hpop
  · cases hpop
  · rename_i first rest hstream
    cases hpop
    rw [hstream] at hrow
    exact ⟨hrow.of_mem (by simp), h.put (hrow.subset (List.subset_cons_self _ _)) name⟩

end Entities.Flat

/-! ## Evaluation -/

/-- What upholds the discipline leaves flat entities, with a result or without. -/
theorem Discipline.Upholds.flat_after {α : Type} {x : Eval α} {post : Unit → α → Prop} (h : flat.Upholds () x post)
    {m : Machine} (hm : m.entities.Flat) : (machineAfter (x m)).entities.Flat := by
  have hupheld := h m (stored_flat.mpr hm)
  rcases hr : x m with ⟨a, m'⟩ | ⟨halt, m'⟩
  · rw [hr] at hupheld
    obtain ⟨_, -, hs, -⟩ := hupheld
    exact stored_flat.mp hs
  · rw [hr] at hupheld
    obtain ⟨⟨_, -, hs⟩, -⟩ := hupheld
    exact stored_flat.mp hs

theorem flat_of_reached {t₀ : Term} {s₀ s : Entities} {terms : List Term} (ht₀ : t₀.Flat) (hs₀ : s₀.Flat)
    (h : Reached t₀ s₀ terms s) : (∀ t ∈ terms, t.Flat) ∧ s.Flat := by
  obtain ⟨_, -, hterms, hs⟩ := h.upheld (D := flat) (w := ()) (admits_flat.mpr ht₀) (stored_flat.mpr hs₀)
  exact ⟨fun t ht => admits_flat.mp (hterms t ht), stored_flat.mp hs⟩

theorem Visited.reached {t₀ : Term} {s₀ s : Entities} {terms : List Term} (h : Visited t₀ s₀ terms s) :
    Reached t₀ s₀ terms s := by
  induction h with
  | start => exact .start
  | step _ hstep ih => exact ih.step hstep
  | halt _ hstep ih => exact ih.halt hstep
  | part _ hu ih => exact ih.part hu
  | @given params outer value body s _ hvalue _ hbody ih =>
    have hpart : ∀ {index : Nat} {u : Term}, params[index]? = some u → u ∈ (node (.effect .give) params).parts := by
      intro index u hu
      exact mem_parts_node.mpr (.inr ⟨u, List.mem_of_getElem? hu, mem_parts_self u⟩)
    exact (ih.given (hpart hvalue)).part (hpart hbody)
  | cleared _ ih => exact ih.cleared

section
variable {t : Term} {inputs : List Term} {m m' : Machine} {e : Execution} (ht : t.Flat)
  (hinputs : ∀ input ∈ inputs, input.Flat) (hm : m.entities.Flat)
include hinputs hm

theorem flat_supply : ∃ m₁, Execution.supply inputs m = .ok () m₁ ∧ m₁.entities.Flat := by
  unfold Execution.supply
  by_cases hempty : (flatten inputs).isEmpty = true
  · simp only [hempty, if_true]
    exact ⟨m, rfl, hm⟩
  · simp only [hempty]
    exact ⟨_, rfl, hm.append (flat_join hinputs) _⟩

include ht

/-- A program ends with a term that it came to, made a single value if it is one. -/
theorem flat_of_execute (h : execute t inputs m = .ok e m') :
    m'.entities.Flat ∧ ∃ last : Term, last.Flat ∧
      (e.outcome = .value (Execution.normalize last) ∨ ∃ cause, e.outcome = .stuck last cause) ∧
      e.standardOut = m'.entities.stream Entity.standardOut ∧ e.store = m'.entities.get Entity.store := by
  obtain ⟨m₁, hsupply, hm₁⟩ := flat_supply hinputs hm
  obtain ⟨last, hvisited, hend, hout, hstore⟩ := visited_of_execute hsupply h
  obtain ⟨hterms, hs⟩ := flat_of_reached ht hm₁ hvisited.reached
  refine ⟨hs, last, hterms last (by simp), ?_, hout, hstore⟩
  rcases hend with ⟨-, hend⟩ | hend
  · exact .inl hend
  · exact .inr hend

end

theorem Term.Flat.normalize {t : Term} (h : t.Flat) : (Execution.normalize t).Flat :=
  admits_flat (w := ()).mp (Discipline.normalize_admits (admits_flat.mpr h))

/-- A sequence of one element is normalized to the element, and that is no sequence. -/
theorem Term.Flat.normalize_ne {t : Term} (h : t.Flat) :
    (∀ items, Execution.normalize t ≠ .spread items) ∧ ∀ u, Execution.normalize t ≠ .seq [u] := by
  have hsingle : ∀ items, (seq items).Flat → (∀ more, ofSequence items ≠ .spread more) ∧ ∀ u, ofSequence items ≠ .seq [u] := by
    intro items hitems
    match items with
    | [] => simp [ofSequence]
    | [v] =>
      have hv : v.isSequence = false := hitems.elements v (List.mem_singleton.mpr rfl)
      constructor
      · rintro more rfl
        cases hv
      · rintro u rfl
        cases hv
    | _ :: _ :: _ => simp [ofSequence]
  cases t with
  | seq items => exact hsingle items h
  | spread items =>
    refine hsingle items ?_
    rw [← row_flat (w := ()), ← Discipline.admits_spread, admits_flat]
    exact h
  | _ => simp [Execution.normalize]

/-! ## The theorem -/

/-- Whatever is made of flat terms is flat. -/
theorem made_flat {h : Holder} (hmade : Made h) : h.Flat := by
  induction hmade with
  | flat hflat => exact hflat
  | read hread => exact flat_of_readTerm hread
  | construct _ ht ih => exact flat_construct ih ht
  | string text => exact readable_flat.constructible.string text
  | data name _ ih => exact ih.data name
  | seq _ ih => exact ih
  | join _ ih => exact flat_join ih
  | get index _ ih => exact ih.get index
  | tail _ ih => exact ih.subset (List.tail_sublist _).subset
  | dropLast _ ih => exact ih.subset (List.dropLast_subset _)
  | slice _ hout ih => exact ih.slice hout
  | append _ _ ih ih' => exact ih.append ih'
  | replace index _ _ ih ih' => exact ih.replace ih' index
  | reverse _ ih => exact ih.subset (List.reverse_subset.mpr (List.Subset.refl _))
  | first _ ih => exact ih.popFirst.1
  | rest _ ih => exact ih.popFirst.2
  | noEntities => exact .empty
  | entity name _ ih => exact ih.get name
  | put name _ _ ih ih' => exact ih.put ih' name
  | appendTo name _ _ ih ih' => exact ih.append ih' name
  | remove name _ ih => exact ih.remove name
  | popped _ hpop ih => exact (ih.popFirst hpop).1
  | popFrom _ hpop ih => exact (ih.popFirst hpop).2
  | step _ _ hstep ih ih' => exact (flat_of_step ih ih' hstep).1
  | afterStep _ _ ih ih' => exact (Discipline.step_upholds () _ (admits_flat.mpr ih)).flat_after ih'
  | run _ _ hrun ih ih' => exact (flat_of_run ih ih' hrun).1
  | afterRun _ _ ih ih' => exact (Discipline.run_upholds () _ (admits_flat.mpr ih)).flat_after ih'
  | outcome _ _ _ hexecute ih ihinputs ihm =>
    obtain ⟨-, last, hlast, hend | ⟨cause, hend⟩, -⟩ := flat_of_execute ih ihinputs ihm hexecute
    · rw [hend]
      exact hlast.normalize
    · rw [hend]
      exact hlast
  | printed _ _ _ hexecute ih ihinputs ihm =>
    obtain ⟨hs, _, -, -, hout, -⟩ := flat_of_execute ih ihinputs ihm hexecute
    rw [hout]
    exact hs.stream _
  | stored _ _ _ hexecute ih ihinputs ihm =>
    obtain ⟨hs, _, -, -, -, hstore⟩ := flat_of_execute ih ihinputs ihm hexecute
    rw [hstore]
    exact hs.get _
  | afterExecution _ _ _ ih ihinputs ihm =>
    exact (Discipline.execute_upholds (admits_flat.mpr ih) (admitsAll_flat ihinputs)).flat_after ihm
  | reached _ _ hreached ht ih ih' => exact (flat_of_reached ih ih' hreached).1 _ ht
  | reachedEntities _ _ hreached ih ih' => exact (flat_of_reached ih ih' hreached).2

/-- Whatever is made of flat terms, rows and entities is flat: no sequence in it, wherever it stands, has a sequence for an
element. So a program that ends with a value, whatever its term, its inputs and the entities were made by, does not end
with a spread or with a sequence of one element. -/
theorem sequences_do_not_nest :
    (∀ h, Made h → h.Flat) ∧
    ∀ t inputs m e m' v, Made (.term t) → (∀ input ∈ inputs, Made (.term input)) → Made (.entities m.entities) →
      execute t inputs m = .ok e m' → e.outcome = .value v →
      (∀ items, v ≠ .spread items) ∧ ∀ u, v ≠ .seq [u] := by
  refine ⟨fun h hmade => made_flat hmade, fun t inputs m e m' v ht hinputs hm hexecute hv => ?_⟩
  have hflat : ∀ input ∈ inputs, input.Flat := fun input hinput => made_flat (hinputs input hinput)
  obtain ⟨-, last, hlast, hend | ⟨cause, hend⟩, -⟩ := flat_of_execute (made_flat ht) hflat (made_flat hm) hexecute
  · rw [hend] at hv
    cases hv
    exact hlast.normalize_ne
  · rw [hend] at hv
    cases hv

/-- `tuple-elements(tuple((1,2),reverse(3,4)))`: a sequence and a spread are joined in the tuple, and the spread of its
parts is one sequence in the end. -/
theorem sequences_do_not_nest_tuple :
    let back : Term := .node (.composite .reverse) [.seq [.int 3, .int 4]]
    let t : Term := .node (.composite .tupleElements) [.node (.composite .tuple) [.seq [.int 1, .int 2, back]]]
    let m₀ : Machine := ⟨{}, .empty, .ofSeed 0x5EED, 0⟩
    let v : Term := .seq [.int 1, .int 2, .int 4, .int 3]
    ∃ e m', readTerm "tuple-elements(tuple((1,2),reverse(3,4)))" = .ok t ∧ execute t [] m₀ = .ok e m' ∧
      e.outcome = .value v ∧ v.Flat ∧ m'.entities.Flat ∧ (∀ items, v ≠ .spread items) ∧ ∀ u, v ≠ .seq [u] := by
  intro back t m₀ v
  have hread : readTerm "tuple-elements(tuple((1,2),reverse(3,4)))" = .ok t := by decide +kernel +zetaReduce
  obtain ⟨e, m', hfuel, hv⟩ : ∃ e m', Execution.executeFor 8 t [] m₀ = .ok e m' ∧ e.outcome = .value v :=
    ⟨_, _, rfl, rfl⟩
  have hexecute : execute t [] m₀ = .ok e m' := (execute_eq_iff (by trivial)).mpr ⟨8, hfuel⟩
  obtain ⟨hmade, hvalue⟩ := sequences_do_not_nest
  have ht : Made (.term t) := .read hread
  have hinputs : ∀ input ∈ ([] : List Term), Made (.term input) := by simp
  have hm : Made (.entities m₀.entities) := .noEntities
  have hflat : v.Flat := by
    have houtcome := hmade _ (.outcome ht hinputs hm hexecute)
    rw [hv] at houtcome
    exact houtcome
  have hentities : m'.entities.Flat := by
    have hafter := hmade _ (.afterExecution ht hinputs hm)
    rw [hexecute] at hafter
    exact hafter
  exact ⟨e, m', hread, hexecute, hv, hflat, hentities, hvalue t [] m₀ e m' v ht hinputs hm hexecute hv⟩

end TermMachine
