import TermMachine.Proofs.Reading
import TermMachine.Proofs.Upkeep

/-!
# Sequences do not nest

Every sequence is built by joining terms, and a sequence among them contributes its elements. So no sequence has a sequence
for an element, and neither has a row of arguments of a constructor or a value of a map. A term in which this holds
everywhere is flat. To be flat is a discipline, so the engine keeps to it.

Proved:
* `flat_of_readTerm`: what is read is flat.
* `flat_of_step`, `flat_of_run`: a step and a run keep terms and entities flat.
-/

namespace TermMachine

open Term Eval

def Term.HoldsNoSequence : Term → Prop
  | .data _ args => ∀ t ∈ args, t.isSequence = false
  | .map entries => ∀ e ∈ entries, ∀ t ∈ e.2, t.isSequence = false
  | .seq items | .spread items => ∀ t ∈ items, t.isSequence = false
  | _ => True

/-- Nowhere in the term does a sequence stand in a sequence, or in another row of terms. -/
def Term.Flat (t : Term) : Prop := ∀ u ∈ t.parts, u.HoldsNoSequence

def Entities.Flat (s : Entities) : Prop := ∀ name t, s.find? name = some t → t.Flat

/-- To be flat, as a discipline. Nothing is asked but of rows. -/
def flat : Discipline Unit where
  element t := t.isSequence = false
  node _ _ := True
  data _ _ _ := True
  type _ := True
  ledger _ _ _ := True
  excuse _ := True
  element_of_not_isSequence h := h
  node_update _ _ := trivial
  data_mono _ _ := trivial
  data_other _ _ _ := trivial
  data_named _ _ _ _ := trivial
  ledger_use _ _ := trivial
  ledger_allocate _ _ := Discipline.same_world _
  ledger_assign _ _ _ _ _ := trivial
  excuse_ordinary _ := trivial
  excuse_malformed _ _ _ := trivial
  excuse_unallocated _ _ _ := trivial

theorem fits_flat {w : Unit} {t : Term} : flat.Fits w t ↔ t.HoldsNoSequence := by
  cases t <;> simp [Discipline.Fits, HoldsNoSequence, flat]

theorem admits_flat {w : Unit} {t : Term} : flat.Admits w t ↔ t.Flat :=
  forall₂_congr fun _ _ => fits_flat

theorem stored_flat {w : Unit} {s : Entities} : flat.Stored w s ↔ s.Flat := by
  constructor
  · intro h name t ht
    exact admits_flat.mp (h.admits ht)
  · intro h
    exact ⟨fun {name t} ht => admits_flat.mpr (h name t ht), trivial⟩

/-- The elements of a flat sequence, and any flat term that is none, are no sequences. -/
theorem Term.Flat.elements {t : Term} (h : t.Flat) : ∀ u ∈ t.elements, u.isSequence = false :=
  fun u hu => ((admits_flat (w := ()).mpr h).elements u hu).1

theorem flatten_no_sequence {terms : List Term} (h : ∀ t ∈ terms, t.Flat) :
    ∀ u ∈ flatten terms, u.isSequence = false := by
  intro u hu
  obtain ⟨t, ht, hu⟩ := List.mem_flatMap.mp hu
  exact (h t ht).elements u hu

theorem readable_flat : Readable Term.HoldsNoSequence where
  value v := by cases v <;> simp [ValueName.term, signal, HoldsNoSequence]
  int _ _ := trivial
  char _ := trivial
  string text := by
    intro t ht
    obtain ⟨c, -, rfl⟩ := List.mem_map.mp ht
    rfl
  atom _ := trivial
  type _ _ := trivial
  seq h := flatten_no_sequence h
  node _ := trivial

theorem flat_of_readTerm {source : String} {t : Term} (h : readTerm source = .ok t) : t.Flat :=
  of_readTerm readable_flat.constructible h

section
variable {t t' : Term} {m m' : Machine} (ht : t.Flat) (hm : m.entities.Flat)
include ht hm

theorem flat_of_step (h : step t m = .ok t' m') : t'.Flat ∧ m'.entities.Flat := by
  have hupheld := Discipline.step_upholds () t (admits_flat.mpr ht) m (stored_flat.mpr hm)
  rw [h] at hupheld
  obtain ⟨_, -, hs, ht'⟩ := hupheld
  exact ⟨admits_flat.mp ht'.1, stored_flat.mp hs⟩

theorem flat_of_run (h : run t m = .ok t' m') : t'.Flat ∧ m'.entities.Flat := by
  have hupheld := Discipline.run_upholds () t (admits_flat.mpr ht) m (stored_flat.mpr hm)
  rw [h] at hupheld
  obtain ⟨_, -, hs, ht'⟩ := hupheld
  exact ⟨admits_flat.mp ht'.1, stored_flat.mp hs⟩

end

end TermMachine
