import Mathlib.Data.List.Nodup
import Mathlib.Data.List.Perm.Subperm
import TermMachine.Proofs.Discipline
import TermMachine.Proofs.FreshAtoms

/-!
# Elements outside a set

`element-not-in` looks for a value of a type outside a set, and `use-atom-not-in` for an atom outside a set that was not used
before. Both walk along a row of candidates and stop at the first that is not excluded. The candidates of a row are distinct,
so that a finite set holds no more of them than it has elements: an endless row has one outside the set after as many steps at
the latest, and a row that ends is exhausted if the set holds all of it.

What is left open is whether a row has all values of its type. That of the booleans has, and the endless rows need not have.
But the row of the characters ends after the letters from a to z, and no other character is found.

Proved:
* `firstOutside_cases_at`: a search stops at the first candidate outside the set, or finds all of them inside.
* `length_le_of_first`: it has then passed no more candidates than the set has elements.
* `elementNotIn_found`, `usedAtom_put`: what the two rules find.
* `searches_find_elements`: both of them, and exactly when an element is missed.
* `letters_hide_characters`: an element that is missed.
-/

namespace TermMachine

open Term

inductive Searched where
  | booleans | integers | naturalNumbers | characters | atoms
  deriving DecidableEq

namespace Searched

def ty : Searched → Ty
  | booleans => .booleans
  | integers => .integers
  | naturalNumbers => .naturalNumbers
  | characters => .characters
  | atoms => .atoms

def candidate : Searched → Nat → Option Term
  | booleans, n => [.bool false, .bool true][n]?
  | integers, n | naturalNumbers, n => some (.int n)
  | characters, n => Rules.letters[n]?
  | atoms, n => some (Rules.numberedAtom n)

/-- The first candidates, at least `count` of them if there are as many. -/
def row (count : Nat) : Searched → List Term
  | booleans => [.bool false, .bool true]
  | integers | naturalNumbers => Rules.integersFromZero count
  | characters => Rules.letters
  | atoms => (List.range count).map Rules.numberedAtom

def isEndless : Searched → Bool
  | booleans | characters => false
  | integers | naturalNumbers | atoms => true

/-- The search stops at `t`, the first candidate outside the set, with `n` candidates inside before it. -/
structure FoundAt (T : Searched) (set : List Term) (n : Nat) (t : Term) : Prop where
  candidate : T.candidate n = some t
  outside : t ∉ set
  first : ∀ k < n, ∃ u ∈ set, T.candidate k = some u
  bounded : n ≤ set.length
  belongs : T.ty.belongs t = true

def Exhausted (T : Searched) (set : List Term) : Prop := ∀ n u, T.candidate n = some u → u ∈ set

/-! ## Rows -/

variable {T : Searched} {count : Nat}

theorem candidate_of_row {n : Nat} {t : Term} (h : (T.row count)[n]? = some t) : T.candidate n = some t := by
  have hrow : ∀ f : Nat → Term, ((List.range count).map f)[n]? = some t → some (f n) = some t := by
    intro f hf
    rw [List.getElem?_map, Option.map_eq_some_iff] at hf
    obtain ⟨k, hk, rfl⟩ := hf
    obtain ⟨_, rfl⟩ := List.getElem?_eq_some_iff.mp hk
    rw [List.getElem_range]
  cases T with
  | booleans => exact h
  | characters => exact h
  | integers => exact hrow _ h
  | naturalNumbers => exact hrow _ h
  | atoms => exact hrow _ h

theorem length_row (h : T.isEndless = true) (count : Nat) : (T.row count).length = count := by
  cases T with
  | booleans | characters => cases h
  | integers | naturalNumbers | atoms => simp [row, Rules.integersFromZero]

theorem getElem?_row (h : T.isEndless = false) (count n : Nat) : (T.row count)[n]? = T.candidate n := by
  cases T with
  | booleans | characters => rfl
  | integers | naturalNumbers | atoms => cases h

theorem nodup_row (T : Searched) (count : Nat) : (T.row count).Nodup := by
  have hint : (Rules.integersFromZero count).Nodup := by
    refine List.Nodup.map (fun n k h => ?_) List.nodup_range
    exact Int.ofNat.inj (Term.int.inj h)
  cases T with
  | booleans => exact List.nodup_cons.mpr ⟨by simp, List.nodup_singleton _⟩
  | characters => exact List.Nodup.map (fun _ _ h => Term.char.inj h) (by decide)
  | integers => exact hint
  | naturalNumbers => exact hint
  | atoms => exact List.Nodup.map Rules.numberedAtom_injective List.nodup_range

theorem belongs_of_candidate {n : Nat} {t : Term} (h : T.candidate n = some t) : T.ty.belongs t = true := by
  cases T with
  | booleans =>
    have hmem : t ∈ [Term.bool false, Term.bool true] := List.mem_of_getElem? h
    rcases List.mem_pair.mp hmem with rfl | rfl
    · rfl
    · rfl
  | characters =>
    obtain ⟨c, -, rfl⟩ := List.mem_map.mp (List.mem_of_getElem? h)
    rfl
  | integers =>
    cases h
    rfl
  | naturalNumbers =>
    cases h
    simp [ty, Ty.belongs, asInt?]
  | atoms =>
    cases h
    rfl

end Searched

namespace Rules

/-! ## Searches -/

variable {excluded candidates : List Term}

/-- A search stops at the first candidate outside, or all of them are inside. -/
theorem firstOutside_cases_at (excluded candidates : List Term) :
    (∃ n : Nat, candidates[n]? = some (firstOutside excluded candidates) ∧ firstOutside excluded candidates ∉ excluded ∧
      ∀ k < n, ∃ u ∈ excluded, candidates[k]? = some u) ∨
    (firstOutside excluded candidates = .empty ∧ ∀ u ∈ candidates, u ∈ excluded) := by
  unfold firstOutside
  rcases hfind : candidates.find? fun t => !excluded.contains t with _ | t
  · refine .inr ⟨rfl, fun u hu => ?_⟩
    simpa using List.find?_eq_none.mp hfind u hu
  · obtain ⟨hout, n, hn, rfl, hfirst⟩ := List.find?_eq_some_iff_getElem.mp hfind
    refine .inl ⟨n, List.getElem?_eq_getElem hn, by simpa using hout, fun k hk => ?_⟩
    have hin := hfirst k hk
    exact ⟨candidates[k], by simpa using hin, List.getElem?_eq_getElem (by omega)⟩

/-- Distinct candidates that are all inside are no more than the set has elements. -/
theorem length_le_of_first {n : Nat} (hdistinct : candidates.Nodup)
    (hfirst : ∀ k < n, ∃ u ∈ excluded, candidates[k]? = some u) : n ≤ excluded.length := by
  have hle : n ≤ candidates.length := by
    by_contra hlt
    obtain ⟨u, -, hu⟩ := hfirst candidates.length (by omega)
    simp at hu
  have hsub : candidates.take n ⊆ excluded := by
    intro t ht
    obtain ⟨k, hk, rfl⟩ := List.mem_take_iff_getElem.mp ht
    obtain ⟨u, hu, hget⟩ := hfirst k (by omega)
    obtain ⟨_, rfl⟩ := List.getElem?_eq_some_iff.mp hget
    exact hu
  have hlen := ((hdistinct.sublist (List.take_sublist n candidates)).subperm hsub).length_le
  rw [List.length_take] at hlen
  omega

end Rules

namespace Searched

/-! ## What is found -/

variable {T : Searched} {set : List Term}

theorem Exhausted.row_subset (h : T.Exhausted set) (count : Nat) : T.row count ⊆ set := by
  intro u hu
  obtain ⟨n, hn⟩ := List.mem_iff_getElem?.mp hu
  exact h n u (candidate_of_row hn)

/-- A set does not hold one candidate more than it has elements. -/
theorem not_row_subset (h : T.isEndless = true) : ¬ T.row (set.length + 1) ⊆ set := by
  intro hsub
  have hle := ((T.nodup_row _).subperm hsub).length_le
  rw [length_row h] at hle
  omega

theorem not_exhausted (h : T.isEndless = true) : ¬ T.Exhausted set :=
  fun hall => not_row_subset h (hall.row_subset _)

theorem exhausted_of_row_subset (h : T.row (set.length + 1) ⊆ set) : T.Exhausted set := by
  intro n u hu
  by_cases hendless : T.isEndless = true
  · exact absurd h (not_row_subset hendless)
  · rw [← getElem?_row (Bool.eq_false_iff.mpr hendless) (set.length + 1)] at hu
    exact h (List.mem_of_getElem? hu)

end Searched

namespace Rules

theorem elementNotIn_found (T : Searched) (set : List Term) : ∃ t, elementNotIn T.ty set = .ok t ∧
    ((∃ n, T.FoundAt set n t) ∨ (t = .empty ∧ T.Exhausted set)) := by
  refine ⟨firstOutside set (T.row (set.length + 1)), by cases T <;> rfl, ?_⟩
  rcases firstOutside_cases_at set (T.row (set.length + 1)) with ⟨n, hget, hout, hfirst⟩ | ⟨hempty, hall⟩
  · have hcandidate := Searched.candidate_of_row hget
    refine .inl ⟨n, hcandidate, hout, fun k hk => ?_, length_le_of_first (T.nodup_row _) hfirst,
      Searched.belongs_of_candidate hcandidate⟩
    obtain ⟨u, hu, hrow⟩ := hfirst k hk
    exact ⟨u, hu, Searched.candidate_of_row hrow⟩
  · exact .inr ⟨hempty, Searched.exhausted_of_row_subset hall⟩

/-- What a search is for: a value of the type outside the set, and nothing only if there is none. -/
def Answers (ty : Ty) (set : List Term) (t : Term) : Prop :=
  (ty.belongs t = true ∧ t ∉ set) ∨ (t = .empty ∧ ∀ v, ty.belongs v = true → v ∈ set)

def HidesCharacters (set : List Term) : Prop := letters ⊆ set ∧ ∃ c, Term.char c ∉ set

theorem answers_empty_iff (T : Searched) (set : List Term) :
    Answers T.ty set .empty ↔ ∀ v, T.ty.belongs v = true → v ∈ set := by
  have hempty : T.ty.belongs .empty = false := by cases T <;> rfl
  simp [Answers, hempty]

/-- When all candidates are inside, it is right to give nothing unless there are characters beyond the letters. -/
theorem answers_exhausted_iff {T : Searched} {set : List Term} (h : T.Exhausted set) :
    Answers T.ty set .empty ↔ ¬ (T = .characters ∧ HidesCharacters set) := by
  rw [answers_empty_iff]
  cases T with
  | integers | naturalNumbers | atoms => exact absurd h (Searched.not_exhausted rfl)
  | booleans =>
    refine iff_of_true (fun v hv => ?_) (fun hcontra => nomatch hcontra.1)
    cases v with
    | bool b =>
      cases b with
      | false => exact h 0 _ rfl
      | true => exact h 1 _ rfl
    | _ => cases hv
  | characters =>
    have hletters : letters ⊆ set := h.row_subset 0
    refine ⟨fun hall ⟨_, _, c, hc⟩ => hc (hall _ rfl), fun hnone v hv => ?_⟩
    cases v with
    | char c =>
      by_contra hc
      exact hnone ⟨rfl, hletters, c, hc⟩
    | _ => cases hv

/-! ## The two rules -/

open Engine

/-- The atom of number `n` is the first that is neither in the set nor in use, and from now on it is in use. -/
structure UsedAtom (set : List Term) (s s' : Entities) (n : Nat) : Prop where
  belongs : Ty.atoms.belongs (numberedAtom n) = true
  outside : numberedAtom n ∉ set
  unused : numberedAtom n ∉ usedAtoms s
  first : ∀ k < n, numberedAtom k ∈ set ∨ numberedAtom k ∈ usedAtoms s
  bounded : n ≤ set.length + (usedAtoms s).length
  recorded : ∀ t, t ∈ usedAtoms s' ↔ t = numberedAtom n ∨ t ∈ usedAtoms s
  others : ∀ name, name ≠ Entity.usedAtoms → s'.find? name = s.find? name

theorem freshAtom_found (excluded : List Term) :
    ∃ n, freshAtom excluded = numberedAtom n ∧ Searched.atoms.FoundAt excluded n (numberedAtom n) := by
  obtain ⟨t, ht, ⟨n, hfound⟩ | ⟨-, hall⟩⟩ := elementNotIn_found .atoms excluded
  · cases hfound.candidate
    exact ⟨n, Except.ok.inj ht, hfound⟩
  · exact absurd hall (Searched.not_exhausted rfl)

theorem usedAtom_put (set : List Term) (s : Entities) : ∃ n, freshAtom (set ++ usedAtoms s) = numberedAtom n ∧
    UsedAtom set s (s.put Entity.usedAtoms (.set (Elements.insert (numberedAtom n) (usedAtoms s)))) n := by
  obtain ⟨n, hfresh, hfound⟩ := freshAtom_found (set ++ usedAtoms s)
  have hout := hfound.outside
  rw [List.mem_append, not_or] at hout
  refine ⟨n, hfresh, hfound.belongs, hout.1, hout.2, fun k hk => ?_, ?_, fun t => ?_, fun name hname => ?_⟩
  · obtain ⟨u, hu, hk⟩ := hfound.first k hk
    cases hk
    exact List.mem_append.mp hu
  · have := hfound.bounded
    rwa [List.length_append] at this
  · rw [Discipline.usedAtoms_put_used, Elements.mem_insert]
  · rw [Entities.find?_put, if_neg hname]

/-- Both searches come to an end. `element-not-in` gives the first candidate outside the set, which is of the type, or nothing if
the set holds all candidates; that is what it is for unless the set holds the letters and not all characters.
`use-atom-not-in` gives the first atom that is neither in the set nor in use, and records it. -/
theorem searches_find_elements (set : List Term) (m : Machine) (step advance : Term → Eval Term) (rounds : Nat) :
    (∀ T : Searched, ∃ t,
      applyRule step advance rounds (.collection .elementNotIn) [.type T.ty, .set set] m = .ok t m ∧
        ((∃ n, T.FoundAt set n t) ∨ (t = .empty ∧ T.Exhausted set)) ∧
        (Answers T.ty set t ↔ ¬ (T = .characters ∧ HidesCharacters set))) ∧
    ∃ n s, applyRule step advance rounds (.effect .useAtomNotIn) [.set set] m =
        .ok (numberedAtom n) { m with entities := s } ∧ UsedAtom set m.entities s n := by
  refine ⟨fun T => ?_, ?_⟩
  · obtain ⟨t, ht, hcases⟩ := elementNotIn_found T set
    have hrule : collection .elementNotIn [.type T.ty, .set set] m.choices = .ok (t, m.choices) := by
      show (elementNotIn T.ty set >>= fun t => pure (t, m.choices)) = _
      rw [ht]
      rfl
    have happly : applyRule step advance rounds (.collection .elementNotIn) [.type T.ty, .set set] m = .ok t m := by
      show (Eval.ofRule _ (collection .elementNotIn [.type T.ty, .set set] m.choices) >>= _) m = _
      rw [hrule]
      rfl
    refine ⟨t, happly, hcases, ?_⟩
    rcases hcases with ⟨n, hfound⟩ | ⟨rfl, hall⟩
    · refine iff_of_true (.inl ⟨hfound.belongs, hfound.outside⟩) ?_
      rintro ⟨rfl, hletters, -⟩
      exact hfound.outside (hletters (List.mem_of_getElem? hfound.candidate))
    · exact answers_exhausted_iff hall
  · obtain ⟨n, hfresh, hused⟩ := usedAtom_put set m.entities
    refine ⟨n, _, ?_, hused⟩
    rw [← hfresh]
    rfl

/-- Given the letters from a to z, `element-not-in` finds no character, though `A` is one. -/
theorem letters_hide_characters :
    elementNotIn .characters letters = .ok .empty ∧ Ty.characters.belongs (.char 'A') = true ∧
      Term.char 'A' ∉ letters ∧ ¬ Answers .characters letters .empty := by
  have hout : Term.char 'A' ∉ letters := by
    intro hmem
    obtain ⟨c, hc, heq⟩ := List.mem_map.mp hmem
    cases heq
    exact absurd hc (by decide)
  have hall : Searched.characters.Exhausted letters := fun n u hu => List.mem_of_getElem? hu
  have hmissed : ¬ Answers .characters letters .empty := by
    intro h
    exact (answers_exhausted_iff hall).mp h ⟨rfl, List.Subset.refl _, 'A', hout⟩
  refine ⟨?_, rfl, hout, hmissed⟩
  obtain ⟨t, ht, ⟨n, hfound⟩ | ⟨rfl, -⟩⟩ := elementNotIn_found .characters letters
  · exact absurd (hall n t hfound.candidate) hfound.outside
  · exact ht

end Rules

end TermMachine
