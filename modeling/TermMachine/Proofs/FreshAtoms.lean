import Mathlib.Data.List.Nodup
import Mathlib.Data.List.Perm.Subperm
import TermMachine.Rules.Collection

/-!
# Fresh atoms

A search along a row of distinct candidates that is longer than the list of excluded terms cannot miss: the excluded
terms would have to hold more terms than there are. So the first numbered atom outside a list exists, and it is an
atom outside the list.

Proved: `firstOutside_of_lt`, that such a search finds a candidate, and `freshAtom_eq`, what it finds among the
numbered atoms.
-/

namespace TermMachine.Rules

theorem numberedAtom_injective : Function.Injective numberedAtom := by
  intro n k h
  simp only [numberedAtom, Term.atom.injEq, String.append_right_inj, Nat.toString_eq_repr] at h
  have hdigits : Nat.toDigits 10 n = Nat.toDigits 10 k := by
    simpa [Nat.repr] using congrArg String.toList h
  rw [← Nat.ofDigitChars_ten_toDigits (n := n), hdigits, Nat.ofDigitChars_ten_toDigits]

/-- More distinct candidates than excluded terms are not all excluded. -/
theorem firstOutside_of_lt {excluded candidates : List Term} (hdistinct : candidates.Nodup)
    (hlen : excluded.length < candidates.length) :
    firstOutside excluded candidates ∈ candidates ∧ firstOutside excluded candidates ∉ excluded := by
  unfold firstOutside
  rcases hfind : candidates.find? fun t => !excluded.contains t with _ | t
  · have hall : candidates ⊆ excluded := by
      intro t ht
      have := List.find?_eq_none.mp hfind t ht
      simpa using this
    have := (hdistinct.subperm hall).length_le
    omega
  · have hout := List.find?_some hfind
    exact ⟨List.mem_of_find?_eq_some hfind, by simpa using hout⟩

/-- The fresh atom is a numbered atom that is not excluded. -/
theorem freshAtom_eq (excluded : List Term) :
    (∃ n, freshAtom excluded = numberedAtom n) ∧ freshAtom excluded ∉ excluded := by
  have hdistinct : ((List.range (excluded.length + 1)).map numberedAtom).Nodup :=
    List.Nodup.map numberedAtom_injective List.nodup_range
  have hlen : excluded.length < ((List.range (excluded.length + 1)).map numberedAtom).length := by simp
  obtain ⟨hmem, hout⟩ := firstOutside_of_lt hdistinct hlen
  obtain ⟨n, -, hn⟩ := List.mem_map.mp hmem
  exact ⟨⟨n, hn.symm⟩, hout⟩

theorem freshAtom_not_isSequence (excluded : List Term) : (freshAtom excluded).isSequence = false := by
  obtain ⟨⟨n, hn⟩, -⟩ := freshAtom_eq excluded
  rw [hn]
  rfl

end TermMachine.Rules
