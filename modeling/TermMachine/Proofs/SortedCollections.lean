import TermMachine.Proofs.Ordering

/-!
# Collections stay sorted

The comparison of terms is transitive. So a term that is put at its place among increasing terms leaves them increasing,
and everything that the rules do with sets and maps keeps their elements and keys in increasing order. There is one such
list for every set, which is why a set that is taken apart and put together again is the same term.

Proved:
* `Ty.cmp_trans`, `Term.cmp_trans`: the comparison is transitive.
* `Increasing.insert`, `Increasing.insertAll`, `increasing_keys_put`: what the rules build is increasing.
-/

namespace TermMachine

/-- What is compared first decides; only where that is equal, and then it is the same, does the rest. -/
theorem lex_trans {α : Type} {cmp : α → α → Ordering} {a b c : α} {o₁ o₂ o₃ : Ordering}
    (heq : ∀ {x y}, cmp x y = .eq → x = y) (hfirst : cmp a b = .lt → cmp b c = .lt → cmp a c = .lt)
    (hrest : o₁ = .lt → o₂ = .lt → o₃ = .lt) (h₁ : (cmp a b).then o₁ = .lt) (h₂ : (cmp b c).then o₂ = .lt) :
    (cmp a c).then o₃ = .lt := by
  rw [Ordering.then_eq_lt] at h₁ h₂ ⊢
  rcases h₁ with h₁ | ⟨hab, h₁⟩
  · rcases h₂ with h₂ | ⟨hbc, -⟩
    · exact .inl (hfirst h₁ h₂)
    · exact .inl (heq hbc ▸ h₁)
  · obtain rfl := heq hab
    rcases h₂ with h₂ | ⟨hbc, h₂⟩
    · exact .inl h₂
    · exact .inr ⟨hbc, hrest h₁ h₂⟩

/-! ## The order is transitive -/

namespace Ty

theorem cmp_of_rank_ne {a b : Ty} (h : a.rank ≠ b.rank) : cmp a b = compare a.rank b.rank := by
  cases a <;> cases b <;> first | rfl | exact absurd rfl h

theorem rank_le_of_cmp {a b : Ty} (h : cmp a b = .lt) : a.rank ≤ b.rank := by
  by_cases hne : a.rank = b.rank
  · exact Nat.le_of_eq hne
  · rw [cmp_of_rank_ne hne, Nat.compare_eq_lt] at h
    omega

mutual
theorem cmp_trans {a b c : Ty} (h : cmp a b = .lt) (h' : cmp b c = .lt) : cmp a c = .lt := by
  have hle := rank_le_of_cmp h
  have hle' := rank_le_of_cmp h'
  by_cases hne : a.rank = c.rank
  · -- all three have the same constructor
    have hab : a.rank = b.rank := by omega
    have hbc : b.rank = c.rank := by omega
    cases a with
    | maps key value =>
      cases b with
      | maps key' value' =>
        cases c with
        | maps key'' value'' => exact lex_trans eq_of_cmp cmp_trans cmp_trans h h'
        | _ => cases hbc
      | _ => cases hab
    | sets element =>
      cases b with
      | sets element' =>
        cases c with
        | sets element'' => exact cmp_trans (a := element) h h'
        | _ => cases hbc
      | _ => cases hab
    | lists element =>
      cases b with
      | lists element' =>
        cases c with
        | lists element'' => exact cmp_trans (a := element) h h'
        | _ => cases hbc
      | _ => cases hab
    | vectors element =>
      cases b with
      | vectors element' =>
        cases c with
        | vectors element'' => exact cmp_trans (a := element) h h'
        | _ => cases hbc
      | _ => cases hab
    | tuples elements =>
      cases b with
      | tuples elements' =>
        cases c with
        | tuples elements'' => exact @cmpAll_trans elements _ _ h h'
        | _ => cases hbc
      | _ => cases hab
    | union members =>
      cases b with
      | union members' =>
        cases c with
        | union members'' => exact @cmpAll_trans members _ _ h h'
        | _ => cases hbc
      | _ => cases hab
    | intersection members =>
      cases b with
      | intersection members' =>
        cases c with
        | intersection members'' => exact @cmpAll_trans members _ _ h h'
        | _ => cases hbc
      | _ => cases hab
    | complement inner =>
      cases b with
      | complement inner' =>
        cases c with
        | complement inner'' => exact cmp_trans (a := inner) h h'
        | _ => cases hbc
      | _ => cases hab
    | _ =>
      -- of the types of this rank there is one
      cases b <;> cases hab
      cases h
  · rw [cmp_of_rank_ne hne, Nat.compare_eq_lt]
    omega

theorem cmpAll_trans {as bs cs : List Ty} (h : cmpAll as bs = .lt) (h' : cmpAll bs cs = .lt) : cmpAll as cs = .lt := by
  match as, bs, cs with
  | [], [], _ => cases h
  | _ :: _, [], _ => cases h
  | _, _ :: _, [] => cases h'
  | [], _ :: _, _ :: _ => rfl
  | a :: as, b :: bs, c :: cs => exact lex_trans eq_of_cmp cmp_trans cmpAll_trans h h'
end

end Ty

namespace Term

theorem cmp_of_rank_ne {a b : Term} (h : a.rank ≠ b.rank) : cmp a b = compare a.rank b.rank := by
  cases a <;> cases b <;> first | rfl | exact absurd rfl h

theorem rank_le_of_cmp {a b : Term} (h : cmp a b = .lt) : a.rank ≤ b.rank := by
  by_cases hne : a.rank = b.rank
  · exact Nat.le_of_eq hne
  · rw [cmp_of_rank_ne hne, Nat.compare_eq_lt] at h
    omega

mutual
theorem cmp_trans {a b c : Term} (h : cmp a b = .lt) (h' : cmp b c = .lt) : cmp a c = .lt := by
  have hle := rank_le_of_cmp h
  have hle' := rank_le_of_cmp h'
  by_cases hne : a.rank = c.rank
  · have hab : a.rank = b.rank := by omega
    have hbc : b.rank = c.rank := by omega
    cases a with
    | null =>
      cases b <;> cases hab
      cases h
    | bool x =>
      cases b with
      | bool x' =>
        cases c with
        | bool x'' => exact (Std.TransCmp.lt_trans h h' : compare x x'' = .lt)
        | _ => cases hbc
      | _ => cases hab
    | int x =>
      cases b with
      | int x' =>
        cases c with
        | int x'' => exact (Std.TransCmp.lt_trans h h' : compare x x'' = .lt)
        | _ => cases hbc
      | _ => cases hab
    | char x =>
      cases b with
      | char x' =>
        cases c with
        | char x'' => exact (Std.TransCmp.lt_trans h h' : compare x x'' = .lt)
        | _ => cases hbc
      | _ => cases hab
    | atom x =>
      cases b with
      | atom x' =>
        cases c with
        | atom x'' => exact (Std.TransCmp.lt_trans h h' : compare x x'' = .lt)
        | _ => cases hbc
      | _ => cases hab
    | data name args =>
      cases b with
      | data name' args' =>
        cases c with
        | data name'' args'' => exact lex_trans Std.LawfulEqCmp.eq_of_compare Std.TransCmp.lt_trans cmpAll_trans h h'
        | _ => cases hbc
      | _ => cases hab
    | map es =>
      cases b with
      | map es' =>
        cases c with
        | map es'' => exact @cmpEntries_trans es _ _ h h'
        | _ => cases hbc
      | _ => cases hab
    | set as =>
      cases b with
      | set as' =>
        cases c with
        | set as'' => exact @cmpAll_trans as _ _ h h'
        | _ => cases hbc
      | _ => cases hab
    | type t =>
      cases b with
      | type t' =>
        cases c with
        | type t'' => exact Ty.cmp_trans (a := t) h h'
        | _ => cases hbc
      | _ => cases hab
    | seq as =>
      cases b with
      | seq as' =>
        cases c with
        | seq as'' => exact @cmpAll_trans as _ _ h h'
        | _ => cases hbc
      | _ => cases hab
    | spread as =>
      cases b with
      | spread as' =>
        cases c with
        | spread as'' => exact @cmpAll_trans as _ _ h h'
        | _ => cases hbc
      | _ => cases hab
    | node f as =>
      cases b with
      | node f' as' =>
        cases c with
        | node f'' as'' => exact lex_trans Std.LawfulEqCmp.eq_of_compare Std.TransCmp.lt_trans cmpAll_trans h h'
        | _ => cases hbc
      | _ => cases hab
  · rw [cmp_of_rank_ne hne, Nat.compare_eq_lt]
    omega

theorem cmpAll_trans {as bs cs : List Term} (h : cmpAll as bs = .lt) (h' : cmpAll bs cs = .lt) :
    cmpAll as cs = .lt := by
  match as, bs, cs with
  | [], [], _ => cases h
  | _ :: _, [], _ => cases h
  | _, _ :: _, [] => cases h'
  | [], _ :: _, _ :: _ => rfl
  | a :: as, b :: bs, c :: cs => exact lex_trans eq_of_cmp cmp_trans cmpAll_trans h h'

theorem cmpEntries_trans {es fs gs : List (Term × List Term)} (h : cmpEntries es fs = .lt)
    (h' : cmpEntries fs gs = .lt) : cmpEntries es gs = .lt := by
  match es, fs, gs with
  | [], [], _ => cases h
  | _ :: _, [], _ => cases h
  | _, _ :: _, [] => cases h'
  | [], _ :: _, _ :: _ => rfl
  | (k, v) :: es, (l, w) :: fs, (j, u) :: gs =>
    rw [cmpEntries, Ordering.then_assoc] at h h' ⊢
    exact lex_trans eq_of_cmp cmp_trans (lex_trans eq_of_cmpAll cmpAll_trans cmpEntries_trans) h h'
end

/-! ## Sets -/

namespace Increasing

variable {t : Term} {elements terms : List Term}

theorem insert (h : Increasing elements) (t : Term) : Increasing (Elements.insert t elements) := by
  induction elements with
  | nil => exact List.pairwise_singleton _ _
  | cons u rest ih =>
    obtain ⟨hu, hrest⟩ := List.pairwise_cons.mp h
    unfold Elements.insert
    split
    · next hlt =>
      -- what comes after `u` is greater than `t` as well
      refine List.pairwise_cons.mpr ⟨fun v hv => ?_, h⟩
      rcases List.mem_cons.mp hv with rfl | hv
      · exact hlt
      · exact cmp_trans hlt (hu v hv)
    · exact h
    · next hgt =>
      refine List.pairwise_cons.mpr ⟨fun v hv => ?_, ih hrest⟩
      rcases Elements.mem_insert.mp hv with rfl | hv
      · rw [cmp_swap v u, hgt]
        rfl
      · exact hu v hv

theorem insertAll (terms : List Term) (h : Increasing elements) : Increasing (Elements.insertAll terms elements) := by
  induction terms generalizing elements with
  | nil => exact h
  | cons t rest ih => exact ih (h.insert t)

end Increasing

/-! ## Maps -/

theorem increasing_keys_put {entries : Entries} (h : Increasing entries.keys) (key : Term) (value : List Term) :
    Increasing (entries.put key value).keys := by
  rw [Entries.keys_put]
  exact h.insert key

end Term

end TermMachine
