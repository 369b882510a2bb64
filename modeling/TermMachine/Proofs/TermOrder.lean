import TermMachine.Proofs.FiniteMaps
import TermMachine.Rules.Collection

/-!
# The order on terms is linear

Terms, types and rows of them are compared through one another: a term by the parts that it holds, a row by its first
difference. The laws of that comparison hold for all of them at once. Two terms are equal in the order exactly if they are
the same term, so that the order is one of terms and not of classes of them.

Sets and maps rest on this. There is one increasing row for every collection of elements; how the elements came in, in
which order and how often, leaves no trace in a set, and the order of its tuples none in a map.

Proved:
* `LinearComparison.of_laws`: opposite answers, transitivity and equality in the order make a linear order.
* `FiniteSet.ofList_eq`, `mapping_map_perm`: how the arguments of a set or a map are arranged does not count.
* `terms_are_linearly_ordered`: the order on terms is linear, and sets and maps do not depend on the order of arguments.
-/

namespace TermMachine

/-- A comparison by a linear order: it puts any two things in order, and in both orders only what is one and the same. -/
structure LinearComparison {α : Type} (cmp : α → α → Ordering) : Prop where
  total : ∀ a b, (cmp a b).isLE = true ∨ (cmp b a).isLE = true
  antisymm : ∀ a b, (cmp a b).isLE = true → (cmp b a).isLE = true → a = b
  trans : ∀ a b c, (cmp a b).isLE = true → (cmp b c).isLE = true → (cmp a c).isLE = true
  eq_iff : ∀ a b, cmp a b = .eq ↔ a = b

/-- It is enough that smaller is transitive, since what is neither smaller nor greater is the same. -/
theorem LinearComparison.of_laws {α : Type} {cmp : α → α → Ordering} (hswap : ∀ a b, cmp b a = (cmp a b).swap)
    (htrans : ∀ {a b c}, cmp a b = .lt → cmp b c = .lt → cmp a c = .lt) (heq : ∀ {a b}, cmp a b = .eq ↔ a = b) :
    LinearComparison cmp where
  total a b := by
    rw [hswap a b]
    cases cmp a b with
    | lt => exact .inl rfl
    | eq => exact .inl rfl
    | gt => exact .inr rfl
  antisymm a b hab hba := by
    rw [hswap a b, Ordering.isLE_swap] at hba
    exact heq.mp (Ordering.eq_eq_of_isLE_of_isGE hab hba)
  trans a b c hab hbc := by
    rw [Ordering.isLE_iff_eq_lt_or_eq_eq] at hab
    rcases hab with hab | hab
    · rw [Ordering.isLE_iff_eq_lt_or_eq_eq] at hbc
      rcases hbc with hbc | hbc
      · rw [htrans hab hbc]
        rfl
      · rw [← heq.mp hbc, hab]
        rfl
    · rwa [heq.mp hab]
  eq_iff _ _ := heq

open Term Rules

namespace Term

def FiniteSet.ofList (terms : List Term) : FiniteSet := ⟨Elements.ofList terms, Increasing.insertAll terms .nil⟩

theorem FiniteSet.ofList_eq {as bs : List Term} (h : ∀ t, t ∈ as ↔ t ∈ bs) : ofList as = ofList bs := by
  refine FiniteSet.ext fun t => ?_
  rw [ofList, ofList, Elements.mem_ofList, Elements.mem_ofList, h t]

end Term

namespace Rules

def IsKeyTuple (t : Term) : Prop := ∃ key rest, t = .data tupleName (key :: rest)

/-- The tuples of the entries that are read from key tuples are these tuples. -/
theorem map_entryTuple_keyTuple? {tuples : List Term} (h : ∀ t ∈ tuples, IsKeyTuple t) :
    (tuples.filterMap keyTuple?).map entryTuple = tuples := by
  induction tuples with
  | nil => rfl
  | cons t rest ih =>
    obtain ⟨key, value, rfl⟩ := h t (by simp)
    have hkey : keyTuple? (.data tupleName (key :: value)) = some (key, value) := by simp [keyTuple?, dataArgs?]
    rw [List.filterMap_cons_some hkey, List.map_cons, ih fun u hu => h u (List.mem_cons_of_mem _ hu)]
    rfl

theorem mapping_map_perm {as bs : List Term} (h : ∀ t ∈ as, IsKeyTuple t) (hperm : as.Perm bs) :
    ∃ t, mapping .map [.seq as] = .ok t ∧ mapping .map [.seq bs] = .ok t := by
  have has := map_entryTuple_keyTuple? h
  have hbs := map_entryTuple_keyTuple? fun t ht => h t (hperm.mem_iff.mpr ht)
  refine ⟨mapOrEmpty (addEntries? [] (as.filterMap keyTuple?)), ?_, ?_⟩
  · rw [← mapping_map, has]
  · rw [mapOrEmpty_perm (hperm.filterMap _), ← mapping_map, hbs]

end Rules

/-- The order on terms is linear, with that on types below it. So the arguments of a set can come in any order and any
number of times, and the tuples of a map in any order. -/
theorem terms_are_linearly_ordered :
    LinearComparison Term.cmp ∧ LinearComparison Ty.cmp ∧
    (∀ as bs : List Term, (∀ t, t ∈ as ↔ t ∈ bs) → ∃ s : FiniteSet, (∀ t, t ∈ s.elements ↔ t ∈ as) ∧
      ∀ choices, collection .set [.seq as] choices = .ok (s.term, choices) ∧
        collection .set [.seq bs] choices = .ok (s.term, choices)) ∧
    ∀ as bs : List Term, (∀ t ∈ as, IsKeyTuple t) → as.Perm bs →
      ∃ t, mapping .map [.seq as] = .ok t ∧ mapping .map [.seq bs] = .ok t := by
  refine ⟨.of_laws Term.cmp_swap Term.cmp_trans Term.cmp_eq_iff, .of_laws Ty.cmp_swap Ty.cmp_trans Ty.cmp_eq_iff,
    fun as bs hsame => ?_, fun as bs htuples hperm => mapping_map_perm htuples hperm⟩
  have hset : ∀ (terms : List Term) choices,
      collection .set [.seq terms] choices = .ok ((FiniteSet.ofList terms).term, choices) := fun _ _ => rfl
  refine ⟨FiniteSet.ofList as, fun t => Elements.mem_ofList, fun choices => ⟨hset as choices, ?_⟩⟩
  rw [hset, FiniteSet.ofList_eq hsame]

/-- Arguments that come in another order or twice make the same set, and tuples in another order the same map. -/
theorem terms_are_linearly_ordered_arguments :
    let a : Term := .data tupleName [.int 1, .char 'a']
    let b : Term := .data tupleName [.atom "@0"]
    (∃ s : FiniteSet, ∀ choices, collection .set [.seq [a, b, a]] choices = .ok (s.term, choices) ∧
      collection .set [.seq [b, a]] choices = .ok (s.term, choices)) ∧
    ∃ t, mapping .map [.seq [a, b]] = .ok t ∧ mapping .map [.seq [b, a]] = .ok t := by
  intro a b
  have hsame : ∀ t, t ∈ [a, b, a] ↔ t ∈ [b, a] := by simp
  have htuples : ∀ t ∈ [a, b], IsKeyTuple t := by
    intro t ht
    rcases List.mem_pair.mp ht with rfl | rfl
    · exact ⟨.int 1, [.char 'a'], rfl⟩
    · exact ⟨.atom "@0", [], rfl⟩
  obtain ⟨-, -, hsets, hmaps⟩ := terms_are_linearly_ordered
  obtain ⟨s, -, hs⟩ := hsets [a, b, a] [b, a] hsame
  exact ⟨⟨s, hs⟩, hmaps [a, b] [b, a] htuples (.swap b a [])⟩

end TermMachine
