import Mathlib.Data.List.Nodup
import Mathlib.Data.List.Perm.Subperm
import TermMachine.Proofs.Invariant

/-!
# Laws of the entity store

What reading, setting and unsetting an entity do to one another, and to the order of the names. An entity that is set
again stays in its place; one that is set to what it holds, or unset when it is not set, leaves the store as it was.

Proved:
* `names_put`, `names_remove`: what writing and removing do to the order.
* `assign_find?`, `assign_put`, `assign_assign`: assignments to one entity.
* `find?_of_agree`: stores that agree hold the same.
* `allows_distinct`: the engine never sets an entity in two places.
-/

namespace TermMachine

namespace Entities

variable {s s' : Entities} {name : String} {value : Term}

/-! ## Names -/

/-- The names of the entities that are set, in the order of the store. -/
def names (s : Entities) : List String := s.entries.map Prod.fst

theorem search_eq_none {entries : List (String × Term)} : search name entries = none ↔ name ∉ entries.map Prod.fst := by
  induction entries with
  | nil => simp [search]
  | cons e rest ih =>
    obtain ⟨n, t⟩ := e
    by_cases hn : name = n <;> simp [search, hn, ih]

theorem find?_eq_none : s.find? name = none ↔ name ∉ s.names := search_eq_none

theorem map_fst_write (entries : List (String × Term)) : (write name value entries).map Prod.fst =
    if name ∈ entries.map Prod.fst then entries.map Prod.fst else entries.map Prod.fst ++ [name] := by
  induction entries with
  | nil => simp [write]
  | cons e rest ih =>
    obtain ⟨n, t⟩ := e
    by_cases hn : name = n
    · simp [write, hn]
    · by_cases hmem : name ∈ rest.map Prod.fst
      · rw [if_pos hmem] at ih
        simp [write, hn, ih]
        grind
      · rw [if_neg hmem] at ih
        simp [write, hn, ih]
        grind

/-- Writing keeps a name in its place, or adds it at the end. -/
theorem names_put (s : Entities) (name : String) (value : Term) :
    (s.put name value).names = if name ∈ s.names then s.names else s.names ++ [name] := map_fst_write s.entries

theorem names_remove (s : Entities) (name : String) : (s.remove name).names = s.names.filter (name ≠ ·) := by
  simp only [names, remove, List.filter_map]
  rfl

/-! ## Assignments -/

theorem remove_of_find?_eq_none (h : s.find? name = none) : s.remove name = s := by
  have hname := find?_eq_none.mp h
  have hkept : s.entries.filter (fun e => name ≠ e.1) = s.entries := by
    rw [List.filter_eq_self]
    intro e he
    have hmem : e.1 ∈ s.names := List.mem_map_of_mem he
    grind
  exact congrArg Entities.mk hkept

theorem write_search {value : Term} {entries : List (String × Term)} (h : search name entries = some value) :
    write name value entries = entries := by
  induction entries with
  | nil => cases h
  | cons e rest ih =>
    obtain ⟨n, t⟩ := e
    by_cases hn : name = n
    · simp only [search, hn, if_true, Option.some.injEq] at h
      simp [write, hn, h]
    · simp only [search, hn, if_false] at h
      simp [write, hn, ih h]

/-- Setting an entity to what it holds changes nothing. -/
theorem assign_find? (s : Entities) (name : String) : s.assign name (s.find? name) = s := by
  rcases hf : s.find? name with _ | value
  · exact remove_of_find?_eq_none hf
  · exact congrArg Entities.mk (write_search hf)

theorem write_write (name : String) (value value' : Term) (entries : List (String × Term)) :
    write name value' (write name value entries) = write name value' entries := by
  induction entries with
  | nil => simp [write]
  | cons e rest ih =>
    obtain ⟨n, t⟩ := e
    by_cases hn : name = n <;> simp [write, hn, ih]

theorem filter_write (name : String) (value : Term) (entries : List (String × Term)) :
    (write name value entries).filter (fun e => name ≠ e.1) = entries.filter fun e => name ≠ e.1 := by
  induction entries with
  | nil => simp [write]
  | cons e rest ih =>
    obtain ⟨n, t⟩ := e
    by_cases hn : name = n <;> simp_all [write]

/-- Of two assignments to one entity the last one counts. -/
theorem assign_put (s : Entities) (name : String) (value : Term) (o : Option Term) :
    (s.put name value).assign name o = s.assign name o := by
  cases o with
  | none => exact congrArg Entities.mk (filter_write name value s.entries)
  | some value' => exact congrArg Entities.mk (write_write name value value' s.entries)

theorem assign_assign (s : Entities) (name : String) (o : Option Term) :
    (s.assign name o).assign name o = s.assign name o := by
  cases o with
  | none =>
    have hnone : (s.remove name).find? name = none := by rw [find?_remove, if_pos rfl]
    exact remove_of_find?_eq_none hnone
  | some value => exact assign_put s name value (some value)

theorem find?_assign_of_ne {other : String} (h : other ≠ name) (s : Entities) (o : Option Term) :
    (s.assign name o).find? other = s.find? other := by
  cases o with
  | none => rw [assign, find?_remove, if_neg h]
  | some value => rw [assign, find?_put, if_neg h]

/-! ## Stores that agree -/

def Distinct (s : Entities) : Prop := s.names.Nodup

theorem Distinct.put (h : s.Distinct) (name : String) (value : Term) : (s.put name value).Distinct := by
  unfold Distinct
  rw [names_put]
  by_cases hmem : name ∈ s.names
  · rw [if_pos hmem]
    exact h
  · rw [if_neg hmem]
    exact List.nodup_append.mpr ⟨h, by simp, by grind⟩

theorem Distinct.remove (h : s.Distinct) (name : String) : (s.remove name).Distinct := by
  unfold Distinct
  rw [names_remove]
  exact h.filter _

theorem search_eq_some_of_mem {entries : List (String × Term)} {e : String × Term} (hd : (entries.map Prod.fst).Nodup)
    (he : e ∈ entries) : search e.1 entries = some e.2 := by
  induction entries with
  | nil => cases he
  | cons f rest ih =>
    rw [List.map_cons, List.nodup_cons] at hd
    rcases List.mem_cons.mp he with rfl | he
    · simp [search]
    · have hne : e.1 ≠ f.1 := by
        intro heq
        exact hd.1 (heq ▸ List.mem_map_of_mem he)
      simp [search, hne, ih hd.2 he]

/-- Stores that agree hold the same. -/
theorem find?_of_agree (hd : s.Distinct) (h : s.agree s' = true) (name : String) : s'.find? name = s.find? name := by
  rw [agree, Bool.and_eq_true, beq_iff_eq, List.all_eq_true] at h
  obtain ⟨hlength, hall⟩ := h
  have hsubset : s.names ⊆ s'.names := by
    intro n hn
    obtain ⟨e, he, rfl⟩ := List.mem_map.mp hn
    by_cases hmem : e.1 ∈ s'.names
    · exact hmem
    · have hfound := hall e he
      rw [find?_eq_none.mpr hmem] at hfound
      cases hfound
  have hperm : s.names.Perm s'.names := (hd.subperm hsubset).perm_of_length_le (by simp [names, hlength])
  by_cases hmem : name ∈ s.names
  · obtain ⟨e, he, rfl⟩ := List.mem_map.mp hmem
    have hfound := hall e he
    rw [beq_iff_eq] at hfound
    rw [hfound]
    exact (search_eq_some_of_mem hd he).symm
  · rw [find?_eq_none.mpr hmem, find?_eq_none.mpr fun h => hmem (hperm.mem_iff.mpr h)]

end Entities

/-- No entity is ever set twice. -/
theorem allows_distinct : Allows fun m m' => m.entities.Distinct → m'.entities.Distinct where
  refl _ h := h
  trans h h' hm := h' (h hm)
  charge _ h := h
  choices _ _ h := h
  restore _ h := h
  effect h hm := by
    cases h with
    | given => exact hm
    | assigned => exact hm
    | read hpop =>
      unfold Entities.popFirst at hpop
      split at hpop <;> cases hpop
      exact hm.put _ _
    | allocateVariable _ hs' =>
      subst hs'
      exact (hm.put _ _).put _ _
    | _ => exact hm.put _ _
  bound {m m'} value h hm := by
    have hm' := h (hm.put _ _)
    rcases m.entities.find? Entity.givenValue with _ | old
    · exact hm'.remove _
    · exact hm'.put _ _
  cleared _ h := h.remove _

end TermMachine
