import Mathlib.Data.List.Sort
import TermMachine.Proofs.SortedCollections

/-!
# Maps as finite partial functions

`FiniteSet` and `FiniteMap` are the values that sets and maps have: a list of terms, or of entries, together with its order.
A map is determined by where it sends its keys.

The rules build maps by adding entries one after the other to those that are there already. Overriding passes over an
entry whose key has one; a union of maps and a map of tuples give up at the first such entry. All three read the entries
from left to right, so that what they build sends a key where the first entry with that key in the row of all entries
does, and those that give up do so exactly when a key occurs twice in that row. What is said about single rules comes from
this: the order of the maps counts for overriding, and does not for a union.

Proved:
* `FiniteSet.ext`, `FiniteMap.ext`: sets with the same elements are the same, and so are maps that send every key to the
  same sequence.
* `keepAll_looksUp`, `addEntries?_cases`: adding entries to a map, one after the other.
* `override_looksUp`, `unite_eq`, `addTuples_eq`: overriding, uniting and building a map are such additions.
* `maps_are_partial_functions`: what the rules on maps compute.
-/

namespace TermMachine

open Term

namespace Term

theorem Increasing.nodup {terms : List Term} (h : Increasing terms) : terms.Nodup := by
  refine h.imp ?_
  rintro a b hlt rfl
  rw [cmp_self] at hlt
  cases hlt

theorem Elements.insert_perm {t : Term} {elements : List Term} (h : t ∉ elements) :
    (insert t elements).Perm (t :: elements) := by
  induction elements with
  | nil => exact .refl _
  | cons u rest ih =>
    rw [List.mem_cons, not_or] at h
    unfold insert
    split
    · exact .refl _
    · next heq => exact absurd (eq_of_cmp heq) h.1
    · exact ((ih h.2).cons u).trans (.swap t u rest)

/-- There is one row for every collection of things whose keys increase. -/
theorem eq_of_increasing {α : Type} (key : α → Term) {as bs : List α} (has : Increasing (as.map key))
    (hbs : Increasing (bs.map key)) (h : ∀ a, a ∈ as ↔ a ∈ bs) : as = bs := by
  have hirrefl : Std.Irrefl fun a b : α => cmp (key a) (key b) = .lt :=
    ⟨fun a hlt => by rw [cmp_self] at hlt; cases hlt⟩
  have hantisymm : Std.Antisymm fun a b : α => cmp (key a) (key b) = .lt :=
    ⟨fun a b hlt hgt => by rw [cmp_gt_of_lt hlt] at hgt; cases hgt⟩
  exact (List.pairwise_map.mp has).eq_of_mem_iff (List.pairwise_map.mp hbs) h

/-! ## Set and map values -/

/-- A set value: its elements in increasing order. -/
structure FiniteSet where
  elements : List Term
  increasing : Increasing elements

def FiniteSet.term (s : FiniteSet) : Term := .set s.elements

theorem FiniteSet.ext {s s' : FiniteSet} (h : ∀ t, t ∈ s.elements ↔ t ∈ s'.elements) : s = s' := by
  have helements : s.elements = s'.elements :=
    eq_of_increasing id (by simpa using s.increasing) (by simpa using s'.increasing) h
  cases s
  cases s'
  cases helements
  rfl

/-- A map value: its entries in increasing order of their keys. -/
structure FiniteMap where
  entries : Entries
  increasing : Increasing entries.keys

namespace FiniteMap

def term (m : FiniteMap) : Term := .map m.entries

def domain (m : FiniteMap) : FiniteSet := ⟨m.entries.keys, m.increasing⟩

def Sends (m : FiniteMap) (key : Term) (value : List Term) : Prop := (key, value) ∈ m.entries

theorem mem_domain {m : FiniteMap} {key : Term} : key ∈ m.domain.elements ↔ ∃ value, m.Sends key value := by
  simp [domain, Entries.keys, Sends]

theorem ext {m n : FiniteMap} (h : ∀ key value, m.Sends key value ↔ n.Sends key value) : m = n := by
  have hentries : m.entries = n.entries := eq_of_increasing Prod.fst m.increasing n.increasing fun e => h e.1 e.2
  cases m
  cases n
  cases hentries
  rfl

end FiniteMap

/-! ## Looking up in a row of entries -/

namespace Entries

theorem get?_eq_none {key : Term} {entries : Entries} : entries.get? key = none ↔ key ∉ entries.keys := by
  induction entries with
  | nil => simp [get?, keys]
  | cons e rest ih =>
    obtain ⟨k, value⟩ := e
    by_cases hk : key = k <;> simp_all [get?, keys]

theorem get?_append (key : Term) (entries more : Entries) :
    get? key (entries ++ more) = (get? key entries).or (get? key more) := by
  induction entries with
  | nil => rfl
  | cons e rest ih =>
    obtain ⟨k, value⟩ := e
    by_cases hk : key = k <;> simp [get?, hk, ih]

/-- Where no key occurs twice, looking up finds every entry. -/
theorem get?_eq_some {key : Term} {value : List Term} {entries : Entries} (h : entries.keys.Nodup) :
    entries.get? key = some value ↔ (key, value) ∈ entries := by
  refine ⟨mem_of_get?, fun hmem => ?_⟩
  induction entries with
  | nil => cases hmem
  | cons e rest ih =>
    obtain ⟨hnot, hrest⟩ := List.nodup_cons.mp h
    rcases List.mem_cons.mp hmem with rfl | hmem
    · simp [get?]
    · have hne : key ≠ e.1 := fun heq => hnot (List.mem_map.mpr ⟨_, hmem, heq⟩)
      simp [get?, hne, ih hrest hmem]

end Entries

namespace FiniteMap

variable {m n : FiniteMap} {key : Term} {value : List Term} {row : Entries}

theorem get?_eq_some : m.entries.get? key = some value ↔ m.Sends key value :=
  Entries.get?_eq_some m.increasing.nodup

/-- The map sends a key where the first entry with that key in a row does. -/
def LooksUp (m : FiniteMap) (row : Entries) : Prop := ∀ key, m.entries.get? key = row.get? key

theorem LooksUp.unique (hm : m.LooksUp row) (hn : n.LooksUp row) : m = n := by
  refine ext fun key value => ?_
  rw [← get?_eq_some, ← get?_eq_some, hm key, hn key]

theorem LooksUp.sends (h : m.LooksUp row) : m.Sends key value ↔ row.get? key = some value := by
  rw [← get?_eq_some, h key]

theorem LooksUp.mem_domain (h : m.LooksUp row) : key ∈ m.domain.elements ↔ key ∈ row.keys := by
  have hnone : key ∉ m.entries.keys ↔ key ∉ row.keys := by
    rw [← Entries.get?_eq_none, ← Entries.get?_eq_none, h key]
  exact not_iff_not.mp hnone

def put (m : FiniteMap) (key : Term) (value : List Term) : FiniteMap :=
  ⟨m.entries.put key value, increasing_keys_put m.increasing key value⟩

/-- A new entry comes at the end of the row. -/
theorem put_looksUp (hnew : m.entries.get? key = none) : (m.put key value).LooksUp (m.entries ++ [(key, value)]) := by
  intro other
  rw [put, Entries.get?_put, Entries.get?_append]
  by_cases hother : other = key
  · simp [hother, hnew, Entries.get?]
  · simp [hother, Entries.get?]

theorem LooksUp.append {more : Entries} (h : m.LooksUp row) {r : FiniteMap} (hr : r.LooksUp (m.entries ++ more)) :
    r.LooksUp (row ++ more) := by
  intro key
  rw [hr key, Entries.get?_append, Entries.get?_append, h key]

end FiniteMap

end Term

/-! ## Adding entries -/

namespace Rules

open FiniteMap

variable (acc : FiniteMap) (more : Entries) (ms : List FiniteMap)

/-- Entries whose key is there already are passed over. -/
theorem keepAll_looksUp : ∃ r : FiniteMap,
    more.foldl (fun acc e => acc.keepOrPut e.1 e.2) acc.entries = r.entries ∧ r.LooksUp (acc.entries ++ more) := by
  induction more generalizing acc with
  | nil => exact ⟨acc, rfl, fun key => by rw [List.append_nil]⟩
  | cons e rest ih =>
    obtain ⟨key, value⟩ := e
    rw [List.foldl_cons, Entries.keepOrPut]
    rcases hget : acc.entries.get? key with _ | old
    · obtain ⟨r, hr, hlooks⟩ := ih (acc.put key value)
      refine ⟨r, hr, ?_⟩
      have happend := (put_looksUp hget).append hlooks
      rwa [List.append_assoc] at happend
    · obtain ⟨r, hr, hlooks⟩ := ih acc
      refine ⟨r, hr, fun other => ?_⟩
      rw [hlooks other, Entries.get?_append, Entries.get?_append, Entries.get?]
      by_cases hother : other = key
      · rw [hother, hget, Option.some_or, Option.some_or]
      · rw [if_neg hother]

/-- Entries are added as long as no key occurs twice. -/
theorem addEntries?_cases :
    (Entries.keys (acc.entries ++ more)).Nodup ∧
      (∃ r : FiniteMap, addEntries? acc.entries more = some r.entries ∧ r.LooksUp (acc.entries ++ more)) ∨
    ¬ (Entries.keys (acc.entries ++ more)).Nodup ∧ addEntries? acc.entries more = none := by
  induction more generalizing acc with
  | nil =>
    rw [List.append_nil]
    exact .inl ⟨acc.increasing.nodup, acc, rfl, fun _ => rfl⟩
  | cons e rest ih =>
    obtain ⟨key, value⟩ := e
    have hfold : addEntries? acc.entries ((key, value) :: rest) =
        (acc.entries.putNew? key value).bind (addEntries? · rest) := rfl
    rw [hfold, Entries.putNew?]
    rcases hget : acc.entries.get? key with _ | old
    · have hkeys : (Entries.keys ((acc.put key value).entries ++ rest)).Perm
          (Entries.keys (acc.entries ++ (key, value) :: rest)) := by
        have hnew : key ∉ Entries.keys acc.entries := Entries.get?_eq_none.mp hget
        have hinsert := (Elements.insert_perm hnew).append_right (Entries.keys rest)
        simp only [Entries.keys, List.map_append, List.map_cons]
        refine .trans ?_ List.perm_middle.symm
        rwa [← Entries.keys_put] at hinsert
      have hshift : acc.entries ++ (key, value) :: rest = (acc.entries ++ [(key, value)]) ++ rest := by simp
      rcases ih (acc.put key value) with ⟨hnodup, r, hr, hlooks⟩ | ⟨hnodup, hr⟩
      · refine .inl ⟨hkeys.nodup_iff.mp hnodup, r, hr, ?_⟩
        rw [hshift]
        exact (put_looksUp hget).append hlooks
      · exact .inr ⟨fun h => hnodup (hkeys.nodup_iff.mpr h), hr⟩
    · refine .inr ⟨fun hnodup => ?_, rfl⟩
      rw [Entries.keys, List.map_append, List.nodup_append] at hnodup
      exact hnodup.2.2 key (Entries.mem_keys_of_get? hget) key (by simp) rfl

/-- Maps that override one another are one row of entries. -/
theorem override_looksUp : ∃ r : FiniteMap,
    override acc.entries (ms.map term) = .ok r.entries ∧ r.LooksUp (acc.entries ++ ms.flatMap (·.entries)) := by
  induction ms generalizing acc with
  | nil => exact ⟨acc, rfl, fun key => by rw [List.flatMap_nil, List.append_nil]⟩
  | cons m rest ih =>
    obtain ⟨next, hnext, hlooks⟩ := keepAll_looksUp acc m.entries
    obtain ⟨r, hr, hlooks'⟩ := ih next
    refine ⟨r, ?_, ?_⟩
    · rw [← hr, ← hnext]
      rfl
    · rw [List.flatMap_cons, ← List.append_assoc]
      exact hlooks.append hlooks'

/-- So are maps that are united. -/
theorem unite_eq (acc : Entries) : unite acc (ms.map term) = .ok (addEntries? acc (ms.flatMap (·.entries))) := by
  induction ms generalizing acc with
  | nil => rfl
  | cons m rest ih =>
    have hfold : addEntries? acc (m.entries ++ rest.flatMap (·.entries)) =
        (addEntries? acc m.entries).bind (addEntries? · (rest.flatMap (·.entries))) := List.foldlM_append
    have hentries : entries m.term = .ok m.entries := rfl
    rw [List.flatMap_cons, hfold, List.map_cons]
    rcases hadd : addEntries? acc m.entries with _ | next
    · simp [unite, hentries, hadd, bind, Except.bind]
    · simpa [unite, hentries, hadd, bind, Except.bind] using ih next

theorem addTuples_eq (acc tuples : Entries) : addTuples acc (tuples.map entryTuple) = .ok (addEntries? acc tuples) := by
  induction tuples generalizing acc with
  | nil => rfl
  | cons e rest ih =>
    have hfold : addEntries? acc (e :: rest) = (acc.putNew? e.1 e.2).bind (addEntries? · rest) := rfl
    have hkey : expect .keyTuple keyTuple? (entryTuple e) = .ok e :=
      expect_eq_ok.mpr (by simp [entryTuple, keyTuple?, dataArgs?])
    rw [hfold, List.map_cons]
    rcases hput : acc.putNew? e.1 e.2 with _ | next
    · simp [addTuples, hkey, hput, bind, Except.bind]
    · simpa [addTuples, hkey, hput, bind, Except.bind] using ih next

/-! ## Rows of maps -/

section
variable {ms : List FiniteMap} {key : Term} {value : List Term}

def Apart (a b : FiniteMap) : Prop := ∀ key ∈ a.domain.elements, key ∉ b.domain.elements

theorem keys_row : Entries.keys (ms.flatMap (·.entries)) = ms.flatMap (·.domain.elements) := by
  rw [Entries.keys, List.map_flatMap]
  rfl

theorem mem_keys_row : key ∈ Entries.keys (ms.flatMap (·.entries)) ↔ ∃ a ∈ ms, key ∈ a.domain.elements := by
  rw [keys_row, List.mem_flatMap]

theorem nodup_keys_row : (Entries.keys (ms.flatMap (·.entries))).Nodup ↔ ms.Pairwise Apart := by
  rw [keys_row, List.nodup_flatMap, and_iff_right fun a _ => a.increasing.nodup]
  exact Iff.rfl

/-- The first entry with a key comes from the first map that has the key. -/
theorem get?_row : Entries.get? key (ms.flatMap (·.entries)) = some value ↔
    ∃ a, ms.find? (fun a => key ∈ a.domain.elements) = some a ∧ a.Sends key value := by
  induction ms with
  | nil => simp [Entries.get?]
  | cons a rest ih =>
    rw [List.flatMap_cons, Entries.get?_append]
    by_cases hkey : key ∈ a.domain.elements
    · obtain ⟨old, hold⟩ := mem_domain.mp hkey
      rw [List.find?_cons_of_pos (by simpa using hkey), get?_eq_some.mpr hold, Option.some_or, ← get?_eq_some.mpr hold,
        get?_eq_some]
      simp
    · rw [List.find?_cons_of_neg (by simpa using hkey), Entries.get?_eq_none.mpr hkey, Option.none_or, ih]

end

/-! ## The rules -/

/-- The rule gives the map with these entries, and `map-domain` the set of these keys. -/
def Gives (result : Result Term) (entry : Term → List Term → Prop) (key : Term → Prop) : Prop :=
  ∃ r : FiniteMap, result = .ok r.term ∧ (∀ k v, r.Sends k v ↔ entry k v) ∧
    ∃ d : FiniteSet, mapping .domain [r.term] = .ok d.term ∧ ∀ k, k ∈ d.elements ↔ key k

theorem gives_of_looksUp {result : Result Term} {r : FiniteMap} {row : Entries} {entry : Term → List Term → Prop}
    {key : Term → Prop} (hr : result = .ok r.term) (hlooks : r.LooksUp row)
    (hentry : ∀ k v, row.get? k = some v ↔ entry k v) (hkey : ∀ k, k ∈ row.keys ↔ key k) : Gives result entry key :=
  ⟨r, hr, fun _ _ => hlooks.sends.trans (hentry _ _), r.domain, rfl, fun _ => hlooks.mem_domain.trans (hkey _)⟩

theorem mapping_override (ms : List FiniteMap) : ∃ r : FiniteMap,
    mapping .override [.seq (ms.map term)] = .ok r.term ∧ r.LooksUp (ms.flatMap (·.entries)) := by
  obtain ⟨r, hr, hlooks⟩ := override_looksUp ⟨[], .nil⟩ ms
  refine ⟨r, ?_, hlooks⟩
  show (do return Term.map (← override [] (ms.map term))) = _
  rw [hr]
  rfl

theorem mapping_unite (ms : List FiniteMap) :
    mapping .unite [.seq (ms.map term)] = .ok (mapOrEmpty (addEntries? [] (ms.flatMap (·.entries)))) := by
  show (do return mapOrEmpty (← unite [] (ms.map term))) = _
  rw [unite_eq]
  rfl

theorem mapping_map (tuples : Entries) :
    mapping .map [.seq (tuples.map entryTuple)] = .ok (mapOrEmpty (addEntries? [] tuples)) := by
  show (do return mapOrEmpty (← addTuples [] (tuples.map entryTuple))) = _
  rw [addTuples_eq]
  rfl

/-- A row of entries without repetition makes a map. -/
theorem addEntries?_of_nodup {row : Entries} (h : row.keys.Nodup) : ∃ r : FiniteMap,
    mapOrEmpty (addEntries? [] row) = r.term ∧ r.LooksUp row := by
  rcases addEntries?_cases ⟨[], .nil⟩ row with ⟨-, r, hr, hlooks⟩ | ⟨hrepeated, -⟩
  · exact ⟨r, congrArg mapOrEmpty hr, hlooks⟩
  · exact absurd h hrepeated

/-- A map is built from the tuples of its entries. -/
theorem mapping_map_entries (m : FiniteMap) : mapping .map [.seq (m.entries.map entryTuple)] = .ok m.term := by
  obtain ⟨r, hr, hlooks⟩ := addEntries?_of_nodup m.increasing.nodup
  have hsame : r = m := hlooks.unique fun _ => rfl
  rw [mapping_map, hr, hsame]

theorem mapOrEmpty_eq_empty {row : Entries} : mapOrEmpty (addEntries? [] row) = .empty ↔ ¬ row.keys.Nodup := by
  rcases addEntries?_cases ⟨[], .nil⟩ row with ⟨hnodup, r, hr, -⟩ | ⟨hrepeated, hr⟩
  · have hsome : mapOrEmpty (addEntries? [] row) = r.term := congrArg mapOrEmpty hr
    refine ⟨fun hempty => ?_, fun h => absurd hnodup h⟩
    rw [hsome] at hempty
    cases hempty
  · exact iff_of_true (congrArg mapOrEmpty hr) hrepeated

/-- The place of an entry in the row does not count: two of them with one key are met somewhere, or none are. -/
theorem mapOrEmpty_perm {row row' : Entries} (h : row.Perm row') :
    mapOrEmpty (addEntries? [] row) = mapOrEmpty (addEntries? [] row') := by
  have hkeys : row.keys.Perm row'.keys := h.map _
  by_cases hnodup : row.keys.Nodup
  · have hnodup' := hkeys.nodup_iff.mp hnodup
    obtain ⟨r, hr, hlooks⟩ := addEntries?_of_nodup hnodup
    obtain ⟨r', hr', hlooks'⟩ := addEntries?_of_nodup hnodup'
    have hsame : r = r' := by
      refine ext fun k v => ?_
      rw [hlooks.sends, hlooks'.sends, Entries.get?_eq_some hnodup, Entries.get?_eq_some hnodup']
      exact h.mem_iff
    rw [hr, hr', hsame]
  · rw [mapOrEmpty_eq_empty.mpr hnodup, mapOrEmpty_eq_empty.mpr fun h => hnodup (hkeys.nodup_iff.mpr h)]

theorem unite_perm {ms ns : List FiniteMap} (h : ms.Perm ns) :
    mapping .unite [.seq (ms.map term)] = mapping .unite [.seq (ns.map term)] := by
  rw [mapping_unite, mapping_unite, mapOrEmpty_perm (h.flatMap_right _)]

theorem override_assoc (a b c : FiniteMap) : ∃ ab bc : FiniteMap,
    mapping .override [.seq [a.term, b.term]] = .ok ab.term ∧ mapping .override [.seq [b.term, c.term]] = .ok bc.term ∧
      mapping .override [.seq [ab.term, c.term]] = mapping .override [.seq [a.term, bc.term]] := by
  obtain ⟨ab, hab, hlooks⟩ := mapping_override [a, b]
  obtain ⟨bc, hbc, hlooks'⟩ := mapping_override [b, c]
  obtain ⟨left, hleft, hlooks₁⟩ := mapping_override [ab, c]
  obtain ⟨right, hright, hlooks₂⟩ := mapping_override [a, bc]
  have hsame : left = right := by
    refine hlooks₁.unique fun key => ?_
    have h₁ := hlooks key
    have h₂ := hlooks' key
    simp only [List.flatMap_cons, List.flatMap_nil, List.append_nil, Entries.get?_append] at h₁ h₂
    rw [hlooks₂ key]
    simp only [List.flatMap_cons, List.flatMap_nil, List.append_nil, Entries.get?_append]
    rw [h₁, h₂, Option.or_assoc]
  exact ⟨ab, bc, hab, hbc, hleft.trans (hsame ▸ hright.symm)⟩

theorem override_empty (a : FiniteMap) : mapping .override [.seq [.map [], a.term]] = .ok a.term ∧
    mapping .override [.seq [a.term, .map []]] = .ok a.term := by
  obtain ⟨left, hleft, hlooks⟩ := mapping_override [⟨[], .nil⟩, a]
  obtain ⟨right, hright, hlooks'⟩ := mapping_override [a, ⟨[], .nil⟩]
  have hself : a.LooksUp a.entries := fun _ => rfl
  have hleft' : left = a := LooksUp.unique (by simpa using hlooks) hself
  have hright' : right = a := LooksUp.unique (by simpa using hlooks') hself
  exact ⟨hleft' ▸ hleft, hright' ▸ hright⟩

theorem gives_delete (m : FiniteMap) (s : FiniteSet) : Gives (mapping .delete [m.term, s.term])
    (fun k v => m.Sends k v ∧ k ∉ s.elements) fun k => k ∈ m.domain.elements ∧ k ∉ s.elements := by
  have hsub : (Entries.without m.entries s.elements).Sublist m.entries := List.filter_sublist
  have hincreasing : Increasing (Entries.without m.entries s.elements).keys := m.increasing.sublist (hsub.map _)
  let r : FiniteMap := ⟨Entries.without m.entries s.elements, hincreasing⟩
  have hsends : ∀ k v, r.Sends k v ↔ m.Sends k v ∧ k ∉ s.elements := by
    intro k v
    simp [r, Sends, Entries.without, List.mem_filter]
  have hkeys : ∀ k, k ∈ r.domain.elements ↔ k ∈ m.domain.elements ∧ k ∉ s.elements := by
    intro k
    rw [mem_domain, mem_domain]
    simp only [hsends, exists_and_right]
  exact ⟨r, rfl, hsends, r.domain, rfl, hkeys⟩

/-- What the rules on maps make of maps `ms`, a map `m`, a set of keys and a row of tuples. -/
structure PartialFunctions (ms : List FiniteMap) (m : FiniteMap) (s : FiniteSet) (tuples : List (Term × List Term)) :
    Prop where
  /-- The entry at a key is that of the first map that has the key. -/
  override : Gives (mapping .override [.seq (ms.map term)])
    (fun k v => ∃ a, ms.find? (fun a => k ∈ a.domain.elements) = some a ∧ a.Sends k v)
    fun k => ∃ a ∈ ms, k ∈ a.domain.elements
  /-- Maps that have no key in common have a union. -/
  unite : ms.Pairwise Apart → Gives (mapping .unite [.seq (ms.map term)]) (fun k v => ∃ a ∈ ms, a.Sends k v)
    fun k => ∃ a ∈ ms, k ∈ a.domain.elements
  /-- Others have none. -/
  unite_overlap : mapping .unite [.seq (ms.map term)] = .ok .empty ↔ ¬ ms.Pairwise Apart
  delete : Gives (mapping .delete [m.term, s.term]) (fun k v => m.Sends k v ∧ k ∉ s.elements)
    fun k => k ∈ m.domain.elements ∧ k ∉ s.elements
  /-- Tuples with different first parts are the entries of a map. -/
  map : (tuples.map Prod.fst).Nodup → Gives (mapping .map [.seq (tuples.map entryTuple)]) (fun k v => (k, v) ∈ tuples)
    fun k => k ∈ tuples.map Prod.fst
  map_repeated : mapping .map [.seq (tuples.map entryTuple)] = .ok .empty ↔ ¬ (tuples.map Prod.fst).Nodup
  lookup : ∀ k v, m.Sends k v → mapping .lookup [m.term, k] = .ok (ofSequence v)
  lookup_missing : ∀ k, k ∉ m.domain.elements → mapping .lookup [m.term, k] = .ok .empty
  override_assoc : ∀ a b c : FiniteMap, ∃ ab bc : FiniteMap,
    mapping .override [.seq [a.term, b.term]] = .ok ab.term ∧ mapping .override [.seq [b.term, c.term]] = .ok bc.term ∧
      mapping .override [.seq [ab.term, c.term]] = mapping .override [.seq [a.term, bc.term]]
  override_empty : ∃ e : FiniteMap, mapping .empty [] = .ok e.term ∧
    mapping .override [.seq [e.term, m.term]] = .ok m.term ∧ mapping .override [.seq [m.term, e.term]] = .ok m.term
  unite_perm : ∀ ns, ms.Perm ns → mapping .unite [.seq (ms.map term)] = mapping .unite [.seq (ns.map term)]

/-- The rules on maps compute with finite partial functions. -/
theorem maps_are_partial_functions (ms : List FiniteMap) (m : FiniteMap) (s : FiniteSet)
    (tuples : List (Term × List Term)) : PartialFunctions ms m s tuples where
  override := by
    obtain ⟨r, hr, hlooks⟩ := mapping_override ms
    exact gives_of_looksUp hr hlooks (fun _ _ => get?_row) fun _ => mem_keys_row
  unite hapart := by
    have hnodup := nodup_keys_row.mpr hapart
    obtain ⟨r, hr, hlooks⟩ := addEntries?_of_nodup hnodup
    refine gives_of_looksUp ((mapping_unite ms).trans (congrArg _ hr)) hlooks (fun k v => ?_) fun _ => mem_keys_row
    rw [Entries.get?_eq_some hnodup, List.mem_flatMap]
    exact Iff.rfl
  unite_overlap := by
    rw [mapping_unite, Except.ok.injEq, mapOrEmpty_eq_empty, nodup_keys_row]
  delete := gives_delete m s
  map hnodup := by
    obtain ⟨r, hr, hlooks⟩ := addEntries?_of_nodup hnodup
    exact gives_of_looksUp ((mapping_map tuples).trans (congrArg _ hr)) hlooks
      (fun _ _ => Entries.get?_eq_some hnodup) fun _ => Iff.rfl
  map_repeated := by
    rw [mapping_map, Except.ok.injEq, mapOrEmpty_eq_empty]
    exact Iff.rfl
  lookup k v hsends := by
    show Except.ok (((Entries.get? k m.entries).map ofSequence).getD .empty) = _
    rw [get?_eq_some.mpr hsends]
    rfl
  lookup_missing k hmissing := by
    show Except.ok (((Entries.get? k m.entries).map ofSequence).getD .empty) = _
    rw [Entries.get?_eq_none.mpr hmissing]
    rfl
  override_assoc := override_assoc
  override_empty := ⟨⟨[], .nil⟩, rfl, override_empty m⟩
  unite_perm _ h := unite_perm h

/-- `{1|->'a'}` and `{2|->()}` have a union, with both entries. -/
theorem maps_are_partial_functions_united :
    let a : FiniteMap := ⟨[(.int 1, [.char 'a'])], List.pairwise_singleton _ _⟩
    let b : FiniteMap := ⟨[(.int 2, [])], List.pairwise_singleton _ _⟩
    [a, b].Pairwise Apart ∧ ∃ r : FiniteMap, mapping .unite [.seq [a.term, b.term]] = .ok r.term ∧
      r.Sends (.int 1) [.char 'a'] ∧ r.Sends (.int 2) [] := by
  intro a b
  have hapart : [a, b].Pairwise Apart := by
    refine List.pairwise_pair.mpr fun key ha hb => ?_
    obtain rfl : key = .int 1 := by simpa [a, domain, Entries.keys] using ha
    simp [b, domain, Entries.keys] at hb
  obtain ⟨r, hr, hsends, -⟩ := (maps_are_partial_functions [a, b] a a.domain []).unite hapart
  have ha : r.Sends (.int 1) [.char 'a'] := (hsends _ _).mpr ⟨a, by simp, by simp [Sends, a]⟩
  have hb : r.Sends (.int 2) [] := (hsends _ _).mpr ⟨b, by simp, by simp [Sends, b]⟩
  exact ⟨hapart, r, hr, ha, hb⟩

end Rules

end TermMachine
