import TermMachine.Term.Order

/-!
# Finite sets and finite maps of terms

A set value lists its elements, and a map value its entries, in increasing order and without
repetition. The functions here keep that form: they are the only way in which the rules build sets
and maps. Membership and look-up do not depend on the order.

Proved: the set of a list has the terms of the list for its elements, no more and no fewer
(`Elements.mem_ofList`); setting an entry changes what is at one key (`Entries.get?_put`).
-/

namespace TermMachine.Term

namespace Elements

/-- Put `t` at its place, unless it is there already. -/
def insert (t : Term) : List Term → List Term
  | [] => [t]
  | u :: rest =>
    match cmp t u with
    | .lt => t :: u :: rest
    | .eq => u :: rest
    | .gt => u :: insert t rest

def insertAll (terms elements : List Term) : List Term :=
  terms.foldl (fun acc t => insert t acc) elements

def ofList (terms : List Term) : List Term := insertAll terms []

def without (elements excluded : List Term) : List Term :=
  elements.filter fun t => !excluded.contains t

end Elements

abbrev Entries := List (Term × List Term)

namespace Entries

def get? (key : Term) : Entries → Option (List Term)
  | [] => none
  | (k, value) :: rest => if key = k then some value else get? key rest

/-- Set the entry at a key, replacing the one that is there. -/
def put (key : Term) (value : List Term) : Entries → Entries
  | [] => [(key, value)]
  | (k, old) :: rest =>
    match cmp key k with
    | .lt => (key, value) :: (k, old) :: rest
    | .eq => (key, value) :: rest
    | .gt => (k, old) :: put key value rest

/-- Set the entry at a key that has none. -/
def putNew? (key : Term) (value : List Term) (entries : Entries) : Option Entries :=
  match entries.get? key with
  | some _ => none
  | none => some (entries.put key value)

/-- Set the entry at a key, keeping the one that is there. -/
def keepOrPut (key : Term) (value : List Term) (entries : Entries) : Entries :=
  match entries.get? key with
  | some _ => entries
  | none => entries.put key value

/-- The map of a list of entries, the later of two with one key counting. -/
def ofList (entries : List (Term × List Term)) : Entries :=
  entries.foldl (fun acc e => acc.put e.1 e.2) []

def keys (entries : Entries) : List Term := entries.map (·.1)

def without (entries : Entries) (excluded : List Term) : Entries :=
  entries.filter fun e => !excluded.contains e.1

end Entries

/-! ## Small laws -/

theorem Elements.mem_insert {t u : Term} {elements : List Term} :
    u ∈ insert t elements ↔ u = t ∨ u ∈ elements := by
  induction elements with
  | nil => simp [insert]
  | cons v rest ih =>
    unfold insert
    split
    · simp
    · next h => rw [eq_of_cmp h]; simp
    · simp only [List.mem_cons, ih]; grind

theorem Elements.mem_insertAll {u : Term} {terms elements : List Term} :
    u ∈ insertAll terms elements ↔ u ∈ terms ∨ u ∈ elements := by
  induction terms generalizing elements with
  | nil => simp [insertAll]
  | cons t rest ih =>
    have step : insertAll (t :: rest) elements = insertAll rest (insert t elements) := rfl
    rw [step, ih, mem_insert, List.mem_cons]
    grind

theorem Elements.mem_ofList {u : Term} {terms : List Term} : u ∈ ofList terms ↔ u ∈ terms := by
  simp [ofList, mem_insertAll]

namespace Entries

/-- An entry is put where its key would be. -/
theorem keys_put (key : Term) (value : List Term) (entries : Entries) :
    (entries.put key value).keys = Elements.insert key entries.keys := by
  induction entries with
  | nil => rfl
  | cons e rest ih =>
    obtain ⟨k, old⟩ := e
    show (put key value ((k, old) :: rest)).keys = Elements.insert key (k :: keys rest)
    unfold put Elements.insert
    split
    · rfl
    · next heq =>
      rw [eq_of_cmp heq]
      rfl
    · exact congrArg (k :: ·) ih

theorem mem_keys_put {key other : Term} {value : List Term} {entries : Entries} :
    other ∈ (entries.put key value).keys ↔ other = key ∨ other ∈ entries.keys := by
  rw [keys_put, Elements.mem_insert]

theorem mem_put {e : Term × List Term} {key : Term} {value : List Term} {entries : Entries}
    (h : e ∈ put key value entries) : e = (key, value) ∨ e ∈ entries := by
  induction entries with
  | nil => simpa [put] using h
  | cons f rest ih =>
    obtain ⟨k, old⟩ := f
    unfold put at h
    split at h
    · simpa using h
    · rcases List.mem_cons.mp h with h | h
      · exact Or.inl h
      · exact Or.inr (List.mem_cons_of_mem _ h)
    · rcases List.mem_cons.mp h with h | h
      · exact Or.inr (h ▸ List.mem_cons_self)
      · exact (ih h).imp id (List.mem_cons_of_mem _)

theorem mem_of_get? {key : Term} {value : List Term} {entries : Entries} (h : get? key entries = some value) :
    (key, value) ∈ entries := by
  induction entries with
  | nil => cases h
  | cons f rest ih =>
    obtain ⟨k, old⟩ := f
    unfold get? at h
    split at h
    · rename_i hk
      cases h
      simp [hk]
    · exact List.mem_cons_of_mem _ (ih h)

theorem putNew?_eq_some {key : Term} {value : List Term} {entries entries' : Entries}
    (h : putNew? key value entries = some entries') : entries' = put key value entries := by
  unfold putNew? at h
  split at h
  · cases h
  · cases h; rfl

theorem mem_keys_of_get? {key : Term} {value : List Term} {entries : Entries} (h : entries.get? key = some value) :
    key ∈ entries.keys := List.mem_map_of_mem (mem_of_get? h)

theorem get?_put (key : Term) (value : List Term) (entries : Entries) (other : Term) :
    (entries.put key value).get? other = if other = key then some value else entries.get? other := by
  induction entries with
  | nil => rfl
  | cons e rest ih =>
    obtain ⟨k, old⟩ := e
    unfold put
    split
    · rfl
    · rename_i hcmp
      rw [eq_of_cmp hcmp]
      by_cases hk : other = k <;> simp [get?, hk]
    · rename_i hcmp
      have hne : k ≠ key := by
        rintro rfl
        rw [cmp_self] at hcmp
        cases hcmp
      by_cases hk : other = k
      · simp [get?, hk, hne]
      · simp [get?, hk, ih]

end Entries

end TermMachine.Term
