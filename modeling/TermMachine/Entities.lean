import TermMachine.Term.Order

/-!
# The entity store

The current contents of the entities, in the order in which they were first set: writing to an
entity that is there keeps its place, and one that is removed and set again comes last. An entity
that is not set reads as the empty sequence.

The store is a value, so a snapshot of it is the store itself. `agree` compares two stores without
regard to order.

Proved: `find?_put` and `find?_remove`, that writing and removing change what one entity holds and
leave every other as it is.
-/

namespace TermMachine

/-- The contents of the entities, each name at most once. -/
structure Entities where
  entries : List (String × Term)
  deriving DecidableEq

namespace Entities

def empty : Entities := ⟨[]⟩

instance : Inhabited Entities := ⟨empty⟩

def search (name : String) : List (String × Term) → Option Term
  | [] => none
  | (n, value) :: rest => if name = n then some value else search name rest

def find? (s : Entities) (name : String) : Option Term := search name s.entries

/-- What an entity holds, the empty sequence if it is not set. -/
def get (s : Entities) (name : String) : Term := (s.find? name).getD Term.empty

def contains (s : Entities) (name : String) : Bool := (s.find? name).isSome

/-- Write to the place of `name`, or to a new last one. -/
def write (name : String) (value : Term) : List (String × Term) → List (String × Term)
  | [] => [(name, value)]
  | (n, old) :: rest =>
    if name = n then (n, value) :: rest else (n, old) :: write name value rest

def put (s : Entities) (name : String) (value : Term) : Entities :=
  ⟨write name value s.entries⟩

/-- Unset an entity. The others keep their order. -/
def remove (s : Entities) (name : String) : Entities :=
  ⟨s.entries.filter fun e => name ≠ e.1⟩

/-- Set an entity or, given nothing, unset it. -/
def assign (s : Entities) (name : String) : Option Term → Entities
  | some value => s.put name value
  | none => s.remove name

def stream (s : Entities) (name : String) : List Term := (s.get name).elements

def append (s : Entities) (name : String) (value : Term) : Entities :=
  s.put name (.seq (s.stream name ++ value.elements))

def popFirst (s : Entities) (name : String) : Option (Term × Entities) :=
  match s.stream name with
  | [] => none
  | first :: rest => some (first, s.put name (.seq rest))

/-- Whether two stores set the same entities to the same terms, in any order. -/
def agree (s s' : Entities) : Bool :=
  s.entries.length == s'.entries.length &&
    s.entries.all fun e => s'.find? e.1 == some e.2

/-! ## Small laws -/

theorem search_write (name other : String) (value : Term) (entries : List (String × Term)) :
    search other (write name value entries) =
      if other = name then some value else search other entries := by
  induction entries with
  | nil => simp [write, search]
  | cons e rest ih =>
    obtain ⟨n, old⟩ := e
    by_cases hn : name = n <;> simp only [write, search, hn, if_true, if_false, ih] <;> grind

theorem find?_put (s : Entities) (name other : String) (value : Term) :
    (s.put name value).find? other = if other = name then some value else s.find? other :=
  search_write name other value s.entries

theorem search_filter (name other : String) (entries : List (String × Term)) :
    search other (entries.filter fun e => name ≠ e.1) =
      if other = name then none else search other entries := by
  induction entries with
  | nil => simp [search]
  | cons e rest ih =>
    obtain ⟨n, old⟩ := e
    by_cases hn : name = n <;> simp [search, hn] <;> grind

theorem find?_remove (s : Entities) (name other : String) :
    (s.remove name).find? other = if other = name then none else s.find? other :=
  search_filter name other s.entries

end Entities

end TermMachine
