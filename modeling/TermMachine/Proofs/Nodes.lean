import TermMachine.Term

/-!
# Nodes in terms

What a term leaves to evaluate is in its nodes: `mentions` asks for a node of some kind at any
depth, `nodes` counts them all, and `size` counts every part of a term. A term is `closed` when no
node hides in a collection, where no step would ever reach it; a closed term without nodes is a
closed value, and the other way round.

Joining terms into one sequence keeps the nodes and never adds a part.
-/

namespace TermMachine.Term

mutual
/-- Whether a node whose operator `p` picks occurs in a term, at any depth. -/
def mentions (p : Operator → Bool) : Term → Bool
  | node op params => p op || anyMentions p params
  | data _ args => anyMentions p args
  | set elements => anyMentions p elements
  | map entries => entriesMention p entries
  | seq items | spread items => anyMentions p items
  | _ => false

def anyMentions (p : Operator → Bool) : List Term → Bool
  | [] => false
  | t :: rest => t.mentions p || anyMentions p rest

def entriesMention (p : Operator → Bool) : List (Term × List Term) → Bool
  | [] => false
  | (key, value) :: rest => key.mentions p || anyMentions p value || entriesMention p rest
end

mutual
def nodes : Term → Nat
  | node _ params => nodesIn params + 1
  | data _ args => nodesIn args
  | set elements => nodesIn elements
  | map entries => nodesInEntries entries
  | seq items | spread items => nodesIn items
  | _ => 0

def nodesIn : List Term → Nat
  | [] => 0
  | t :: rest => t.nodes + nodesIn rest

def nodesInEntries : List (Term × List Term) → Nat
  | [] => 0
  | (key, value) :: rest => key.nodes + nodesIn value + nodesInEntries rest
end

mutual
def size : Term → Nat
  | node _ params => sizeOfAll params + 1
  | data _ args => sizeOfAll args + 1
  | set elements => sizeOfAll elements + 1
  | map entries => sizeOfEntries entries + 1
  | seq items | spread items => sizeOfAll items + 1
  | _ => 1

def sizeOfAll : List Term → Nat
  | [] => 0
  | t :: rest => t.size + sizeOfAll rest

def sizeOfEntries : List (Term × List Term) → Nat
  | [] => 0
  | (key, value) :: rest => key.size + sizeOfAll value + sizeOfEntries rest
end

mutual
/-- Whether no collection in a term holds a node. -/
def closed : Term → Bool
  | node _ params => allClosed params
  | data _ args => nodesIn args == 0
  | set elements => nodesIn elements == 0
  | map entries => nodesInEntries entries == 0
  | seq items | spread items => allClosed items
  | _ => true

def allClosed : List Term → Bool
  | [] => true
  | t :: rest => t.closed && allClosed rest
end

/-! ## Lists of terms -/

theorem anyMentions_eq_false {p : Operator → Bool} {items : List Term} :
    anyMentions p items = false ↔ ∀ t ∈ items, t.mentions p = false := by
  induction items with
  | nil => simp [anyMentions]
  | cons t rest ih => simp [anyMentions, ih]

theorem allClosed_iff {items : List Term} : allClosed items = true ↔ ∀ t ∈ items, t.closed = true := by
  induction items with
  | nil => simp [allClosed]
  | cons t rest ih => simp [allClosed, ih]

theorem nodesIn_eq_zero {items : List Term} : nodesIn items = 0 ↔ ∀ t ∈ items, t.nodes = 0 := by
  induction items with
  | nil => simp [nodesIn]
  | cons t rest ih => simp [nodesIn, ih]

theorem nodesInEntries_eq_zero {entries : List (Term × List Term)} :
    nodesInEntries entries = 0 ↔ ∀ e ∈ entries, e.1.nodes = 0 ∧ nodesIn e.2 = 0 := by
  induction entries with
  | nil => simp [nodesInEntries]
  | cons e rest ih =>
    obtain ⟨key, value⟩ := e
    simp [nodesInEntries, ih]

@[simp] theorem nodesIn_append (as bs : List Term) : nodesIn (as ++ bs) = nodesIn as + nodesIn bs := by
  induction as with
  | nil => simp [nodesIn]
  | cons t rest ih => simp only [List.cons_append, nodesIn, ih]; omega

@[simp] theorem sizeOfAll_append (as bs : List Term) : sizeOfAll (as ++ bs) = sizeOfAll as + sizeOfAll bs := by
  induction as with
  | nil => simp [sizeOfAll]
  | cons t rest ih => simp only [List.cons_append, sizeOfAll, ih]; omega

@[simp] theorem allClosed_append (as bs : List Term) :
    allClosed (as ++ bs) = (allClosed as && allClosed bs) := by
  induction as with
  | nil => simp [allClosed]
  | cons t rest ih => simp [allClosed, ih, Bool.and_assoc]

theorem nodes_le_of_mem {t : Term} {items : List Term} (h : t ∈ items) : t.nodes ≤ nodesIn items := by
  induction items with
  | nil => cases h
  | cons u rest ih =>
    rcases List.mem_cons.mp h with rfl | h
    · simp [nodesIn]
    · have := ih h
      simp only [nodesIn]; omega

theorem size_le_of_mem {t : Term} {items : List Term} (h : t ∈ items) : t.size ≤ sizeOfAll items := by
  induction items with
  | nil => cases h
  | cons u rest ih =>
    rcases List.mem_cons.mp h with rfl | h
    · simp [sizeOfAll]
    · have := ih h
      simp only [sizeOfAll]; omega

theorem nodesIn_set {items : List Term} {i : Nat} {u : Term} (h : items[i]? = some u) (t : Term) :
    nodesIn (items.set i t) + u.nodes = nodesIn items + t.nodes := by
  induction items generalizing i with
  | nil => cases h
  | cons v rest ih =>
    cases i with
    | zero =>
      cases h
      simp only [List.set_cons_zero, nodesIn]; omega
    | succ i =>
      have := ih (i := i) h
      simp only [List.set_cons_succ, nodesIn]; omega

theorem sizeOfAll_set {items : List Term} {i : Nat} {u : Term} (h : items[i]? = some u) (t : Term) :
    sizeOfAll (items.set i t) + u.size = sizeOfAll items + t.size := by
  induction items generalizing i with
  | nil => cases h
  | cons v rest ih =>
    cases i with
    | zero =>
      cases h
      simp only [List.set_cons_zero, sizeOfAll]; omega
    | succ i =>
      have := ih (i := i) h
      simp only [List.set_cons_succ, sizeOfAll]; omega

theorem allClosed_set {items : List Term} {t : Term} (hi : allClosed items = true) (ht : t.closed = true)
    (i : Nat) : allClosed (items.set i t) = true := by
  rw [allClosed_iff] at hi ⊢
  intro u hu
  rcases List.mem_or_eq_of_mem_set hu with hu | rfl
  · exact hi u hu
  · exact ht

/-! ## Joined sequences -/

@[simp] theorem nodesIn_elements (t : Term) : nodesIn t.elements = t.nodes := by
  cases t <;> simp [elements, nodesIn, nodes]

theorem sizeOfAll_elements (t : Term) : sizeOfAll t.elements ≤ t.size := by
  cases t <;> simp [elements, sizeOfAll, size]

@[simp] theorem allClosed_elements (t : Term) : allClosed t.elements = t.closed := by
  cases t <;> simp [elements, allClosed, closed]

@[simp] theorem nodesIn_flatten (items : List Term) : nodesIn (flatten items) = nodesIn items := by
  induction items with
  | nil => rfl
  | cons t rest ih => simp [nodesIn, ih]

theorem sizeOfAll_flatten (items : List Term) : sizeOfAll (flatten items) ≤ sizeOfAll items := by
  induction items with
  | nil => exact Nat.le_refl _
  | cons t rest ih =>
    have := sizeOfAll_elements t
    simp only [flatten_cons, sizeOfAll_append, sizeOfAll]
    omega

@[simp] theorem allClosed_flatten (items : List Term) : allClosed (flatten items) = allClosed items := by
  induction items with
  | nil => rfl
  | cons t rest ih => simp [allClosed, ih]

/-! ## Values -/

mutual
theorem nodes_of_closed_value {t : Term} (hc : t.closed = true) (hv : t.isValue = true) : t.nodes = 0 := by
  cases t with
  | node op params => simp [isValue] at hv
  | data name args => simpa [closed, nodes] using hc
  | set elements => simpa [closed, nodes] using hc
  | map entries => simpa [closed, nodes] using hc
  | seq items =>
    simp only [closed] at hc
    simp only [isValue] at hv
    simpa only [nodes] using nodesIn_of_closed_values hc hv
  | spread items =>
    simp only [closed] at hc
    simp only [isValue] at hv
    simpa only [nodes] using nodesIn_of_closed_values hc hv
  | _ => simp [nodes]

theorem nodesIn_of_closed_values {items : List Term} (hc : allClosed items = true)
    (hv : allValues items = true) : nodesIn items = 0 := by
  match items with
  | [] => rfl
  | t :: rest =>
    simp only [allClosed, Bool.and_eq_true] at hc
    simp only [allValues, Bool.and_eq_true] at hv
    have h1 := nodes_of_closed_value hc.1 hv.1
    have h2 := nodesIn_of_closed_values hc.2 hv.2
    simp only [nodesIn]; omega
end

mutual
theorem closed_of_nodes {t : Term} (h : t.nodes = 0) : t.closed = true ∧ t.isValue = true := by
  cases t with
  | node op params => simp [nodes] at h
  | data name args => simpa [closed, nodes, isValue] using h
  | set elements => simpa [closed, nodes, isValue] using h
  | map entries => simpa [closed, nodes, isValue] using h
  | seq items =>
    simp only [nodes] at h
    simpa only [closed, isValue] using allClosed_of_nodesIn h
  | spread items =>
    simp only [nodes] at h
    simpa only [closed, isValue] using allClosed_of_nodesIn h
  | _ => simp [closed, isValue]

theorem allClosed_of_nodesIn {items : List Term} (h : nodesIn items = 0) :
    allClosed items = true ∧ allValues items = true := by
  match items with
  | [] => exact ⟨rfl, rfl⟩
  | t :: rest =>
    simp only [nodesIn] at h
    have h1 : t.closed = true ∧ t.isValue = true := closed_of_nodes (by omega)
    have h2 : allClosed rest = true ∧ allValues rest = true := allClosed_of_nodesIn (by omega)
    simp [allClosed, allValues, h1, h2]
end

/-- A term that is not a value has a node. -/
theorem nodes_pos_of_reducible {t : Term} (h : t.isValue = false) : 0 < t.nodes := by
  rcases Nat.eq_zero_or_pos t.nodes with h0 | hpos
  · rw [(closed_of_nodes h0).2] at h
    cases h
  · exact hpos

end TermMachine.Term
