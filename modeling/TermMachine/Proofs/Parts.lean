import TermMachine.Proofs.Nodes
import TermMachine.Term.Finite

/-!
# The parts of a term

`t.parts` lists every term that occurs in `t`, at any depth and in any place, `t` itself first. What is asked of
a term everywhere is asked of its parts.

Proved: `mem_parts_data`, `mem_parts_seq` and their like, where the parts of a term come from, and `parts_trans`,
that a part of a part is a part; `closed_of_mem_parts`, that a part of a closed term is closed.
-/

namespace TermMachine.Term

mutual
/-- The terms that occur in a term, itself included. -/
def parts : Term → List Term
  | data constructor args => data constructor args :: partsOfAll args
  | map entries => map entries :: partsOfEntries entries
  | set elements => set elements :: partsOfAll elements
  | seq items => seq items :: partsOfAll items
  | spread items => spread items :: partsOfAll items
  | node op params => node op params :: partsOfAll params
  | t => [t]

def partsOfAll : List Term → List Term
  | [] => []
  | t :: rest => t.parts ++ partsOfAll rest

def partsOfEntries : List (Term × List Term) → List Term
  | [] => []
  | (key, value) :: rest => key.parts ++ partsOfAll value ++ partsOfEntries rest
end

variable {t u : Term}

theorem mem_partsOfAll {items : List Term} : u ∈ partsOfAll items ↔ ∃ t ∈ items, u ∈ t.parts := by
  induction items with
  | nil => simp [partsOfAll]
  | cons t rest ih => simp [partsOfAll, ih]

theorem mem_partsOfEntries {entries : List (Term × List Term)} :
    u ∈ partsOfEntries entries ↔ ∃ e ∈ entries, u ∈ e.1.parts ∨ ∃ t ∈ e.2, u ∈ t.parts := by
  induction entries with
  | nil => simp [partsOfEntries]
  | cons e rest ih =>
    obtain ⟨key, value⟩ := e
    simp [partsOfEntries, ih, mem_partsOfAll, or_assoc]

theorem mem_parts_data {constructor : String} {args : List Term} :
    u ∈ (data constructor args).parts ↔ u = data constructor args ∨ ∃ t ∈ args, u ∈ t.parts :=
  List.mem_cons.trans (or_congr_right mem_partsOfAll)

theorem mem_parts_map {entries : List (Term × List Term)} :
    u ∈ (map entries).parts ↔ u = map entries ∨ ∃ e ∈ entries, u ∈ e.1.parts ∨ ∃ t ∈ e.2, u ∈ t.parts :=
  List.mem_cons.trans (or_congr_right mem_partsOfEntries)

theorem mem_parts_set {elements : List Term} :
    u ∈ (set elements).parts ↔ u = set elements ∨ ∃ t ∈ elements, u ∈ t.parts :=
  List.mem_cons.trans (or_congr_right mem_partsOfAll)

theorem mem_parts_seq {items : List Term} :
    u ∈ (seq items).parts ↔ u = seq items ∨ ∃ t ∈ items, u ∈ t.parts :=
  List.mem_cons.trans (or_congr_right mem_partsOfAll)

theorem mem_parts_spread {items : List Term} :
    u ∈ (spread items).parts ↔ u = spread items ∨ ∃ t ∈ items, u ∈ t.parts :=
  List.mem_cons.trans (or_congr_right mem_partsOfAll)

theorem mem_parts_node {op : Operator} {params : List Term} :
    u ∈ (node op params).parts ↔ u = node op params ∨ ∃ t ∈ params, u ∈ t.parts :=
  List.mem_cons.trans (or_congr_right mem_partsOfAll)

theorem mem_parts_self (t : Term) : t ∈ t.parts := by
  cases t <;> simp [parts]

mutual
/-- A part of a part is a part. -/
theorem parts_trans {t u v : Term} (h : u ∈ t.parts) (h' : v ∈ u.parts) : v ∈ t.parts := by
  cases t with
  | data constructor args =>
    rcases mem_parts_data.mp h with rfl | h
    · exact h'
    · exact mem_parts_data.mpr (.inr (parts_trans_all h h'))
  | map entries =>
    rcases mem_parts_map.mp h with rfl | h
    · exact h'
    · exact mem_parts_map.mpr (.inr (parts_trans_entries h h'))
  | set elements =>
    rcases mem_parts_set.mp h with rfl | h
    · exact h'
    · exact mem_parts_set.mpr (.inr (parts_trans_all h h'))
  | seq items =>
    rcases mem_parts_seq.mp h with rfl | h
    · exact h'
    · exact mem_parts_seq.mpr (.inr (parts_trans_all h h'))
  | spread items =>
    rcases mem_parts_spread.mp h with rfl | h
    · exact h'
    · exact mem_parts_spread.mpr (.inr (parts_trans_all h h'))
  | node op params =>
    rcases mem_parts_node.mp h with rfl | h
    · exact h'
    · exact mem_parts_node.mpr (.inr (parts_trans_all h h'))
  | _ =>
    simp only [parts, List.mem_singleton] at h
    rwa [h] at h'

theorem parts_trans_all {items : List Term} {u v : Term} (h : ∃ t ∈ items, u ∈ t.parts) (h' : v ∈ u.parts) :
    ∃ t ∈ items, v ∈ t.parts := by
  match items with
  | [] => simp at h
  | t :: rest =>
    simp only [List.mem_cons, exists_eq_or_imp] at h ⊢
    rcases h with h | h
    · exact .inl (parts_trans h h')
    · exact .inr (parts_trans_all h h')

theorem parts_trans_entries {entries : List (Term × List Term)} {u v : Term}
    (h : ∃ e ∈ entries, u ∈ e.1.parts ∨ ∃ t ∈ e.2, u ∈ t.parts) (h' : v ∈ u.parts) :
    ∃ e ∈ entries, v ∈ e.1.parts ∨ ∃ t ∈ e.2, v ∈ t.parts := by
  match entries with
  | [] => simp at h
  | (key, value) :: rest =>
    simp only [List.mem_cons, exists_eq_or_imp] at h ⊢
    rcases h with (h | h) | h
    · exact .inl (.inl (parts_trans h h'))
    · exact .inl (.inr (parts_trans_all h h'))
    · exact .inr (parts_trans_entries h h')
end

mutual
theorem nodes_of_mem_parts {t u : Term} (h : u ∈ t.parts) : u.nodes ≤ t.nodes := by
  cases t with
  | data constructor args =>
    rcases mem_parts_data.mp h with rfl | h
    · exact Nat.le_refl _
    · simpa only [nodes] using nodes_of_mem_partsOfAll h
  | map entries =>
    rcases mem_parts_map.mp h with rfl | h
    · exact Nat.le_refl _
    · simpa only [nodes] using nodes_of_mem_partsOfEntries h
  | set elements =>
    rcases mem_parts_set.mp h with rfl | h
    · exact Nat.le_refl _
    · simpa only [nodes] using nodes_of_mem_partsOfAll h
  | seq items =>
    rcases mem_parts_seq.mp h with rfl | h
    · exact Nat.le_refl _
    · simpa only [nodes] using nodes_of_mem_partsOfAll h
  | spread items =>
    rcases mem_parts_spread.mp h with rfl | h
    · exact Nat.le_refl _
    · simpa only [nodes] using nodes_of_mem_partsOfAll h
  | node op params =>
    rcases mem_parts_node.mp h with rfl | h
    · exact Nat.le_refl _
    · simpa only [nodes] using Nat.le_succ_of_le (nodes_of_mem_partsOfAll h)
  | _ =>
    simp only [parts, List.mem_singleton] at h
    subst h
    exact Nat.le_refl _

theorem nodes_of_mem_partsOfAll {items : List Term} {u : Term} (h : ∃ t ∈ items, u ∈ t.parts) :
    u.nodes ≤ nodesIn items := by
  match items with
  | [] => simp at h
  | t :: rest =>
    simp only [List.mem_cons, exists_eq_or_imp] at h
    rw [nodesIn]
    rcases h with h | h
    · exact Nat.le_trans (nodes_of_mem_parts h) (Nat.le_add_right _ _)
    · exact Nat.le_trans (nodes_of_mem_partsOfAll h) (Nat.le_add_left _ _)

theorem nodes_of_mem_partsOfEntries {entries : List (Term × List Term)} {u : Term}
    (h : ∃ e ∈ entries, u ∈ e.1.parts ∨ ∃ t ∈ e.2, u ∈ t.parts) : u.nodes ≤ nodesInEntries entries := by
  match entries with
  | [] => simp at h
  | (key, value) :: rest =>
    simp only [List.mem_cons, exists_eq_or_imp] at h
    rw [nodesInEntries]
    rcases h with (h | h) | h
    · have := nodes_of_mem_parts h
      omega
    · have := nodes_of_mem_partsOfAll h
      omega
    · have := nodes_of_mem_partsOfEntries h
      omega
end

mutual
/-- A part of a closed term is closed. -/
theorem closed_of_mem_parts {t u : Term} (hc : t.closed = true) (h : u ∈ t.parts) : u.closed = true := by
  cases t with
  | seq items =>
    rcases mem_parts_seq.mp h with rfl | h
    · exact hc
    · exact closed_of_mem_partsOfAll hc h
  | spread items =>
    rcases mem_parts_spread.mp h with rfl | h
    · exact hc
    · exact closed_of_mem_partsOfAll hc h
  | node op params =>
    rcases mem_parts_node.mp h with rfl | h
    · exact hc
    · exact closed_of_mem_partsOfAll hc h
  | _ =>
    -- any other term is a value, and has no nodes if it is closed
    have hn := nodes_of_closed_value hc rfl
    have hle := nodes_of_mem_parts h
    exact (closed_of_nodes (by omega)).1

theorem closed_of_mem_partsOfAll {items : List Term} {u : Term} (hc : allClosed items = true)
    (h : ∃ t ∈ items, u ∈ t.parts) : u.closed = true := by
  match items with
  | [] => simp at h
  | t :: rest =>
    simp only [List.mem_cons, exists_eq_or_imp] at h
    rw [allClosed, Bool.and_eq_true] at hc
    rcases h with h | h
    · exact closed_of_mem_parts hc.1 h
    · exact closed_of_mem_partsOfAll hc.2 h
end

end TermMachine.Term
