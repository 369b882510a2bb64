import TermMachine.Term

/-!
# The order on terms

Terms compare by their constructor, in the order of its declaration, and then field by field:
integers by size, characters by code point, names lexicographically by code point, operators by
their place in the catalog, and lists lexicographically with a proper initial part first. A map is
compared as the list of its entries and a set as the list of its elements.

Proved: two terms compare equal exactly when they are the same term (`cmp_eq_iff`), which is how
equality of terms is decided.
-/

namespace TermMachine.Term

def rank : Term → Nat
  | null => 0
  | bool _ => 1
  | int _ => 2
  | char _ => 3
  | atom _ => 4
  | data _ _ => 5
  | map _ => 6
  | set _ => 7
  | type _ => 8
  | seq _ => 9
  | spread _ => 10
  | node _ _ => 11

mutual
def cmp : Term → Term → Ordering
  | bool a, bool b => compare a b
  | int m, int n => compare m n
  | char c, char d => compare c d
  | atom s, atom t => compare s t
  | data s as, data t bs => (compare s t).then (cmpAll as bs)
  | map es, map fs => cmpEntries es fs
  | set as, set bs => cmpAll as bs
  | type s, type t => s.cmp t
  | seq as, seq bs => cmpAll as bs
  | spread as, spread bs => cmpAll as bs
  | node f as, node g bs => (compare f.rank g.rank).then (cmpAll as bs)
  | s, t => compare s.rank t.rank

/-- Lists of terms compare lexicographically. -/
def cmpAll : List Term → List Term → Ordering
  | [], [] => .eq
  | [], _ :: _ => .lt
  | _ :: _, [] => .gt
  | a :: as, b :: bs => (cmp a b).then (cmpAll as bs)

/-- Entries compare by key and then by value, lists of them lexicographically. -/
def cmpEntries : List (Term × List Term) → List (Term × List Term) → Ordering
  | [], [] => .eq
  | [], _ :: _ => .lt
  | _ :: _, [] => .gt
  | (k, v) :: es, (l, w) :: fs => ((cmp k l).then (cmpAll v w)).then (cmpEntries es fs)
end

mutual
theorem cmp_self (a : Term) : cmp a a = .eq := by
  cases a with
  | null => rfl
  | bool b => simp [cmp]
  | int n => simp [cmp]
  | char c => simp [cmp]
  | atom s => simp [cmp]
  | data s as => simp [cmp, cmpAll_self as]
  | map es => simp [cmp, cmpEntries_self es]
  | set as => simp [cmp, cmpAll_self as]
  | type t => simp [cmp, Ty.cmp_self t]
  | seq as => simp [cmp, cmpAll_self as]
  | spread as => simp [cmp, cmpAll_self as]
  | node f as => simp [cmp, cmpAll_self as]

theorem cmpAll_self (as : List Term) : cmpAll as as = .eq := by
  cases as with
  | nil => rfl
  | cons a as => simp [cmpAll, cmp_self a, cmpAll_self as]

theorem cmpEntries_self (es : List (Term × List Term)) : cmpEntries es es = .eq := by
  match es with
  | [] => rfl
  | (k, v) :: es => simp [cmpEntries, cmp_self k, cmpAll_self v, cmpEntries_self es]
end

mutual
theorem eq_of_cmp {a b : Term} (h : cmp a b = .eq) : a = b := by
  cases a with
  | null => cases b <;> simp [cmp, rank] at h ⊢
  | bool x => cases b <;> simp [cmp, rank] at h ⊢; exact h
  | int n => cases b <;> simp [cmp, rank] at h ⊢; exact h
  | char c => cases b <;> simp [cmp, rank] at h ⊢; exact h
  | atom s => cases b <;> simp [cmp, rank] at h ⊢; exact h
  | data s as => cases b <;> simp [cmp, rank] at h ⊢; exact ⟨h.1, eq_of_cmpAll h.2⟩
  | map es => cases b <;> simp [cmp, rank] at h ⊢; exact eq_of_cmpEntries h
  | set as => cases b <;> simp [cmp, rank] at h ⊢; exact eq_of_cmpAll h
  | type t => cases b <;> simp [cmp, rank] at h ⊢; exact Ty.eq_of_cmp h
  | seq as => cases b <;> simp [cmp, rank] at h ⊢; exact eq_of_cmpAll h
  | spread as => cases b <;> simp [cmp, rank] at h ⊢; exact eq_of_cmpAll h
  | node f as =>
    cases b <;> simp [cmp, rank] at h ⊢
    exact ⟨Operator.rank_injective h.1, eq_of_cmpAll h.2⟩

theorem eq_of_cmpAll {as bs : List Term} (h : cmpAll as bs = .eq) : as = bs := by
  cases as with
  | nil => cases bs <;> simp [cmpAll] at h ⊢
  | cons a as =>
    cases bs <;> simp [cmpAll] at h ⊢
    exact ⟨eq_of_cmp h.1, eq_of_cmpAll h.2⟩

theorem eq_of_cmpEntries {es fs : List (Term × List Term)} (h : cmpEntries es fs = .eq) :
    es = fs := by
  match es, fs with
  | [], [] => rfl
  | [], _ :: _ => simp [cmpEntries] at h
  | _ :: _, [] => simp [cmpEntries] at h
  | (k, v) :: es, (l, w) :: fs =>
    simp [cmpEntries] at h ⊢
    exact ⟨⟨eq_of_cmp h.1.1, eq_of_cmpAll h.1.2⟩, eq_of_cmpEntries h.2⟩
end

theorem cmp_eq_iff {a b : Term} : cmp a b = .eq ↔ a = b :=
  ⟨eq_of_cmp, fun h => h ▸ cmp_self a⟩

instance : DecidableEq Term := fun a b =>
  decidable_of_iff (cmp a b = .eq) cmp_eq_iff

end TermMachine.Term
