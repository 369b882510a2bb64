import TermMachine.Rules.Mapping

/-!
# Increasing collections

Comparing two terms the other way round gives the opposite answer. So a term that is greater than every
element of a set goes to its end, and a set that is built from an increasing list is that list.

Proved:
* `Term.cmp_swap`: the opposite answer.
* `Elements.ofList_of_increasing`: building a set from what it lists in increasing order gives it back.
-/

namespace TermMachine

namespace Ty

mutual
theorem cmp_swap (a b : Ty) : cmp b a = (cmp a b).swap := by
  cases a with
  | maps key value =>
    cases b with
    | maps key' value' => rw [cmp, cmp, Ordering.swap_then, cmp_swap key, cmp_swap value]
    | _ => rfl
  | sets element =>
    cases b with
    | sets element' => exact cmp_swap element element'
    | _ => rfl
  | lists element =>
    cases b with
    | lists element' => exact cmp_swap element element'
    | _ => rfl
  | vectors element =>
    cases b with
    | vectors element' => exact cmp_swap element element'
    | _ => rfl
  | tuples elements =>
    cases b with
    | tuples elements' => exact cmpAll_swap elements elements'
    | _ => rfl
  | union members =>
    cases b with
    | union members' => exact cmpAll_swap members members'
    | _ => rfl
  | intersection members =>
    cases b with
    | intersection members' => exact cmpAll_swap members members'
    | _ => rfl
  | complement inner =>
    cases b with
    | complement inner' => exact cmp_swap inner inner'
    | _ => rfl
  | _ => cases b <;> rfl

theorem cmpAll_swap (as bs : List Ty) : cmpAll bs as = (cmpAll as bs).swap := by
  cases as with
  | nil => cases bs <;> rfl
  | cons a as =>
    cases bs with
    | nil => rfl
    | cons b bs => rw [cmpAll, cmpAll, Ordering.swap_then, cmp_swap a, cmpAll_swap as]
end

end Ty

namespace Term

mutual
theorem cmp_swap (a b : Term) : cmp b a = (cmp a b).swap := by
  cases a with
  | null => cases b <;> rfl
  | bool x =>
    cases b with
    | bool y => exact Std.OrientedOrd.eq_swap
    | _ => rfl
  | int n =>
    cases b with
    | int k => exact Std.OrientedOrd.eq_swap
    | _ => rfl
  | char c =>
    cases b with
    | char d => exact Std.OrientedOrd.eq_swap
    | _ => rfl
  | atom s =>
    cases b with
    | atom t => exact Std.OrientedOrd.eq_swap
    | _ => rfl
  | data s as =>
    cases b with
    | data t bs =>
      have hname : compare t s = (compare s t).swap := Std.OrientedOrd.eq_swap
      rw [cmp, cmp, Ordering.swap_then, hname, cmpAll_swap as]
    | _ => rfl
  | map es =>
    cases b with
    | map fs => exact cmpEntries_swap es fs
    | _ => rfl
  | set as =>
    cases b with
    | set bs => exact cmpAll_swap as bs
    | _ => rfl
  | type s =>
    cases b with
    | type t => exact Ty.cmp_swap s t
    | _ => rfl
  | seq as =>
    cases b with
    | seq bs => exact cmpAll_swap as bs
    | _ => rfl
  | spread as =>
    cases b with
    | spread bs => exact cmpAll_swap as bs
    | _ => rfl
  | node f as =>
    cases b with
    | node g bs =>
      have hrank : compare g.rank f.rank = (compare f.rank g.rank).swap := Std.OrientedOrd.eq_swap
      rw [cmp, cmp, Ordering.swap_then, hrank, cmpAll_swap as]
    | _ => rfl

theorem cmpAll_swap (as bs : List Term) : cmpAll bs as = (cmpAll as bs).swap := by
  cases as with
  | nil => cases bs <;> rfl
  | cons a as =>
    cases bs with
    | nil => rfl
    | cons b bs => rw [cmpAll, cmpAll, Ordering.swap_then, cmp_swap a, cmpAll_swap as]

theorem cmpEntries_swap (es fs : List (Term × List Term)) : cmpEntries fs es = (cmpEntries es fs).swap := by
  match es, fs with
  | [], [] => rfl
  | [], _ :: _ => rfl
  | _ :: _, [] => rfl
  | (k, v) :: es, (l, w) :: fs =>
    rw [cmpEntries, cmpEntries, Ordering.swap_then, Ordering.swap_then, cmp_swap k, cmpAll_swap v, cmpEntries_swap es]
end

theorem cmp_gt_of_lt {a b : Term} (h : cmp a b = .lt) : cmp b a = .gt := by
  rw [cmp_swap a b, h]
  rfl

def Increasing (terms : List Term) : Prop := terms.Pairwise fun a b => cmp a b = .lt

/-! ## Sets -/

theorem Elements.insert_of_greater {t : Term} {elements : List Term} (h : ∀ u ∈ elements, cmp u t = .lt) :
    insert t elements = elements ++ [t] := by
  induction elements with
  | nil => rfl
  | cons u rest ih =>
    have hu : cmp t u = .gt := cmp_gt_of_lt (h u (by simp))
    have hrest := ih fun v hv => h v (List.mem_cons_of_mem _ hv)
    simp only [insert, hu, hrest, List.cons_append]

theorem Elements.insertAll_of_increasing {terms elements : List Term} (h : Increasing (elements ++ terms)) :
    insertAll terms elements = elements ++ terms := by
  induction terms generalizing elements with
  | nil => simp [insertAll]
  | cons t rest ih =>
    have hstep : insertAll (t :: rest) elements = insertAll rest (insert t elements) := rfl
    have hlast : ∀ u ∈ elements, cmp u t = .lt := by
      intro u hu
      exact (List.pairwise_append.mp h).2.2 u hu t (by simp)
    rw [hstep, insert_of_greater hlast, ih (by simpa using h), List.append_assoc, List.singleton_append]

theorem Elements.ofList_of_increasing {elements : List Term} (h : Increasing elements) : ofList elements = elements :=
  insertAll_of_increasing h

end Term

namespace Rules

open Term

def entryTuple (e : Term × List Term) : Term := .data tupleName (e.1 :: e.2)

end Rules

end TermMachine
