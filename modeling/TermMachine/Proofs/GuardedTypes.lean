import TermMachine.Membership
import TermMachine.Ty.Constructor

/-!
# Guarded types

Only a complement takes in what the type below it leaves out, and only an intersection without members takes in everything.
A type is guarded when it has neither where a term is judged as a whole; what types of collections say of the elements does
not matter. A guarded type has only values that are no sequences.

Types that are built by name have no intersection without members, so they are guarded unless they mention a complement.

Proved:
* `values_of_belongs`: what belongs to a guarded type belongs to `values`.
* `guarded_of_build`: a type built without a complement, of types that are guarded, is guarded.
* `guarded_types_leave_out_sequences`: no sequence, no spread and no node belongs to a guarded type.
-/

namespace TermMachine.Ty

open Term

mutual
/-- Outside the arguments of the types of collections, there is no complement and no intersection without members. -/
def guarded : Ty → Bool
  | union members => allGuarded members
  | intersection members => !members.isEmpty && allGuarded members
  | complement _ => false
  | _ => true

def allGuarded : List Ty → Bool
  | [] => true
  | ty :: rest => ty.guarded && allGuarded rest
end

mutual
def mentionsComplement : Ty → Bool
  | maps key value => key.mentionsComplement || value.mentionsComplement
  | sets element | lists element | vectors element => element.mentionsComplement
  | tuples members | union members | intersection members => anyMentionsComplement members
  | complement _ => true
  | _ => false

def anyMentionsComplement : List Ty → Bool
  | [] => false
  | ty :: rest => ty.mentionsComplement || anyMentionsComplement rest
end

theorem allGuarded_eq_all (types : List Ty) : allGuarded types = types.all guarded := by
  induction types with
  | nil => rfl
  | cons ty rest ih => rw [allGuarded, ih, List.all_cons]

theorem anyMentionsComplement_eq_any (types : List Ty) : anyMentionsComplement types = types.any mentionsComplement := by
  induction types with
  | nil => rfl
  | cons ty rest ih => rw [anyMentionsComplement, ih, List.any_cons]

mutual
/-- What belongs to a guarded type is a value and no sequence. -/
theorem values_of_belongs {ty : Ty} {t : Term} (hg : ty.guarded = true) (h : ty.belongs t = true) :
    values.belongs t = true := by
  cases ty with
  | values => exact h
  | union members =>
    rw [guarded] at hg
    rw [belongs] at h
    exact values_of_belongsAny hg h
  | intersection members =>
    match members with
    | [] => cases hg
    | first :: rest =>
      simp only [guarded, allGuarded, List.isEmpty_cons, Bool.not_false, Bool.true_and, Bool.and_eq_true] at hg
      simp only [belongs, belongsAll, Bool.and_eq_true] at h
      exact values_of_belongs hg.1 h.1
  | complement inner => cases hg
  | _ =>
    -- the other types ask for a form that is neither a sequence nor a node
    cases t with
    | seq items => cases h
    | spread items => cases h
    | node op params => cases h
    | _ => rfl

theorem values_of_belongsAny {members : List Ty} {t : Term} (hg : allGuarded members = true)
    (h : belongsAny members t = true) : values.belongs t = true := by
  match members with
  | [] => cases h
  | first :: rest =>
    rw [allGuarded, Bool.and_eq_true] at hg
    rw [belongsAny, Bool.or_eq_true] at h
    rcases h with h | h
    · exact values_of_belongs hg.1 h
    · exact values_of_belongsAny hg.2 h
end

theorem belongs_values {t : Term} : values.belongs t = true ↔ t.isValue = true ∧ t.isSequence = false := by
  simp [belongs]

/-- A type that is built without a complement is guarded if those in it are. -/
theorem guarded_of_build {c : TyConstructor} {types : List Ty} {ty : Ty}
    (htypes : ∀ u ∈ types, u.mentionsComplement = false → u.guarded = true) (h : c.build types = .ok ty)
    (hty : ty.mentionsComplement = false) : ty.guarded = true := by
  have hmembers : anyMentionsComplement types = false → allGuarded types = true := by
    intro hnone
    rw [anyMentionsComplement_eq_any, List.any_eq_false] at hnone
    rw [allGuarded_eq_all, List.all_eq_true]
    exact fun u hu => htypes u hu (by simpa using hnone u hu)
  unfold TyConstructor.build at h
  split at h
  · rename_i built hbuilt
    cases h
    unfold TyConstructor.build? at hbuilt
    split at hbuilt <;> cases hbuilt
    all_goals try rfl
    · rw [mentionsComplement] at hty
      simpa [guarded] using hmembers hty
    · rw [mentionsComplement] at hty
      simpa [guarded] using hmembers hty
    · rw [mentionsComplement] at hty
      cases hty
  · cases h

/-- Sequences, spreads and nodes belong to no guarded type, whatever they hold. -/
theorem guarded_types_leave_out_sequences {ty : Ty} (hg : ty.guarded = true) {t : Term}
    (ht : (∃ items, t = .seq items) ∨ (∃ items, t = .spread items) ∨ ∃ op params, t = .node op params) :
    ty.belongs t = false := by
  rw [← Bool.not_eq_true]
  intro hbelongs
  have hvalue := belongs_values.mp (values_of_belongs hg hbelongs)
  rcases ht with ⟨items, rfl⟩ | ⟨items, rfl⟩ | ⟨op, params, rfl⟩
  · cases hvalue.2
  · cases hvalue.2
  · cases hvalue.1

/-- Lists of what is no integer, sets of anything, and ground values that are text: a sequence of values and a node that
comes to one are in none of them. -/
theorem guarded_types_leave_out_sequences_union :
    let ty := union [lists (complement integers), sets (intersection []), intersection [groundValues, strings]]
    ty.guarded = true ∧ ty.belongs (.seq [.string ['a'], .int 1]) = false ∧
      ty.belongs (.node (.collection .empty) []) = false := by
  intro ty
  have hg : ty.guarded = true := rfl
  exact ⟨hg, guarded_types_leave_out_sequences hg (.inl ⟨_, rfl⟩),
    guarded_types_leave_out_sequences hg (.inr (.inr ⟨_, _, rfl⟩))⟩

end TermMachine.Ty
