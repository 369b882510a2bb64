/-!
# Types

A type classifies terms: it is only ever asked whether a term belongs to it. Types are values
too, so they have an order (that of the constructors below, then of their arguments) and a
printed form.

In print, unions, intersections and complements use the operators `|`, `&` and `~`; such a type is
put in parentheses where it stands as an operand of another. A union or intersection of one member
prints as that member alone.

Proved: two types compare equal exactly when they are the same type (`cmp_eq_iff`), which is how
equality of types is decided.
-/

namespace TermMachine

/-- A type. Unions and intersections may have any number of members, also none. -/
inductive Ty where
  | values
  | valueTypes
  | groundValues
  | empty
  | null
  | booleans
  | integers
  | naturalNumbers
  | characters
  | strings
  | atoms
  | datatypeValues
  | maps (key value : Ty)
  | sets (element : Ty)
  | lists (element : Ty)
  | vectors (element : Ty)
  | tuples (elements : List Ty)
  | union (members : List Ty)
  | intersection (members : List Ty)
  | complement (inner : Ty)

namespace Ty

/-! ## Printed form -/

def isCompound : Ty → Bool
  | union _ | intersection _ | complement _ => true
  | _ => false

def parenthesize (wanted : Bool) (text : List Char) : List Char :=
  if wanted then '(' :: text ++ [')'] else text

mutual
def chars : Ty → List Char
  | values => "values".toList
  | valueTypes => "value-types".toList
  | groundValues => "ground-values".toList
  | empty => "empty-type".toList
  | null => "null-type".toList
  | booleans => "booleans".toList
  | integers => "integers".toList
  | naturalNumbers => "natural-numbers".toList
  | characters => "characters".toList
  | strings => "strings".toList
  | atoms => "atoms".toList
  | datatypeValues => "datatype-values".toList
  | maps key value => "maps(".toList ++ key.chars ++ ',' :: value.chars ++ [')']
  | sets element => "sets(".toList ++ element.chars ++ [')']
  | lists element => "lists(".toList ++ element.chars ++ [')']
  | vectors element => "vectors(".toList ++ element.chars ++ [')']
  | tuples elements => "tuples(".toList ++ [','].intercalate (argumentChars elements) ++ [')']
  | union members => " | ".toList.intercalate (operandChars members)
  | intersection members => " & ".toList.intercalate (operandChars members)
  | complement inner => '~' :: parenthesize inner.isCompound inner.chars

def argumentChars : List Ty → List (List Char)
  | [] => []
  | ty :: rest => ty.chars :: argumentChars rest

def operandChars : List Ty → List (List Char)
  | [] => []
  | ty :: rest => parenthesize ty.isCompound ty.chars :: operandChars rest
end

def text (ty : Ty) : String := String.ofList ty.chars

-- One law for each form, by computation: the names in `chars` are too much for its own equations.

theorem chars_maps (key value : Ty) :
    (maps key value).chars = "maps(".toList ++ key.chars ++ ',' :: value.chars ++ [')'] := rfl

theorem chars_sets (element : Ty) : (sets element).chars = "sets(".toList ++ element.chars ++ [')'] := rfl

theorem chars_lists (element : Ty) : (lists element).chars = "lists(".toList ++ element.chars ++ [')'] := rfl

theorem chars_vectors (element : Ty) :
    (vectors element).chars = "vectors(".toList ++ element.chars ++ [')'] := rfl

theorem chars_tuples (elements : List Ty) :
    (tuples elements).chars = "tuples(".toList ++ [','].intercalate (argumentChars elements) ++ [')'] := rfl

theorem chars_union (members : List Ty) :
    (union members).chars = " | ".toList.intercalate (operandChars members) := rfl

theorem chars_intersection (members : List Ty) :
    (intersection members).chars = " & ".toList.intercalate (operandChars members) := rfl

theorem chars_complement (inner : Ty) :
    (complement inner).chars = '~' :: parenthesize inner.isCompound inner.chars := rfl

theorem argumentChars_eq_map (tys : List Ty) : argumentChars tys = tys.map chars := by
  induction tys with
  | nil => rfl
  | cons ty rest ih => rw [argumentChars, ih, List.map_cons]

theorem operandChars_eq_map (tys : List Ty) :
    operandChars tys = tys.map fun ty => parenthesize ty.isCompound ty.chars := by
  induction tys with
  | nil => rfl
  | cons ty rest ih => rw [operandChars, ih, List.map_cons]

/-! ## Order -/

def rank : Ty → Nat
  | values => 0
  | valueTypes => 1
  | groundValues => 2
  | empty => 3
  | null => 4
  | booleans => 5
  | integers => 6
  | naturalNumbers => 7
  | characters => 8
  | strings => 9
  | atoms => 10
  | datatypeValues => 11
  | maps _ _ => 12
  | sets _ => 13
  | lists _ => 14
  | vectors _ => 15
  | tuples _ => 16
  | union _ => 17
  | intersection _ => 18
  | complement _ => 19

mutual
/-- Types compare by constructor, then by arguments. -/
def cmp : Ty → Ty → Ordering
  | maps key value, maps key' value' => (cmp key key').then (cmp value value')
  | sets element, sets element' => cmp element element'
  | lists element, lists element' => cmp element element'
  | vectors element, vectors element' => cmp element element'
  | tuples elements, tuples elements' => cmpAll elements elements'
  | union members, union members' => cmpAll members members'
  | intersection members, intersection members' => cmpAll members members'
  | complement inner, complement inner' => cmp inner inner'
  | a, b => compare a.rank b.rank

/-- Lists of types compare lexicographically, a proper initial part coming first. -/
def cmpAll : List Ty → List Ty → Ordering
  | [], [] => .eq
  | [], _ :: _ => .lt
  | _ :: _, [] => .gt
  | a :: as, b :: bs => (cmp a b).then (cmpAll as bs)
end

mutual
theorem cmp_self (a : Ty) : cmp a a = .eq := by
  cases a with
  | maps key value => simp [cmp, cmp_self key, cmp_self value]
  | sets element => simp [cmp, cmp_self element]
  | lists element => simp [cmp, cmp_self element]
  | vectors element => simp [cmp, cmp_self element]
  | tuples elements => simp [cmp, cmpAll_self elements]
  | union members => simp [cmp, cmpAll_self members]
  | intersection members => simp [cmp, cmpAll_self members]
  | complement inner => simp [cmp, cmp_self inner]
  | _ => rfl

theorem cmpAll_self (as : List Ty) : cmpAll as as = .eq := by
  cases as with
  | nil => rfl
  | cons a as => simp [cmpAll, cmp_self a, cmpAll_self as]
end

mutual
theorem eq_of_cmp {a b : Ty} (h : cmp a b = .eq) : a = b := by
  cases a with
  | maps key value =>
    cases b <;> simp [cmp, rank] at h
    rw [eq_of_cmp h.1, eq_of_cmp h.2]
  | sets element =>
    cases b <;> simp [cmp, rank] at h
    rw [eq_of_cmp h]
  | lists element =>
    cases b <;> simp [cmp, rank] at h
    rw [eq_of_cmp h]
  | vectors element =>
    cases b <;> simp [cmp, rank] at h
    rw [eq_of_cmp h]
  | tuples elements =>
    cases b <;> simp [cmp, rank] at h
    rw [eq_of_cmpAll h]
  | union members =>
    cases b <;> simp [cmp, rank] at h
    rw [eq_of_cmpAll h]
  | intersection members =>
    cases b <;> simp [cmp, rank] at h
    rw [eq_of_cmpAll h]
  | complement inner =>
    cases b <;> simp [cmp, rank] at h
    rw [eq_of_cmp h]
  | _ => cases b <;> simp [cmp, rank] at h ⊢

theorem eq_of_cmpAll {as bs : List Ty} (h : cmpAll as bs = .eq) : as = bs := by
  cases as with
  | nil => cases bs <;> simp [cmpAll] at h ⊢
  | cons a as =>
    cases bs <;> simp [cmpAll] at h
    rw [eq_of_cmp h.1, eq_of_cmpAll h.2]
end

theorem cmp_eq_iff {a b : Ty} : cmp a b = .eq ↔ a = b :=
  ⟨eq_of_cmp, fun h => h ▸ cmp_self a⟩

instance : DecidableEq Ty := fun a b =>
  decidable_of_iff (cmp a b = .eq) cmp_eq_iff

end Ty

end TermMachine
