import TermMachine.Membership
import TermMachine.Proofs.PrintedLiterals

/-!
# Printed types are read back

A type prints with the names of the catalog and with the operators `|`, `&` and `~`. The printer puts an
operand in parentheses whenever it is itself written with an operator, however the two bind; so every
operand is a primary, and the levels of the grammar are met at once.

A union or an intersection of one member has no notation of its own: it prints as that member, and so it is
read back as that member (`collapse`). Without members it prints as nothing and is left out (`isPopulated`).
A type in which there is neither is read back as it is (`isWritable`).

Proved:
* `Catalog.lookup_name`: the catalog finds every entry under its own name.
* `Ty.printed_collapse`: a type is read back with its unions and intersections of one member collapsed.
* `Ty.printed_of_isWritable`: a type with a notation is read back.
* `Ty.printed_types_keep_their_members`: what is read back has the same members.
-/

namespace TermMachine

open Token Grammar Lexeme

/-! ## Names of the catalog -/

namespace Catalog

def Entry.name : Entry → String
  | operator op => op.name
  | value v => v.name
  | type c => c.name

def entries : List Entry :=
  Operator.all.map .operator ++ ValueName.all.map .value ++ TyConstructor.all.map .type

theorem mem_entries (e : Entry) : e ∈ entries := by
  have hvalue : ∀ v : ValueName, v ∈ ValueName.all := by
    intro v
    cases v <;> decide
  cases e with
  | operator op => simp [entries, op.mem_all]
  | value v => simp [entries, hvalue v]
  | type c => simp [entries, c.mem_all]

/-- No name has two meanings, and none is an alias of another. -/
theorem lookup_name (e : Entry) : lookup e.name = some e := by
  have hall : ∀ e ∈ entries, lookup e.name = some e := by decide +kernel
  exact hall e (mem_entries e)

theorem isIdentifier_name (e : Entry) : isIdentifier e.name.toList = true ∧ e.name ≠ "atom" := by
  have hall : ∀ e ∈ entries, isIdentifier e.name.toList = true ∧ e.name ≠ "atom" := by decide +kernel
  exact hall e (mem_entries e)

end Catalog

theorem construct_name (e : Catalog.Entry) (args : List Term) :
    Construction.construct e.name args = Construction.apply e args := by
  rw [Construction.construct, Catalog.lookup_name]

theorem prints_entryName {e : Catalog.Entry} {t : Term} (ht : Construction.apply e [] = .ok t) :
    Prints .primary e.name.toList t :=
  prints_name (Catalog.isIdentifier_name e).1 ((construct_name e []).trans ht)

theorem prints_applied {e : Catalog.Entry} {parts : List (List Char)} {ts : List Term} {t : Term}
    (h : List.Forall₂ (Prints .term) parts ts) (ht : Construction.apply e ts = .ok t) :
    Prints .primary (e.name.toList ++ '(' :: Term.commaSeparated parts ++ [')']) t := by
  have hname := Catalog.isIdentifier_name e
  exact prints_call hname.1 hname.2 h ((construct_name e ts).trans ht)

/-! ## Types -/

namespace Ty

mutual
/-- Whether every union and every intersection in a type has two members or more. -/
def isWritable : Ty → Bool
  | maps key value => key.isWritable && value.isWritable
  | sets element | lists element | vectors element | complement element => element.isWritable
  | tuples elements => allWritable elements
  | union members | intersection members => 2 ≤ members.length && allWritable members
  | _ => true

def allWritable : List Ty → Bool
  | [] => true
  | ty :: rest => ty.isWritable && allWritable rest
end

mutual
/-- Whether every union and every intersection in a type has a member. -/
def isPopulated : Ty → Bool
  | maps key value => key.isPopulated && value.isPopulated
  | sets element | lists element | vectors element | complement element => element.isPopulated
  | tuples elements => allPopulated elements
  | union members | intersection members => !members.isEmpty && allPopulated members
  | _ => true

def allPopulated : List Ty → Bool
  | [] => true
  | ty :: rest => ty.isPopulated && allPopulated rest
end

/-- Members combined by an operator, which one member alone does without. -/
def combined (operator : List Ty → Ty) : List Ty → Ty
  | [single] => single
  | members => operator members

mutual
/-- The type in which every union and every intersection of one member is that member. -/
def collapse : Ty → Ty
  | maps key value => maps key.collapse value.collapse
  | sets element => sets element.collapse
  | lists element => lists element.collapse
  | vectors element => vectors element.collapse
  | tuples elements => tuples (collapseAll elements)
  | union members => combined union (collapseAll members)
  | intersection members => combined intersection (collapseAll members)
  | complement inner => complement inner.collapse
  | ty => ty

def collapseAll : List Ty → List Ty
  | [] => []
  | ty :: rest => ty.collapse :: collapseAll rest
end

/-- The type `ty` is read back as `read`: anywhere where a term stands, and without an operator at the top also
where a primary does. -/
structure Printed (ty read : Ty) : Prop where
  term : Prints .term ty.chars (.type read)
  primary : ty.isCompound = false → Prints .primary ty.chars (.type read)

theorem typeArguments_map (c : TyConstructor) (tys : List Ty) :
    Construction.typeArguments c (tys.map .type) = .ok tys := by
  induction tys with
  | nil => rfl
  | cons ty rest ih => rw [List.map_cons, Construction.typeArguments, ih]; rfl

theorem apply_type {c : TyConstructor} {tys : List Ty} {ty : Ty} (h : c.build? tys = some ty) :
    Construction.apply (.type c) (tys.map .type) = .ok (.type ty) := by
  have hbuild : c.build tys = .ok ty := by rw [TyConstructor.build, h]
  simp only [Construction.apply, typeArguments_map, bind, Except.bind, hbuild]

theorem Printed.of_primary {ty read : Ty} (h : Prints .primary ty.chars (.type read)) : Printed ty read :=
  ⟨h.of_primary, fun _ => h⟩

/-- As an operand a compound type stands in parentheses. -/
theorem Printed.operand {ty read : Ty} (h : Printed ty read) :
    Prints .primary (parenthesize ty.isCompound ty.chars) (.type read) := by
  rcases hty : ty.isCompound with _ | _
  · exact h.primary hty
  · have hgroup := prints_group (List.Forall₂.cons h.term .nil)
    simpa [parenthesize, Term.commaSeparated, Term.flatten, Term.elements, Term.ofSequence] using hgroup

/-- Texts for the types of a list, each read as a type. -/
theorem forall₂_prints {tys reads : List Ty} {l : Level} {text : Ty → List Char} (h : List.Forall₂ Printed tys reads)
    (htext : ∀ {ty read}, Printed ty read → Prints l (text ty) (.type read)) :
    List.Forall₂ (Prints l) (tys.map text) (reads.map .type) := by
  rw [List.forall₂_map_left_iff, List.forall₂_map_right_iff]
  exact h.imp fun _ _ => htext

theorem printed_name (c : TyConstructor) {ty : Ty} (hb : c.build? [] = some ty) (hty : ty.chars = c.name.toList) :
    Printed ty ty := by
  have happly : Construction.apply (.type c) [] = .ok (.type ty) := apply_type hb
  refine .of_primary ?_
  rw [hty]
  exact prints_entryName (e := .type c) happly

theorem printed_applied (c : TyConstructor) {tys reads : List Ty} {ty read : Ty} (h : List.Forall₂ Printed tys reads)
    (hb : c.build? reads = some read)
    (hty : ty.chars = c.name.toList ++ '(' :: Term.commaSeparated (tys.map chars) ++ [')']) : Printed ty read := by
  have hparts := forall₂_prints h Printed.term
  have hprints := prints_applied hparts (apply_type hb)
  refine .of_primary ?_
  rw [hty]
  exact hprints

theorem printed_single (c : TyConstructor) {element ty read read' : Ty} (h : Printed element read)
    (hb : c.build? [read] = some read') (hty : ty.chars = c.name.toList ++ '(' :: element.chars ++ [')']) :
    Printed ty read' := by
  refine printed_applied c (.cons h .nil) hb ?_
  simpa [Term.commaSeparated] using hty

theorem printed_complement {inner read : Ty} (h : Printed inner read) : Printed (complement inner) (complement read) := by
  have happly : Construction.apply (.type .complement) [.type read] = .ok (.type (complement read)) :=
    apply_type (rfl : TyConstructor.build? .complement [read] = some (complement read))
  have hconstruct := (construct_name (.type .complement) [.type read]).trans happly
  have hprints := prints_complement h.operand.unary hconstruct
  rw [← chars_complement] at hprints
  exact ⟨hprints.intersection.term, fun hcompound => nomatch hcompound⟩

/-- One member alone prints as an operand, so only two or more have to be considered. -/
theorem printed_combined {operator : List Ty → Ty} {glue : List Char} {members reads : List Ty}
    (h : List.Forall₂ Printed members reads) (hne : members ≠ []) (hcompound : (operator members).isCompound = true)
    (hchars : (operator members).chars = glue.intercalate (operandChars members))
    (hseveral : 2 ≤ reads.length → Prints .term (operator members).chars (.type (operator reads))) :
    Printed (operator members) (combined operator reads) := by
  refine ⟨?_, fun hplain => ?_⟩
  · cases h with
    | nil => exact absurd rfl hne
    | cons hty hrest =>
      cases hrest with
      | nil =>
        rw [hchars, operandChars_eq_map]
        simpa [combined] using hty.operand.of_primary
      | cons => exact hseveral (by simp)
  · rw [hcompound] at hplain
    cases hplain

theorem printed_union {members reads : List Ty} (h : List.Forall₂ Printed members reads) (hne : members ≠ []) :
    Printed (union members) (combined union reads) := by
  refine printed_combined h hne rfl (chars_union members) fun hlen => ?_
  have hbuild : TyConstructor.build? .union reads = some (union reads) := by
    cases reads with
    | nil => simp at hlen
    | cons => rfl
  have hconstruct := (construct_name (.type .union) (reads.map .type)).trans (apply_type hbuild)
  have hparts := forall₂_prints h fun h => h.operand.unary.intersection
  have hprints := prints_union hparts (by simpa using hlen) hconstruct
  rwa [← operandChars_eq_map, ← chars_union] at hprints

theorem printed_intersection {members reads : List Ty} (h : List.Forall₂ Printed members reads) (hne : members ≠ []) :
    Printed (intersection members) (combined intersection reads) := by
  refine printed_combined h hne rfl (chars_intersection members) fun hlen => ?_
  have hbuild : TyConstructor.build? .intersection reads = some (intersection reads) := by
    cases reads with
    | nil => simp at hlen
    | cons => rfl
  have hconstruct := (construct_name (.type .intersection) (reads.map .type)).trans (apply_type hbuild)
  have hparts := forall₂_prints h fun h => h.operand.unary
  have hprints := prints_intersection hparts (by simpa using hlen) hconstruct
  rw [← operandChars_eq_map, ← chars_intersection] at hprints
  exact hprints.term

mutual
theorem printed_collapse (ty : Ty) (h : ty.isPopulated = true) : Printed ty ty.collapse := by
  cases ty with
  | values => exact printed_name .values rfl rfl
  | valueTypes => exact printed_name .valueTypes rfl rfl
  | groundValues => exact printed_name .groundValues rfl rfl
  | empty => exact printed_name .emptyType rfl rfl
  | null => exact printed_name .nullType rfl rfl
  | booleans => exact printed_name .booleans rfl rfl
  | integers => exact printed_name .integers rfl rfl
  | naturalNumbers => exact printed_name .naturalNumbers rfl rfl
  | characters => exact printed_name .characters rfl rfl
  | strings => exact printed_name .strings rfl rfl
  | atoms => exact printed_name .atoms rfl rfl
  | datatypeValues => exact printed_name .datatypeValues rfl rfl
  | maps key value =>
    rw [isPopulated, Bool.and_eq_true] at h
    have hkey := printed_collapse key h.1
    have hvalue := printed_collapse value h.2
    refine printed_applied .maps (.cons hkey (.cons hvalue .nil)) rfl ?_
    simp [chars_maps, TyConstructor.name, Term.commaSeparated]
  | sets element =>
    have helement := printed_collapse element h
    refine printed_single .sets helement rfl ?_
    simp [chars_sets, TyConstructor.name]
  | lists element =>
    have helement := printed_collapse element h
    refine printed_single .lists helement rfl ?_
    simp [chars_lists, TyConstructor.name]
  | vectors element =>
    have helement := printed_collapse element h
    refine printed_single .vectors helement rfl ?_
    simp [chars_vectors, TyConstructor.name]
  | tuples elements =>
    refine printed_applied .tuples (printed_collapseAll elements h) rfl ?_
    simp [chars_tuples, argumentChars_eq_map, TyConstructor.name, Term.commaSeparated]
  | union members =>
    rw [isPopulated, Bool.and_eq_true] at h
    exact printed_union (printed_collapseAll members h.2) (by simpa using h.1)
  | intersection members =>
    rw [isPopulated, Bool.and_eq_true] at h
    exact printed_intersection (printed_collapseAll members h.2) (by simpa using h.1)
  | complement inner => exact printed_complement (printed_collapse inner h)

theorem printed_collapseAll (tys : List Ty) (h : allPopulated tys = true) : List.Forall₂ Printed tys (collapseAll tys) := by
  cases tys with
  | nil => exact .nil
  | cons ty rest =>
    rw [allPopulated, Bool.and_eq_true] at h
    exact .cons (printed_collapse ty h.1) (printed_collapseAll rest h.2)
end

/-! ## Types with a notation -/

theorem combined_of_length {operator : List Ty → Ty} {members : List Ty} (h : 2 ≤ members.length) :
    combined operator members = operator members := by
  match members, h with
  | _ :: _ :: _, _ => rfl

mutual
/-- With two members everywhere there is nothing to collapse. -/
theorem collapse_of_isWritable (ty : Ty) (h : ty.isWritable = true) : ty.isPopulated = true ∧ ty.collapse = ty := by
  cases ty with
  | maps key value =>
    rw [isWritable, Bool.and_eq_true] at h
    simp [isPopulated, collapse, collapse_of_isWritable key h.1, collapse_of_isWritable value h.2]
  | sets element => simp [isPopulated, collapse, collapse_of_isWritable element h]
  | lists element => simp [isPopulated, collapse, collapse_of_isWritable element h]
  | vectors element => simp [isPopulated, collapse, collapse_of_isWritable element h]
  | complement inner => simp [isPopulated, collapse, collapse_of_isWritable inner h]
  | tuples elements => simp [isPopulated, collapse, collapseAll_of_allWritable elements h]
  | union members =>
    rw [isWritable, Bool.and_eq_true, decide_eq_true_eq] at h
    obtain ⟨hpopulated, hmembers⟩ := collapseAll_of_allWritable members h.2
    rw [isPopulated, collapse, hmembers, combined_of_length h.1]
    simp [hpopulated, List.ne_nil_of_length_pos (Nat.lt_of_lt_of_le Nat.two_pos h.1)]
  | intersection members =>
    rw [isWritable, Bool.and_eq_true, decide_eq_true_eq] at h
    obtain ⟨hpopulated, hmembers⟩ := collapseAll_of_allWritable members h.2
    rw [isPopulated, collapse, hmembers, combined_of_length h.1]
    simp [hpopulated, List.ne_nil_of_length_pos (Nat.lt_of_lt_of_le Nat.two_pos h.1)]
  | _ => exact ⟨rfl, rfl⟩

theorem collapseAll_of_allWritable (tys : List Ty) (h : allWritable tys = true) :
    allPopulated tys = true ∧ collapseAll tys = tys := by
  cases tys with
  | nil => exact ⟨rfl, rfl⟩
  | cons ty rest =>
    rw [allWritable, Bool.and_eq_true] at h
    simp [allPopulated, collapseAll, collapse_of_isWritable ty h.1, collapseAll_of_allWritable rest h.2]
end

theorem printed_of_isWritable (ty : Ty) (h : ty.isWritable = true) : Printed ty ty := by
  obtain ⟨hpopulated, hcollapse⟩ := collapse_of_isWritable ty h
  have hprinted := printed_collapse ty hpopulated
  rwa [hcollapse] at hprinted

/-! ## Members -/

theorem belongs_combined_union (members : List Ty) : (combined union members).belongs = (union members).belongs := by
  match members with
  | [] => rfl
  | [single] => funext t; simp [combined, belongs, belongsAny]
  | _ :: _ :: _ => rfl

theorem belongs_combined_intersection (members : List Ty) :
    (combined intersection members).belongs = (intersection members).belongs := by
  match members with
  | [] => rfl
  | [single] => funext t; simp [combined, belongs, belongsAll]
  | _ :: _ :: _ => rfl

mutual
/-- Collapsing a type changes nothing about what belongs to it. -/
theorem belongs_collapse (ty : Ty) : ty.collapse.belongs = ty.belongs := by
  funext t
  cases ty with
  | maps key value => simp only [collapse, belongs, belongs_collapse key, belongs_collapse value]
  | sets element => simp only [collapse, belongs, belongs_collapse element]
  | lists element => simp only [collapse, belongs, belongs_collapse element]
  | vectors element => simp only [collapse, belongs, belongs_collapse element]
  | tuples elements => simp only [collapse, belongs, belongEach_collapseAll elements]
  | union members => simp only [collapse, belongs_combined_union, belongs, belongsAny_collapseAll members]
  | intersection members => simp only [collapse, belongs_combined_intersection, belongs, belongsAll_collapseAll members]
  | complement inner => simp only [collapse, belongs, belongs_collapse inner]
  | _ => rfl

theorem belongEach_collapseAll (tys : List Ty) (terms : List Term) :
    belongEach (collapseAll tys) terms = belongEach tys terms := by
  cases tys with
  | nil => rfl
  | cons ty rest =>
    cases terms with
    | nil => rfl
    | cons t terms => simp only [collapseAll, belongEach, belongs_collapse ty, belongEach_collapseAll rest]

theorem belongsAny_collapseAll (tys : List Ty) (t : Term) : belongsAny (collapseAll tys) t = belongsAny tys t := by
  cases tys with
  | nil => rfl
  | cons ty rest => simp only [collapseAll, belongsAny, belongs_collapse ty, belongsAny_collapseAll rest]

theorem belongsAll_collapseAll (tys : List Ty) (t : Term) : belongsAll (collapseAll tys) t = belongsAll tys t := by
  cases tys with
  | nil => rfl
  | cons ty rest => simp only [collapseAll, belongsAll, belongs_collapse ty, belongsAll_collapseAll rest]
end

/-- A type that is printed is read back as the type in which every union and every intersection of one member is that
member, and the same terms belong to it. -/
theorem printed_types_keep_their_members {ty : Ty} (h : ty.isPopulated = true) :
    readTerm ty.text = .ok (.type ty.collapse) ∧ ∀ t, ty.collapse.belongs t = ty.belongs t :=
  ⟨readTerm_of_prints (printed_collapse ty h).term, fun t => by rw [belongs_collapse]⟩

/-- Unions of one member as a member of an intersection, in a complement and as an argument. -/
theorem printed_types_keep_their_members_nested :
    let ty := intersection [union [complement (union [integers])], maps (union [atoms]) (sets (union [strings, null]))]
    let read := intersection [complement integers, maps atoms (sets (union [strings, null]))]
    ty.isPopulated = true ∧ ty.text = "((~(integers))) & maps(atoms,sets(strings | null-type))" ∧
      readTerm ty.text = .ok (.type read) ∧ ∀ t, read.belongs t = ty.belongs t :=
  ⟨rfl, by decide, printed_types_keep_their_members rfl⟩

end Ty

end TermMachine
