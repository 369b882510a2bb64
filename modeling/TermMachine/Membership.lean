import TermMachine.Term

/-!
# Membership in types

`belongs ty t` decides whether the term `t` belongs to the type `ty`, for every term and every
type. The types of collections look at every element. Sequences and unevaluated nodes belong to no
type but through a complement (or an intersection without members, to which everything belongs).
-/

namespace TermMachine

namespace Term

mutual
/-- Whether a term is built without types, sequences and nodes. -/
def isGround : Term → Bool
  | null | bool _ | int _ | char _ | atom _ => true
  | data _ args => allGround args
  | map entries => entriesGround entries
  | set elements => allGround elements
  | type _ | seq _ | spread _ | node _ _ => false

def allGround : List Term → Bool
  | [] => true
  | t :: rest => t.isGround && allGround rest

def entriesGround : List (Term × List Term) → Bool
  | [] => true
  | (key, value) :: rest => key.isGround && allGround value && entriesGround rest
end

end Term

namespace Ty

open Term

mutual
def belongs : Ty → Term → Bool
  | values, t => t.isValue && !t.isSequence
  | valueTypes, t => t.asType?.isSome
  | groundValues, t => t.isGround
  | empty, _ => false
  | null, t => match t with | .null => true | _ => false
  | booleans, t => t.asBool?.isSome
  | integers, t => t.asInt?.isSome
  | naturalNumbers, t => t.asInt?.any (0 ≤ ·)
  | characters, t => t.asChar?.isSome
  | strings, t => t.asString?.isSome
  | atoms, t => match t with | .atom _ => true | _ => false
  | datatypeValues, t => match t with | .data _ _ => true | _ => false
  | maps key value, t =>
    t.asMap?.any fun entries => entries.all fun e => belongs key e.1 && e.2.all (belongs value)
  | sets element, t => t.asSet?.any fun elements => elements.all (belongs element)
  | lists element, t => (t.dataArgs? listName).any fun args => args.all (belongs element)
  | vectors element, t => (t.dataArgs? vectorName).any fun args => args.all (belongs element)
  | tuples elements, t => (t.dataArgs? tupleName).any fun args => belongEach elements args
  | union members, t => belongsAny members t
  | intersection members, t => belongsAll members t
  | complement inner, t => !belongs inner t

def belongEach : List Ty → List Term → Bool
  | [], [] => true
  | ty :: types, t :: terms => belongs ty t && belongEach types terms
  | _, _ => false

def belongsAny : List Ty → Term → Bool
  | [], _ => false
  | ty :: rest, t => belongs ty t || belongsAny rest t

def belongsAll : List Ty → Term → Bool
  | [], _ => true
  | ty :: rest, t => belongs ty t && belongsAll rest t
end

end Ty

end TermMachine
