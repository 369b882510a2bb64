/-!
# Entities

Everything a computation can read or write beside its term is a named entity. The catalog declares
six of them, each with a discipline of use.
-/

namespace TermMachine

inductive EntityKind where
  /-- Supplied by an enclosing term for the extent of a computation inside it. -/
  | contextual
  /-- Kept from step to step. -/
  | mutable
  /-- Raised by a step, and read once and cleared by whoever waits for it. -/
  | control
  deriving DecidableEq, Repr

def EntityKind.text : EntityKind → String
  | contextual => "contextual"
  | mutable => "mutable"
  | control => "control"

namespace Entity

def givenValue : String := "given-value"
def store : String := "store"
def usedAtoms : String := "used-atom-set"
def standardIn : String := "standard-in"
def standardOut : String := "standard-out"
def yielded : String := "yielded"

def all : List (String × EntityKind) :=
  [(givenValue, .contextual), (store, .mutable), (usedAtoms, .mutable), (standardIn, .mutable),
    (standardOut, .mutable), (yielded, .control)]

def kind? (name : String) : Option EntityKind := all.lookup name

end Entity

end TermMachine
