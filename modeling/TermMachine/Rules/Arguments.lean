import TermMachine.Sequence
import TermMachine.Stuck

/-!
# What rules read of their parameters

A rule sees the parameters of a node. Each of these functions reads one of them as what the rule
needs, or gives the reason why the rule does not apply.

Proved: what each of them reads (`arg_eq_ok`, `expect_eq_ok`, `sequenceArg_eq_ok`), and how a rule
that reads several of them comes to a result (`bind_eq_ok`).
-/

namespace TermMachine.Rules

/-- The result of a rule that touches nothing but its parameters. -/
abbrev Result := Except Reason

def arg (params : List Term) (index : Nat) : Result Term :=
  match params[index]? with
  | some t => .ok t
  | none => .error (.missingParameter index)

/-- Read a term by a view, which fails on what is not `expected`. -/
def expect {α : Type} (expected : Expected) (view : Term → Option α) (t : Term) : Result α :=
  match view t with
  | some a => .ok a
  | none => .error (.unexpected expected t)

def items? : Term → Option (List Term)
  | .seq items => some items
  | _ => none

def sequenceArg (params : List Term) (index : Nat) : Result (List Term) := do
  expect .sequence items? (← arg params index)

def integer (t : Term) : Result Int := expect .integer Term.asInt? t

def boolean (t : Term) : Result Bool := expect .boolean Term.asBool? t

def type (t : Term) : Result Ty := expect .type Term.asType? t

def elements (t : Term) : Result (List Term) := expect .set Term.asSet? t

def entries (t : Term) : Result (List (Term × List Term)) := expect .map Term.asMap? t

def dataArgs (name : String) (t : Term) : Result (List Term) :=
  expect (.data name) (Term.dataArgs? name) t

def integerArg (params : List Term) (index : Nat) : Result Int := do
  integer (← arg params index)

def booleanArg (params : List Term) (index : Nat) : Result Bool := do
  boolean (← arg params index)

/-! ## Small laws -/

theorem bind_eq_ok {α β : Type} {x : Result α} {f : α → Result β} {b : β} :
    (x >>= f) = .ok b ↔ ∃ a, x = .ok a ∧ f a = .ok b := by
  cases x with
  | ok a => simp [bind, Except.bind]
  | error e => simp [bind, Except.bind]

@[simp] theorem pure_eq_ok {α : Type} {a b : α} : (pure a : Result α) = .ok b ↔ a = b := by
  simp [pure, Except.pure]

theorem arg_eq_ok {params : List Term} {index : Nat} {t : Term} :
    arg params index = .ok t ↔ params[index]? = some t := by
  unfold arg
  split <;> simp_all

theorem expect_eq_ok {α : Type} {expected : Expected} {view : Term → Option α} {t : Term} {a : α} :
    expect expected view t = .ok a ↔ view t = some a := by
  unfold expect
  split <;> simp_all

theorem items?_eq_some {t : Term} {items : List Term} : items? t = some items ↔ t = .seq items := by
  cases t <;> simp [items?]

theorem sequenceArg_eq_ok {params items : List Term} {index : Nat} :
    sequenceArg params index = .ok items ↔ params[index]? = some (.seq items) := by
  simp only [sequenceArg, bind_eq_ok, arg_eq_ok, expect_eq_ok, items?_eq_some]
  grind

end TermMachine.Rules
