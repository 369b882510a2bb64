import TermMachine.Catalog
import TermMachine.Term.Order
import TermMachine.Term.Printer

/-!
# Building terms by name

`construct` applies a name to built arguments. A name of a value or of a type gives a value at
once; the name of an operator gives a node whose parameters are bound to the arguments.

Binding (`bind`) gives each parameter that takes one argument its own, in order, and the parameter
that takes a run of arguments, of which an operator has at most one, all the rest as one sequence.
`flattenParams` lists the arguments that bound parameters hold, with others in the place of one
of them.
-/

namespace TermMachine

inductive ConstructionError where
  | unknownOperator (name : String)
  | arity (mismatch : ArityMismatch)
  | invalidTypeArgument (operator : String) (found : Term)
  | invalidLiteral (text : String)
  deriving DecidableEq

namespace ConstructionError

def message : ConstructionError → String
  | unknownOperator name => "unknown operator `" ++ name ++ "`"
  | arity m =>
    "`" ++ m.operator ++ "` expects " ++ m.expected.text ++ " argument(s), found "
      ++ toString m.found
  | invalidTypeArgument operator found =>
    "`" ++ operator ++ "` expects type arguments, found `" ++ found.text ++ "`"
  | invalidLiteral text => "invalid literal `" ++ text ++ "`"

/-- How a construction in two parts succeeds. -/
theorem bind_eq_ok {α β : Type} {x : Except ConstructionError α} {f : α → Except ConstructionError β} {b : β} :
    (x >>= f) = .ok b ↔ ∃ a, x = .ok a ∧ f a = .ok b := by
  cases x with
  | ok a => simp [bind, Except.bind]
  | error err => simp [bind, Except.bind]

end ConstructionError

namespace Construction

/-- Give parameters their arguments, whose number the parameters are known to admit. -/
def bindTo : List Param → List Term → List Term
  | [], _ => []
  | p :: ps, args =>
    if p.isSequence then
      let absorbed := args.length - ps.length
      .seq (Term.flatten (args.take absorbed)) :: args.drop absorbed
    else
      match args with
      | [] => []
      | arg :: rest => arg :: bindTo ps rest

def bind (op : Operator) (args : List Term) : Except ArityMismatch (List Term) :=
  if op.arity.admits args.length then .ok (bindTo op.params args)
  else .error ⟨op.name, op.arity, args.length⟩

/-- The arguments that the parameters of a node hold, with `replacement` in the place of the
parameter at `index`. -/
def flattenParams (op : Operator) (params : List Term) (index : Nat) (replacement : List Term) :
    List Term :=
  params.zipIdx.flatMap fun (param, position) =>
    if position = index then replacement
    else if op.params[position]?.any Param.isSequence then param.elements
    else [param]

def typeArguments (c : TyConstructor) : List Term → Except ConstructionError (List Ty)
  | [] => .ok []
  | .type ty :: rest => (typeArguments c rest).map (ty :: ·)
  | t :: _ => .error (.invalidTypeArgument c.name t)

def apply (entry : Catalog.Entry) (args : List Term) : Except ConstructionError Term :=
  match entry with
  | .operator op =>
    match bind op args with
    | .ok params => .ok (.node op params)
    | .error mismatch => .error (.arity mismatch)
  | .value v =>
    if args.isEmpty then .ok v.term
    else .error (.arity ⟨v.name, .exactly 0, args.length⟩)
  | .type c => do
    let types ← typeArguments c args
    match c.build types with
    | .ok ty => .ok (.type ty)
    | .error mismatch => .error (.arity mismatch)

def construct (name : String) (args : List Term) : Except ConstructionError Term :=
  match Catalog.lookup name with
  | some entry => apply entry args
  | none => .error (.unknownOperator name)

end Construction

end TermMachine
