import TermMachine.Arity

/-!
# Operators

The operators that a term can apply, in seven families. Each has a canonical name and declares
its parameters. A parameter is eager (reduced to a value before the operator's own rule is tried)
or lazy (handed to the rule as it stands), and it takes one argument or absorbs a run of them.

The families, and the operators inside a family, stand in the order of the catalog; `rank` numbers
them in that order, and the order on terms compares operators by it.

Proved:
* `mem_all`: the catalog leaves no operator out.
* `getElem?_all_rank` / `rank_injective`: the catalog lists each operator at its rank, so two
  operators never share one.
* `countP_isSequence_le`: an operator takes at most one run of arguments.
-/

namespace TermMachine

/-- How a declared parameter is evaluated, and how many arguments it takes. -/
inductive Param where
  /-- One argument, reduced to a value first. -/
  | eager
  /-- One argument, left unevaluated. -/
  | lazy
  /-- A run of arguments, each reduced to a value first. -/
  | eagerSeq
  /-- A run of arguments, left unevaluated. -/
  | lazySeq
  deriving DecidableEq, Repr

namespace Param

def isEager : Param → Bool
  | eager | eagerSeq => true
  | lazy | lazySeq => false

def isSequence : Param → Bool
  | eagerSeq | lazySeq => true
  | eager | lazy => false

def text : Param → String
  | eager => "=>"
  | lazy => "=>>"
  | eagerSeq => "=>*"
  | lazySeq => "=>>*"

end Param

structure Signature where
  name : String
  params : List Param
  deriving DecidableEq, Repr

namespace Operator

inductive Flow where
  | leftToRight | rightToLeft | sequential | effect | choice | ifTrueElse | stuck | fail
  deriving DecidableEq, Repr

inductive Effect where
  | atomic | yield | yieldOnValue | give | given | print | read
  | useAtomNotIn | allocateVariable | assign | assigned
  deriving DecidableEq, Repr

inductive Logic where
  | not | and | or | implies | exclusiveOr | isEqual | isInType
  deriving DecidableEq, Repr

inductive Arithmetic where
  | add | multiply | subtract | divide | modulo | power | absoluteValue | negate
  | isLess | isGreater | isLessOrEqual | isGreaterOrEqual | successor | predecessor
  deriving DecidableEq, Repr

inductive Composite where
  | length | index | reverse | tuple | tupleElements | list | listElements | listAppend
  | listHead | listTail | vector | vectorElements | datatypeValue
  deriving DecidableEq, Repr

inductive Mapping where
  | map | empty | lookup | override | unite | domain | elements | delete
  deriving DecidableEq, Repr

inductive Collection where
  | set | empty | isIn | elements | unite | difference | size | insert
  | someElement | elementNotIn
  deriving DecidableEq, Repr

def Flow.signature : Flow → Signature
  | leftToRight => ⟨"left-to-right", [.lazySeq]⟩
  | rightToLeft => ⟨"right-to-left", [.lazySeq]⟩
  | sequential => ⟨"sequential", [.lazySeq, .lazy]⟩
  | effect => ⟨"effect", [.eagerSeq]⟩
  | choice => ⟨"choice", [.lazySeq]⟩
  | ifTrueElse => ⟨"if-true-else", [.eager, .lazy, .lazy]⟩
  | stuck => ⟨"stuck", []⟩
  | fail => ⟨"fail", []⟩

def Effect.signature : Effect → Signature
  | atomic => ⟨"atomic", [.lazy]⟩
  | yield => ⟨"yield", []⟩
  | yieldOnValue => ⟨"yield-on-value", [.eager]⟩
  | give => ⟨"give", [.eager, .lazy]⟩
  | given => ⟨"given", []⟩
  | print => ⟨"print", [.eagerSeq]⟩
  | read => ⟨"read", []⟩
  | useAtomNotIn => ⟨"use-atom-not-in", [.eager]⟩
  | allocateVariable => ⟨"allocate-variable", [.eager]⟩
  | assign => ⟨"assign", [.eager, .eager]⟩
  | assigned => ⟨"assigned", [.eager]⟩

def Logic.signature : Logic → Signature
  | not => ⟨"not", [.eager]⟩
  | and => ⟨"and", [.eagerSeq]⟩
  | or => ⟨"or", [.eagerSeq]⟩
  | implies => ⟨"implies", [.eager, .eager]⟩
  | exclusiveOr => ⟨"exclusive-or", [.eager, .eager]⟩
  | isEqual => ⟨"is-equal", [.eager, .eager]⟩
  | isInType => ⟨"is-in-type", [.eager, .eager]⟩

def Arithmetic.signature : Arithmetic → Signature
  | add => ⟨"integer-add", [.eagerSeq]⟩
  | multiply => ⟨"integer-multiply", [.eagerSeq]⟩
  | subtract => ⟨"integer-subtract", [.eager, .eager]⟩
  | divide => ⟨"integer-divide", [.eager, .eager]⟩
  | modulo => ⟨"integer-modulo", [.eager, .eager]⟩
  | power => ⟨"integer-power", [.eager, .eager]⟩
  | absoluteValue => ⟨"integer-absolute-value", [.eager]⟩
  | negate => ⟨"integer-negate", [.eager]⟩
  | isLess => ⟨"integer-is-less", [.eager, .eager]⟩
  | isGreater => ⟨"integer-is-greater", [.eager, .eager]⟩
  | isLessOrEqual => ⟨"integer-is-less-or-equal", [.eager, .eager]⟩
  | isGreaterOrEqual => ⟨"integer-is-greater-or-equal", [.eager, .eager]⟩
  | successor => ⟨"natural-successor", [.eager]⟩
  | predecessor => ⟨"natural-predecessor", [.eager]⟩

def Composite.signature : Composite → Signature
  | length => ⟨"length", [.eagerSeq]⟩
  | index => ⟨"index", [.eager, .eagerSeq]⟩
  | reverse => ⟨"reverse", [.eagerSeq]⟩
  | tuple => ⟨"tuple", [.eagerSeq]⟩
  | tupleElements => ⟨"tuple-elements", [.eager]⟩
  | list => ⟨"list", [.eagerSeq]⟩
  | listElements => ⟨"list-elements", [.eager]⟩
  | listAppend => ⟨"list-append", [.eagerSeq]⟩
  | listHead => ⟨"list-head", [.eager]⟩
  | listTail => ⟨"list-tail", [.eager]⟩
  | vector => ⟨"vector", [.eagerSeq]⟩
  | vectorElements => ⟨"vector-elements", [.eager]⟩
  | datatypeValue => ⟨"datatype-value", [.eager, .eagerSeq]⟩

def Mapping.signature : Mapping → Signature
  | map => ⟨"map", [.eagerSeq]⟩
  | empty => ⟨"map-empty", []⟩
  | lookup => ⟨"map-lookup", [.eager, .eager]⟩
  | override => ⟨"map-override", [.eagerSeq]⟩
  | unite => ⟨"map-unite", [.eagerSeq]⟩
  | domain => ⟨"map-domain", [.eager]⟩
  | elements => ⟨"map-elements", [.eager]⟩
  | delete => ⟨"map-delete", [.eager, .eager]⟩

def Collection.signature : Collection → Signature
  | set => ⟨"set", [.eagerSeq]⟩
  | empty => ⟨"set-empty", []⟩
  | isIn => ⟨"is-in-set", [.eager, .eager]⟩
  | elements => ⟨"set-elements", [.eager]⟩
  | unite => ⟨"set-unite", [.eagerSeq]⟩
  | difference => ⟨"set-difference", [.eager, .eager]⟩
  | size => ⟨"set-size", [.eager]⟩
  | insert => ⟨"set-insert", [.eager, .eager]⟩
  | someElement => ⟨"some-element", [.eager]⟩
  | elementNotIn => ⟨"element-not-in", [.eager, .eager]⟩

end Operator

inductive Operator where
  | flow (op : Operator.Flow)
  | effect (op : Operator.Effect)
  | logic (op : Operator.Logic)
  | arithmetic (op : Operator.Arithmetic)
  | composite (op : Operator.Composite)
  | mapping (op : Operator.Mapping)
  | collection (op : Operator.Collection)
  deriving DecidableEq, Repr

namespace Operator

def signature : Operator → Signature
  | flow op => op.signature
  | effect op => op.signature
  | logic op => op.signature
  | arithmetic op => op.signature
  | composite op => op.signature
  | mapping op => op.signature
  | collection op => op.signature

def name (op : Operator) : String := op.signature.name

def params (op : Operator) : List Param := op.signature.params

/-- A run-absorbing parameter may take no argument at all, any other takes exactly one. -/
def arity (op : Operator) : Arity :=
  if op.params.any Param.isSequence then .atLeast (op.params.length - 1)
  else .exactly op.params.length

def all : List Operator :=
  [Flow.leftToRight, .rightToLeft, .sequential, .effect, .choice, .ifTrueElse, .stuck,
    .fail].map flow ++
  [Effect.atomic, .yield, .yieldOnValue, .give, .given, .print, .read, .useAtomNotIn,
    .allocateVariable, .assign, .assigned].map effect ++
  [Logic.not, .and, .or, .implies, .exclusiveOr, .isEqual, .isInType].map logic ++
  [Arithmetic.add, .multiply, .subtract, .divide, .modulo, .power, .absoluteValue, .negate,
    .isLess, .isGreater, .isLessOrEqual, .isGreaterOrEqual, .successor,
    .predecessor].map arithmetic ++
  [Composite.length, .index, .reverse, .tuple, .tupleElements, .list, .listElements,
    .listAppend, .listHead, .listTail, .vector, .vectorElements, .datatypeValue].map composite ++
  [Mapping.map, .empty, .lookup, .override, .unite, .domain, .elements, .delete].map mapping ++
  [Collection.set, .empty, .isIn, .elements, .unite, .difference, .size, .insert,
    .someElement, .elementNotIn].map collection

/-- The place of an operator in the catalog order. -/
def rank : Operator → Nat
  | flow op => op.ctorIdx
  | effect op => 8 + op.ctorIdx
  | logic op => 19 + op.ctorIdx
  | arithmetic op => 26 + op.ctorIdx
  | composite op => 40 + op.ctorIdx
  | mapping op => 53 + op.ctorIdx
  | collection op => 61 + op.ctorIdx

theorem mem_all (op : Operator) : op ∈ all := by
  cases op with
  | _ op => cases op <;> decide

/-- The catalog lists each operator at its rank. -/
theorem getElem?_all_rank (op : Operator) : all[op.rank]? = some op := by
  cases op with
  | _ op => cases op <;> rfl

theorem rank_injective {a b : Operator} (h : a.rank = b.rank) : a = b := by
  have ha := getElem?_all_rank a
  rw [h, getElem?_all_rank b] at ha
  exact (Option.some.inj ha).symm

/-- An operator takes at most one run. -/
theorem countP_isSequence_le (op : Operator) : op.params.countP Param.isSequence ≤ 1 := by
  cases op with
  | _ op => cases op <;> decide

end Operator

end TermMachine
