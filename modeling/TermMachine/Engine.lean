import TermMachine.Rules.Arithmetic
import TermMachine.Rules.Collection
import TermMachine.Rules.Composite
import TermMachine.Rules.Effect
import TermMachine.Rules.Flow
import TermMachine.Rules.Logic
import TermMachine.Rules.Mapping

/-!
# The engine

One step of a term:

1. A sequence steps its first element that can take a step.
2. A node runs its first eager parameter that is not a value, and that can be run to one, to its
   value. A spread in the place of a single argument is spliced there and the parameters bound anew.
3. When all its eager parameters are values, a node becomes what the rule of its operator gives.
4. A value stays as it is.

A part that gets stuck in 1 or 2 leaves no trace in the entities, and the next part is tried. Every
step of a node is counted, those of nodes inside it too.

`stepNode` recurses on fuel, which it passes on to the nodes inside and to the loops that run a
parameter or the body of `atomic`. `step` and `run` take as much of it as they need.
-/

namespace TermMachine

namespace Engine

open Term Eval

/-! ## Sequences -/

mutual
/-- One step of a term, given how nodes step. -/
def stepWith (stepNode : Operator → List Term → Eval Term) : Term → Eval Term
  | .seq items =>
    if allValues items then pure (.seq items)
    else do return .seq (flatten (← stepFirst stepNode none items))
  | .spread items =>
    if allValues items then pure (.spread items)
    else do return .spread (flatten (← stepFirst stepNode none items))
  | .node op params => stepNode op params
  | t => pure t

/-- Step the first of the terms that can take a step. `blocked` tells why the last one tried
cannot. -/
def stepFirst (stepNode : Operator → List Term → Eval Term) :
    Option Stuck → List Term → Eval (List Term)
  | none, [] => pure []
  | some cause, [] => stuck (.element cause)
  | blocked, t :: rest =>
    if t.isValue then do return t :: (← stepFirst stepNode blocked rest)
    else do
      match ← speculate (stepWith stepNode t) with
      | .ok next => return next :: rest
      | .error cause => return t :: (← stepFirst stepNode (some cause) rest)
end

/-! ## Runs -/

/-- One step of a run. With stall detection, a step that changes neither the term nor any entity
is stuck. -/
def advanceWith (step : Term → Eval Term) (t : Term) : Eval Term := do
  let before ← get
  let next ← step t
  if before.config.stallDetection && next = t && before.entities.agree (← entities) then
    stuck (.noProgress t)
  else return next

/-- Advance a term until it is a value, within a number of rounds. -/
def runWith (advance : Term → Eval Term) : Nat → Term → Eval Term
  | rounds, t =>
    if t.isValue then pure t
    else
      match rounds with
      | 0 => throw .outOfFuel
      | rounds + 1 => do runWith advance rounds (← advance t)

/-! ## Nodes -/

/-- The eager parameters that are not values, with their positions. -/
def pending (op : Operator) (params : List Term) : List (Nat × Term) :=
  (op.params.zip params).zipIdx.filterMap fun ((p, t), index) =>
    if p.isEager && t.isReducible then some (index, t) else none

/-- Put a value in the place of a parameter. A spread in the place of a single argument is
spliced. -/
def replaceParam (op : Operator) (params : List Term) (index : Nat) (value : Term) : Eval Term :=
  match value with
  | .spread items =>
    if op.params[index]?.any fun p => !p.isSequence then
      match Construction.bind op (Construction.flattenParams op params index items) with
      | .ok params => pure (.node op params)
      | .error mismatch => stuck (.misfit op mismatch)
    else pure (.node op (params.set index value))
  | value => pure (.node op (params.set index value))

/-- Run the first of the pending parameters that can be run to a value. The result is nothing when
there are none, and the node is stuck when there are some and all are. -/
def reducePending (run : Term → Eval Term) (op : Operator) (params : List Term) :
    Option Stuck → List (Nat × Term) → Eval (Option Term)
  | none, [] => pure none
  | some cause, [] => stuck (.parameter op cause)
  | _, (index, t) :: rest => do
    match ← speculate (do replaceParam op params index (← run t)) with
    | .ok next => return some next
    | .error cause => reducePending run op params (some cause) rest

/-- What the rule of an operator makes of its parameters. -/
def applyRule (step advance : Term → Eval Term) (rounds : Nat) (op : Operator)
    (params : List Term) : Eval Term :=
  match op with
  | .flow f => Rules.flow step f params
  | .effect f => Rules.effect step advance rounds f params
  | .logic f => ofRule op (Rules.logic f params)
  | .arithmetic f => ofRule op (Rules.arithmetic f params)
  | .composite f => ofRule op (Rules.composite f params)
  | .mapping f => ofRule op (Rules.mapping f params)
  | .collection f => do
    let m ← get
    let (t, choices) ← ofRule op (Rules.collection f params m.choices)
    set { m with choices }
    return t

def stepNode : Nat → Operator → List Term → Eval Term
  | 0, _, _ => throw .outOfFuel
  | fuel + 1, op, params => do
    charge
    let step := stepWith (stepNode fuel)
    let advance := advanceWith step
    match ← reducePending (runWith advance fuel) op params none (pending op params) with
    | some next => return next
    | none => applyRule step advance fuel op params

/-! ## With a given amount of fuel -/

def stepFor (fuel : Nat) : Term → Eval Term := stepWith (stepNode fuel)

def advanceFor (fuel : Nat) : Term → Eval Term := advanceWith (stepFor fuel)

def runFor (fuel : Nat) : Term → Eval Term := runWith (advanceFor fuel) fuel

end Engine

def step (t : Term) : Eval Term := Eval.settle fun fuel => Engine.stepFor fuel t

def run (t : Term) : Eval Term := Eval.settle fun fuel => Engine.runFor fuel t

end TermMachine
