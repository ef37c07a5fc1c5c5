import Flowgraph.Lower.Iterate
import Flowgraph.Lower.Operand

/-!
# Loops

A loop node takes a number of iterations and a first condition.  Its first block is the body, with
the number of the iteration as a parameter; its second block computes the condition for the next
iteration.
-/

namespace Flowgraph.Lower

/-- The number of iterations of a loop that only its condition stops. -/
def unbounded : Int64 := Int64.maxValue

/-- The first condition of a loop, true if it has none. -/
def firstCondition (cond : Option Operand) (span : Span) : Lower Condition := do
  match cond with
  | some operand => operand.condition
  | none => return { value := ← build (Build.bool true span), known := some true }

/-- The condition for the next iteration, true if the loop has none. -/
def nextCondition (cond : Option Operand) (span : Span) : Lower ValueId :=
  match cond with
  | some operand => operand.truth
  | none => build (Build.bool true span)

def addNodeInput (n : NodeId) (v : ValueId) : Lower Unit :=
  build (Build.update fun graph => graph.addNodeInput n v)

def addParam (block : BlockId) (ty : Ty) : Lower ValueId :=
  build (Build.create fun graph => graph.addParam block ty)

/-- Names that only the body of a loop defines are not visible after it. -/
def hideLoopNames (names : List String) (span : Span) : Lower Unit :=
  names.forM fun name => do
    if ((← getScope).find? name).isNone then
      modifyScope fun scope => scope.defer name (.name span (.insideLoop name))

/-- A loop of at most `trip` iterations, while its condition holds.  `body` lowers one iteration,
given its number. -/
def loop (trip : Option ValueId) (cond : Option Operand) (span : Span)
    (body : ValueId → Lower Unit) : Lower Unit := do
  let n ← build (Build.insert .loop [] [] span)
  let (trip, first) ← atPoint (Build.enterBefore n) do
    let trip ← trip.getDM (build (Build.int unbounded))
    return (trip, ← firstCondition cond span)
  addNodeInput n trip
  addNodeInput n first.value

  let bodyBlock ← addBlock n
  let counter ← addParam bodyBlock .int
  let (_, frame) ← withFrame bodyBlock false none <| withLoop .loop <| inBlock bodyBlock do
    insertRefinements first.refinements.onTrue
    body counter

  let conditionBlock ← addBlock n
  let (next, _) ← inBranch conditionBlock (nextCondition cond span)
  addResult conditionBlock next
  hideLoopNames ((frame.map Frame.definedNames).getD []) span

/-- Run `body` once per element of a tuple, one after the other. -/
def unrolled (elems : List ValueId) (body : ValueId → Lower Unit) : Lower Unit :=
  withLoop .unrolled (elems.forM body)

end Flowgraph.Lower
