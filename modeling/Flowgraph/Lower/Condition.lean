import Flowgraph.Lower.Operand

/-!
# Tests and conditional expressions

A test whose outcome is known is not lowered to control flow: only the side that runs is lowered,
with what the test says about optional variables in force.
-/

namespace Flowgraph.Lower

/-- A truth value whose outcome is known. -/
def knownOutcome (known : Bool) (span : Span) : Lower Outcome := do
  return { entity := .value (← build (Build.bool known span)), known := some known }

/-- `not operand` -/
def negation (span : Span) (operand : Operand) : Lower Outcome := do
  let inner ← operand.condition
  match inner.known with
  | some known => knownOutcome (!known) span
  | none => return .ofValue (← primitive .not [inner.value] span)

/-- What is known about an entity being `None`, from its type. -/
inductive NoneStatus where
  | always | never | maybe
  deriving DecidableEq, Repr

def noneStatus (entity : Entity) : Lower NoneStatus := do
  match entity with
  | .value v =>
    match ← typeOf v with
    | .nothing => return .always
    | .optional _ => return .maybe
    | _ => return .never
  | _ => return .never

/-- The outcome of comparing two entities by identity, where their types decide it. -/
def knownIdentity? : NoneStatus → NoneStatus → Option Bool
  | .always, .always => some true
  | .always, .never => some false
  | .never, .always => some false
  | _, _ => none

/-- `lhs is rhs`, or `lhs is not rhs` if `negated`. -/
def identity (span : Span) (negated : Bool) (lhs rhs : Operand) : Lower Outcome := do
  let left ← lhs.entity
  let right ← rhs.entity
  match knownIdentity? (← noneStatus left) (← noneStatus right) with
  | some known => knownOutcome (known != negated) span
  | none =>
    let inputs ← toValues span [left, right]
    return .ofValue (← primitive (if negated then .isNot else .is) inputs span)

/-- A node that runs one of two blocks. -/
structure Branching where
  node : NodeId
  onTrue : BlockId
  onFalse : BlockId

def insertBranching (condition : ValueId) (span : Span) : Lower Branching := do
  let node ← build (Build.insert .branch [condition] [] span)
  let onTrue ← addBlock node
  let onFalse ← addBlock node
  return { node, onTrue, onFalse }

def addOutput (n : NodeId) (ty : Ty) : Lower ValueId :=
  build (Build.create fun graph => graph.addOutput n ty)

/-- Lower in a block of its own, with some variables narrowed. -/
def inNarrowedBranch {α : Type} (block : BlockId) (map : RefinementMap) (action : Lower α) :
    Lower (α × Option Frame) :=
  inBranch block (do insertRefinements map; action)

/-- `lhs and rhs` runs `rhs` if `lhs` is true and is false otherwise; `lhs or rhs` is true if `lhs`
is and runs `rhs` otherwise. -/
def shortCircuit (span : Span) (isAnd : Bool) (lhs rhs : Operand) : Lower Outcome := do
  let left ← lhs.condition
  let map := if isAnd then left.refinements.onTrue else left.refinements.onFalse
  match left.known with
  | some known =>
    if known = isAnd then
      let right ← refined map rhs.condition
      return { entity := .value right.value, known := right.known }
    else return { entity := .value left.value, known := some known }
  | none =>
    let branching ← insertBranching left.value span
    let (rightBlock, constantBlock) :=
      if isAnd then (branching.onTrue, branching.onFalse) else (branching.onFalse, branching.onTrue)
    let (right, _) ← inNarrowedBranch rightBlock map rhs.condition
    addResult rightBlock right.value
    let constant ← inBlock constantBlock (build (Build.bool (!isAnd) span))
    addResult constantBlock constant
    return .ofValue (← addOutput branching.node .bool)

/-- `body if cond else orelse` -/
def ternary (span : Span) (cond body orelse : Operand) (hint : Option Ty) : Lower ValueId := do
  let condition ← cond.condition
  match condition.known with
  | some true => refined condition.refinements.onTrue (body.value hint)
  | some false => refined condition.refinements.onFalse (orelse.value hint)
  | none =>
    let branching ← insertBranching condition.value span
    let (bodyValue, _) ←
      inNarrowedBranch branching.onTrue condition.refinements.onTrue (body.value hint)
    addResult branching.onTrue bodyValue
    let (orelseValue, _) ←
      inNarrowedBranch branching.onFalse condition.refinements.onFalse (orelse.value hint)
    addResult branching.onFalse orelseValue
    let bodyType ← typeOf bodyValue
    let orelseType ← typeOf orelseValue
    match Ty.join bodyType orelseType with
    | some joined => addOutput branching.node joined
    | none => fail (.type span (.ternaryMismatch bodyType orelseType))

end Flowgraph.Lower
