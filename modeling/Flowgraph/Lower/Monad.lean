import Flowgraph.Builder
import Flowgraph.Scope
import Flowgraph.Settings
import Flowgraph.SurfaceType

/-!
# The state of lowering

Lowering a definition writes a graph.  It works on a state (the graph under construction, the
scope, the bodies being lowered, the signatures of the closures met so far), reads what the host
and the settings say, and stops at the first failure; what was written until then is lost.

The basic actions are few: ask or change the graph (`build`), ask or change the scope, and the
brackets `atPoint`, `withFrame`, `withBody` and `withLoop`, which undo on the way out what they did
on the way in.
-/

namespace Flowgraph

/-- How an enclosing loop is lowered: as a loop node, or once per element of a tuple. -/
inductive LoopKind where
  | loop | unrolled
  deriving DecidableEq, Repr, Inhabited

/-- A function body being lowered. -/
structure BodyContext where
  name : String
  /-- The declared result type. -/
  declared : Option Ty
  /-- The common type of what was returned so far. -/
  merged : Option Ty
  /-- The loops around the current statement, the innermost first. -/
  loops : List LoopKind := []
  deriving Repr

def BodyContext.start (name : String) (declared : Option Ty) : BodyContext :=
  { name, declared, merged := declared }

structure LowerState where
  builder : Builder := {}
  scope : Scope := {}
  /-- The bodies around the current statement, the innermost first. -/
  bodies : List BodyContext := []
  /-- The signature of each closure by the output of its node, the latest first. -/
  signatures : List (ValueId × Signature) := []

/-- What lowering reads and does not change. -/
structure LowerContext where
  host : Host
  settings : Settings

abbrev Lower := ReaderT LowerContext (StateT LowerState (Except Failure))

namespace Lower

variable {α : Type}

/-- Stop with a fault of the program. -/
def fail (fault : Fault) : Lower α :=
  throw (.fault fault)

def ofExcept : Except Fault α → Lower α
  | .ok answer => return answer
  | .error fault => fail fault

/-! ## The graph -/

/-- Take steps on the graph under construction. -/
def build (steps : Build α) : Lower α := do
  let state ← get
  match steps state.builder with
  | some (answer, builder) =>
    set { state with builder }
    return answer
  | none => throw .dangling

def typeOf (v : ValueId) : Lower Ty :=
  build (Build.typeOf v)

/-- The graph value of an entity, or a fault at the place. -/
def toValue (span : Span) (entity : Entity) : Lower ValueId :=
  ofExcept (entity.toValue span)

def toValues (span : Span) (entities : List Entity) : Lower (List ValueId) :=
  entities.mapM (toValue span)

/-- Run an action at another insertion point. -/
def atPoint (enter : Build InsertPoint) (action : Lower α) : Lower α := do
  let previous ← build enter
  let answer ← action
  let _ ← build (Build.setPoint previous)
  return answer

/-- Run an action that adds to the end of a block. -/
def inBlock (block : BlockId) (action : Lower α) : Lower α :=
  atPoint (Build.enterBlock block) action

/-- A new block of a node. -/
def addBlock (n : NodeId) : Lower BlockId :=
  build (Build.create fun graph => graph.addBlock n)

/-- Add a value to what a block returns. -/
def addResult (block : BlockId) (v : ValueId) : Lower Unit :=
  build (Build.update fun graph => graph.addResult block v)

/-! ## The scope -/

def getScope : Lower Scope :=
  return (← get).scope

def modifyScope (change : Scope → Scope) : Lower Unit :=
  modify fun state => { state with scope := change state.scope }

/-- Run an action in a new frame and answer also the frame as the action left it. -/
def withFrame (block : BlockId) (startsBody : Bool) (closure : Option NodeId) (action : Lower α) :
    Lower (α × Option Frame) := do
  modifyScope fun scope => scope.push block startsBody closure
  let answer ← action
  let frame := (← getScope).current?
  modifyScope Scope.pop
  return (answer, frame)

/-- Run an action in a block, with a frame for the block. -/
def inBranch (block : BlockId) (action : Lower α) : Lower (α × Option Frame) :=
  withFrame block false none (inBlock block action)

/-! ## The bodies -/

def getBody : Lower BodyContext := do
  match (← get).bodies with
  | body :: _ => return body
  | [] => fail (.internal .outsideBody)

def modifyBody (change : BodyContext → BodyContext) : Lower Unit := do
  let state ← get
  match state.bodies with
  | body :: outer => set { state with bodies := change body :: outer }
  | [] => fail (.internal .outsideBody)

/-- Run an action as the body of a function. -/
def withBody (body : BodyContext) (action : Lower α) : Lower α := do
  modify fun state => { state with bodies := body :: state.bodies }
  let answer ← action
  modify fun state => { state with bodies := state.bodies.tail }
  return answer

/-- Run an action inside a loop. -/
def withLoop (kind : LoopKind) (action : Lower α) : Lower α := do
  modifyBody fun body => { body with loops := kind :: body.loops }
  let answer ← action
  modifyBody fun body => { body with loops := body.loops.tail }
  return answer

/-! ## Types in the program -/

def surfaceType (expr : Expr) : Lower Ty := do
  ofExcept (expr.surfaceType (← read).host)

end Lower

end Flowgraph
