import Flowgraph.Fault
import Flowgraph.Graph.Copy

/-!
# Lifting closures

A closure is lowered in place: its body is a block of its node and reads outer values where they
are.  Lifting moves the body into a graph of its own.  That graph takes the parameters of the
closure first, then one input for each outer value that the body reads; those outer values become
the inputs of the closure node.  A fork of a closure is replaced by a fork that carries a copy of
the lifted body and passes the outer values along.
-/

namespace Flowgraph

/-- The steps of lifting, on the graph whose closures are lifted. -/
abbrev Lift := StateT Graph (Except Failure)

namespace Lift

variable {α : Type}

def fail (cause : InternalCause) : Lift α :=
  throw (.fault (.internal cause))

/-- Ask the graph. -/
def query (question : Graph → Option α) : Lift α := do
  match question (← get) with
  | some answer => return answer
  | none => throw .dangling

/-- Change the graph. -/
def update (change : Graph → Option Graph) : Lift Unit := do
  set (← query change)

/-! ## Extracting a body -/

/-- An outer value is an input of the extracted graph, under the same name. -/
def captureFrom (source : Graph) : Capture := fun v target => do
  let value ← source.value? v
  let (input, target) ← target.addInput value.ty
  let target ← target.setName input value.name
  some (input, target)

/-- A body as a graph of its own, with the outer values that it reads. -/
def extractBody (source : Graph) (body : BlockId) : Option (Graph × List ValueId) := do
  let block ← source.block? body
  let steps : Copying.Step Unit := do
    block.params.forM fun old => do
      let ty ← source.typeOf? old
      let new ← Copying.onTarget fun target => target.addInput ty
      Copying.introduce source old new
    Copying.copyAsRoot source (captureFrom source) body
  let ((), copying) ← steps { target := .empty }
  some (copying.target, copying.captured)

/-! ## Forks -/

/-- The node that a value comes from, if that is a closure. -/
def closureNode? (graph : Graph) (v : ValueId) : Option (Option NodeId) := do
  match ← graph.producer? v with
  | none => some none
  | some n => return if (← graph.node? n).op = .closure then some n else none

/-- Replace the fork of a closure by one that carries the lifted body.  A closure that nothing else
uses is dropped. -/
def lowerFork (n : NodeId) : Lift Unit := do
  let fork ← query fun graph => graph.node? n
  match fork.inputs with
  | [] => fail (.forkWithoutTarget n)
  | closure :: args =>
    match ← query fun graph => closureNode? graph closure with
    | none =>
      let name ← query fun graph => graph.valueName? closure
      fail (.forkOfNonClosure n name)
    | some producer =>
      let node ← query fun graph => graph.node? producer
      match node.subgraph with
      | none => fail (.forkBeforeLifting producer)
      | some subgraph =>
        update fun graph => graph.modifyNode n fun fork =>
          { fork with op := .fork, inputs := args ++ node.inputs, subgraph := some subgraph }
        let remaining ← query fun graph => graph.uses closure
        if remaining.isEmpty then update fun graph => graph.removeNode producer

/-- Whether a node forks a closure that is lifted already. -/
def forksLifted (graph : Graph) (n : NodeId) : Option Bool := do
  let node ← graph.node? n
  match node.op, node.inputs with
  | .forkClosure, closure :: _ =>
    match ← graph.producer? closure with
    | some producer => return (← graph.node? producer).subgraph.isSome
    | none => some false
  | _, _ => some false

/-- Forks of closures of an enclosing body are lowered before the body around them is extracted, so
that it captures what the forked body reads and not the closure. -/
def lowerOuterForks (body : BlockId) : Lift Unit := do
  let nodes ← query fun graph => graph.walk body
  nodes.forM fun n => do
    if ← query fun graph => forksLifted graph n then lowerFork n

/-! ## Closures -/

/-- Lift one closure; `liftRoot` lifts those that its body holds, once it is a graph. -/
def liftClosure (liftRoot : Lift Unit) (n : NodeId) : Lift Unit := do
  let node ← query fun graph => graph.node? n
  match node.blocks with
  | [] => fail (.closureWithoutBody n)
  | body :: _ =>
    lowerOuterForks body
    let (subgraph, captured) ← query fun graph => extractBody graph body
    let ((), subgraph) ← liftRoot subgraph
    update fun graph => graph.modifyNode n fun node =>
      { node with inputs := captured, blocks := [], subgraph := some subgraph }

/-- Lift the closures of a block and of the blocks nested in it; `depth` bounds the nesting. -/
def liftBlock : Nat → BlockId → Lift Unit
  | 0, _ => throw .dangling
  | depth + 1, b => do
    let block ← query fun graph => graph.block? b
    block.nodes.forM fun n => do
      let node ← query fun graph => graph.node? n
      match node.op with
      | .closure => liftClosure (liftBlock depth Graph.root) n
      | .forkClosure => lowerFork n
      | _ => node.blocks.forM (liftBlock depth)

end Lift

/-- Lift every closure of a graph. -/
def Graph.liftClosures (graph : Graph) : Except Failure Graph := do
  let ((), lifted) ← Lift.liftBlock graph.blocks.length Graph.root graph
  return lifted

end Flowgraph
