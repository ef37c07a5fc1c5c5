import Flowgraph.Graph.Basic

/-!
# Copying blocks between graphs

`copyBlock` copies the nodes of a block, with the blocks nested in them, to the end of a block of
another graph.  Values defined inside the block are renamed as they are met.  A value that the
block reads but does not define is handed to `capture` on its first use, which says what stands for
it in the other graph.
-/

namespace Flowgraph

/-- What a value of the source graph is called in the target graph. -/
abbrev Renaming := List (ValueId × ValueId)

/-- A copy under way. -/
structure Copying where
  target : Graph
  renamed : Renaming := []
  captured : List ValueId := []

/-- What stands in the target graph for a value defined outside the copied block. -/
abbrev Capture := ValueId → Graph → Option (ValueId × Graph)

namespace Copying

/-- The steps of a copy; they fail on a dangling reference. -/
abbrev Step := StateT Copying Option

/-- Change the target graph and answer something. -/
def onTarget {α : Type} (change : Graph → Option (α × Graph)) : Step α := fun copying => do
  let (answer, target) ← change copying.target
  some (answer, { copying with target })

/-- Change the target graph, with nothing to answer. -/
def updateTarget (change : Graph → Option Graph) : Step Unit := fun copying => do
  let target ← change copying.target
  some ((), { copying with target })

/-- Call `old` by the name `new` from now on. -/
def rename (old new : ValueId) : Step Unit :=
  modify fun copying =>
    { copying with renamed := (old, new) :: copying.renamed.filter fun entry => entry.1 ≠ old }

/-- Give `new` the debug name of `old`, and rename `old` to it. -/
def introduce (source : Graph) (old new : ValueId) : Step Unit := do
  let value ← source.value? old
  updateTarget fun target => target.setName new value.name
  rename old new

/-- The name of a value in the target graph, capturing it if it has none yet. -/
def targetValue (capture : Capture) (v : ValueId) : Step ValueId := do
  match (← get).renamed.lookup v with
  | some new => pure new
  | none =>
    let new ← onTarget (capture v)
    modify fun copying => { copying with captured := copying.captured ++ [v] }
    rename v new
    pure new

/-- Return from the block `into` what stands for the given values. -/
def copyResults (capture : Capture) (results : List ValueId) (into : BlockId) : Step Unit :=
  results.forM fun old => do
    let new ← targetValue capture old
    updateTarget fun target => target.addResult into new

/-- Copy the nodes of the block `b` of `source` to the end of the block `into`; `depth` bounds the
nesting. -/
def copyBlockWithin (source : Graph) (capture : Capture) : Nat → BlockId → BlockId → Step Unit
  | 0, _, _ => failure
  | depth + 1, b, into => do
    let block ← source.block? b
    block.nodes.forM fun n => do
      let node ← source.node? n
      let inputs ← node.inputs.mapM (targetValue capture)
      let types ← (node.outputs.mapM source.typeOf? : Option (List Ty))
      let copy ← onTarget fun target => some (target.createNode node.op inputs types node.span)
      updateTarget fun target => target.modifyNode copy fun fresh =>
        { fresh with attrs := node.attrs, subgraph := node.subgraph }
      let fresh ← (← get).target.node? copy
      (node.outputs.zip fresh.outputs).forM fun (old, new) => introduce source old new
      node.blocks.forM fun nested => do
        let inner ← source.block? nested
        let copied ← onTarget fun target => target.addBlock copy
        inner.params.forM fun old => do
          let ty ← source.typeOf? old
          let new ← onTarget fun target => target.addParam copied ty
          introduce source old new
        copyBlockWithin source capture depth nested copied
        copyResults capture inner.results copied
      updateTarget fun target => target.appendNode into copy

def copyBlock (source : Graph) (capture : Capture) (b into : BlockId) : Step Unit :=
  copyBlockWithin source capture source.blocks.length b into

/-- Copy a block, with what it returns, to the root of the target graph. -/
def copyAsRoot (source : Graph) (capture : Capture) (b : BlockId) : Step Unit := do
  let block ← source.block? b
  copyBlock source capture b Graph.root
  copyResults capture block.results Graph.root

end Copying

end Flowgraph
