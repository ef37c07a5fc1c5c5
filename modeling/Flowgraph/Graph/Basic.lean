import Flowgraph.Graph.Op
import Flowgraph.Literal
import Flowgraph.Span
import Flowgraph.Ty.Basic

/-!
# Graphs

A graph holds its values, nodes and blocks in three arenas and refers to them by position.  Block
zero is the root.  A block lists the nodes placed in it; a node that no block lists is detached.
Nodes may own nested blocks, and the node of a lifted closure carries a whole graph.

Every operation that follows a reference answers `none` when the reference is outside its arena,
so that a dangling reference is an outcome and never a default value.
-/

namespace Flowgraph

structure ValueId where
  index : Nat
  deriving DecidableEq, Repr, Inhabited

structure NodeId where
  index : Nat
  deriving DecidableEq, Repr, Inhabited

structure BlockId where
  index : Nat
  deriving DecidableEq, Repr, Inhabited

def ValueId.render (v : ValueId) : String := "%" ++ toString v.index

def NodeId.render (n : NodeId) : String := "n" ++ toString n.index

def BlockId.render (b : BlockId) : String := "block" ++ toString b.index

/-- Where a value is defined. -/
inductive Origin where
  | output (node : NodeId) (slot : Nat)
  | param (block : BlockId) (slot : Nat)
  deriving DecidableEq, Repr, Inhabited

structure Value where
  ty : Ty
  origin : Origin
  name : Option String := none
  deriving Repr, Inhabited

structure Block where
  params : List ValueId := []
  nodes : List NodeId := []
  results : List ValueId := []
  owner : Option NodeId := none
  deriving DecidableEq, Repr, Inhabited

/-- A node of a graph whose lifted bodies have type `γ`. -/
structure NodeOf (γ : Type) where
  op : Op
  inputs : List ValueId
  outputs : List ValueId := []
  blocks : List BlockId := []
  attrs : List (String × Literal) := []
  /-- The block that lists the node, while it is placed. -/
  owner : Option BlockId := none
  span : Span := .null
  /-- The body of a lifted closure or fork. -/
  subgraph : Option γ := none
  deriving Repr

structure Graph where
  values : List Value
  nodes : List (NodeOf Graph)
  blocks : List Block
  deriving Repr

abbrev Node := NodeOf Graph

namespace NodeOf

variable {γ : Type}

def attr? (node : NodeOf γ) (key : String) : Option Literal :=
  node.attrs.lookup key

/-- Replace the attribute of that key, or add it at the end. -/
def setAttr (node : NodeOf γ) (key : String) (value : Literal) : NodeOf γ :=
  if node.attrs.any fun entry => entry.1 = key then
    { node with attrs := node.attrs.map fun entry => if entry.1 = key then (key, value) else entry }
  else { node with attrs := node.attrs ++ [(key, value)] }

end NodeOf

namespace Graph

/-- The graph of an empty root block. -/
def empty : Graph := ⟨[], [], [{}]⟩

def root : BlockId := ⟨0⟩

instance : Inhabited Graph := ⟨empty⟩

/-! ## Following references -/

def value? (graph : Graph) (v : ValueId) : Option Value := graph.values[v.index]?

def node? (graph : Graph) (n : NodeId) : Option Node := graph.nodes[n.index]?

def block? (graph : Graph) (b : BlockId) : Option Block := graph.blocks[b.index]?

def typeOf? (graph : Graph) (v : ValueId) : Option Ty := (graph.value? v).map Value.ty

/-- The parameters of the root. -/
def inputs? (graph : Graph) : Option (List ValueId) := (graph.block? root).map Block.params

/-- The results of the root. -/
def outputs? (graph : Graph) : Option (List ValueId) := (graph.block? root).map Block.results

/-- The first output of a node. -/
def output? (graph : Graph) (n : NodeId) : Option ValueId := do
  let node ← graph.node? n
  node.outputs.head?

/-- The node that defines a value; the inner answer is `none` for a block parameter. -/
def producer? (graph : Graph) (v : ValueId) : Option (Option NodeId) := do
  let value ← graph.value? v
  match value.origin with
  | .output node _ => some (some node)
  | .param _ _ => some none

/-! ## Changing what a reference points to -/

def setValue (graph : Graph) (v : ValueId) (value : Value) : Graph :=
  { graph with values := graph.values.set v.index value }

def setNode (graph : Graph) (n : NodeId) (node : Node) : Graph :=
  { graph with nodes := graph.nodes.set n.index node }

def setBlock (graph : Graph) (b : BlockId) (block : Block) : Graph :=
  { graph with blocks := graph.blocks.set b.index block }

def modifyValue (graph : Graph) (v : ValueId) (f : Value → Value) : Option Graph := do
  let value ← graph.value? v
  some (graph.setValue v (f value))

def modifyNode (graph : Graph) (n : NodeId) (f : Node → Node) : Option Graph := do
  let node ← graph.node? n
  some (graph.setNode n (f node))

def modifyBlock (graph : Graph) (b : BlockId) (f : Block → Block) : Option Graph := do
  let block ← graph.block? b
  some (graph.setBlock b (f block))

/-! ## Adding values, nodes and blocks -/

def addParam (graph : Graph) (b : BlockId) (ty : Ty) : Option (ValueId × Graph) := do
  let block ← graph.block? b
  let v : ValueId := ⟨graph.values.length⟩
  let value : Value := { ty, origin := .param b block.params.length }
  let graph := { graph with values := graph.values ++ [value] }
  some (v, graph.setBlock b { block with params := block.params ++ [v] })

def addInput (graph : Graph) (ty : Ty) : Option (ValueId × Graph) :=
  graph.addParam root ty

/-- Add a value to what a block returns. -/
def addResult (graph : Graph) (b : BlockId) (v : ValueId) : Option Graph :=
  graph.modifyBlock b fun block => { block with results := block.results ++ [v] }

/-- A detached node with one output per type. -/
def createNode (graph : Graph) (op : Op) (inputs : List ValueId) (outputTypes : List Ty)
    (span : Span) : NodeId × Graph :=
  let n : NodeId := ⟨graph.nodes.length⟩
  let first := graph.values.length
  let values := outputTypes.mapIdx fun slot ty => { ty, origin := .output n slot : Value }
  let outputs := (List.range outputTypes.length).map fun slot => (⟨first + slot⟩ : ValueId)
  (n, { graph with
    values := graph.values ++ values
    nodes := graph.nodes ++ [{ op, inputs, outputs, span : Node }] })

def addOutput (graph : Graph) (n : NodeId) (ty : Ty) : Option (ValueId × Graph) := do
  let node ← graph.node? n
  let v : ValueId := ⟨graph.values.length⟩
  let value : Value := { ty, origin := .output n node.outputs.length }
  let graph := { graph with values := graph.values ++ [value] }
  some (v, graph.setNode n { node with outputs := node.outputs ++ [v] })

def addNodeInput (graph : Graph) (n : NodeId) (v : ValueId) : Option Graph :=
  graph.modifyNode n fun node => { node with inputs := node.inputs ++ [v] }

/-- A new empty block owned by the node. -/
def addBlock (graph : Graph) (n : NodeId) : Option (BlockId × Graph) := do
  let node ← graph.node? n
  let b : BlockId := ⟨graph.blocks.length⟩
  let graph := { graph with blocks := graph.blocks ++ [{ owner := some n : Block }] }
  some (b, graph.setNode n { node with blocks := node.blocks ++ [b] })

def setAttr (graph : Graph) (n : NodeId) (key : String) (value : Literal) : Option Graph :=
  graph.modifyNode n fun node => node.setAttr key value

def setName (graph : Graph) (v : ValueId) (name : Option String) : Option Graph :=
  graph.modifyValue v fun value => { value with name }

def setType (graph : Graph) (v : ValueId) (ty : Ty) : Option Graph :=
  graph.modifyValue v fun value => { value with ty }

/-! ## Placing nodes in blocks -/

/-- Place a node at a position of a block, at the end if the position is too large. -/
def insertAt (graph : Graph) (b : BlockId) (position : Nat) (n : NodeId) : Option Graph := do
  let graph ← graph.modifyNode n fun node => { node with owner := some b }
  graph.modifyBlock b fun block =>
    { block with nodes := block.nodes.take position ++ n :: block.nodes.drop position }

def appendNode (graph : Graph) (b : BlockId) (n : NodeId) : Option Graph := do
  let graph ← graph.modifyNode n fun node => { node with owner := some b }
  graph.modifyBlock b fun block => { block with nodes := block.nodes ++ [n] }

/-- Place a node right before another one.  Nothing happens while that one is detached. -/
def insertBefore (graph : Graph) (before n : NodeId) : Option Graph := do
  let anchor ← graph.node? before
  match anchor.owner with
  | none => some graph
  | some b =>
    let block ← graph.block? b
    graph.insertAt b (block.nodes.findIdx fun placed => placed = before) n

/-- Detach a node from its block; its values stay in the arena. -/
def removeNode (graph : Graph) (n : NodeId) : Option Graph := do
  let node ← graph.node? n
  let graph ←
    match node.owner with
    | none => some graph
    | some b => graph.modifyBlock b fun block =>
        { block with nodes := block.nodes.filter fun placed => placed ≠ n }
  graph.modifyNode n fun node => { node with owner := none }

/-! ## Walking -/

/-- The nodes of a block and of the blocks nested in it, each before what it owns.  `depth` bounds
the nesting. -/
def walkWithin (graph : Graph) : Nat → BlockId → Option (List NodeId)
  | 0, _ => none
  | depth + 1, b => do
    let block ← graph.block? b
    let runs ← block.nodes.mapM fun n => do
      let node ← graph.node? n
      let nested ← node.blocks.mapM (walkWithin graph depth)
      some (n :: nested.flatten)
    some runs.flatten

/-- Every node reachable from a block, in pre-order.  Blocks nest at most as deep as there are
blocks, unless a block is nested in itself. -/
def walk (graph : Graph) (b : BlockId) : Option (List NodeId) :=
  walkWithin graph graph.blocks.length b

/-- The nodes reachable from the root that take a value as an input. -/
def uses (graph : Graph) (v : ValueId) : Option (List NodeId) := do
  let nodes ← graph.walk root
  nodes.filterM fun n => do
    let node ← graph.node? n
    some (node.inputs.contains v)

/-! ## Names of values -/

/-- The name of a value in a printed graph: `%name.id`, or `%id` for a value without a name. -/
def valueName? (graph : Graph) (v : ValueId) : Option String := do
  let value ← graph.value? v
  match value.name with
  | some name => some ("%" ++ name ++ "." ++ toString v.index)
  | none => some v.render

/-! ## Equality

Graphs are equal when their arenas are, entry by entry, with types compared by class name and
constants as numbers. -/

def sameValues : List Value → List Value → Bool
  | [], [] => true
  | a :: as, b :: bs => a.ty == b.ty && a.origin = b.origin && a.name = b.name && sameValues as bs
  | _, _ => false

def sameAttrs : List (String × Literal) → List (String × Literal) → Bool
  | [], [] => true
  | a :: as, b :: bs => a.1 = b.1 && a.2.equals b.2 && sameAttrs as bs
  | _, _ => false

mutual

def same : Graph → Graph → Bool
  | ⟨values, nodes, blocks⟩, ⟨values', nodes', blocks'⟩ =>
    sameValues values values' && sameNodes nodes nodes' && blocks = blocks'

def sameNodes : List (NodeOf Graph) → List (NodeOf Graph) → Bool
  | [], [] => true
  | a :: as, b :: bs => sameNode a b && sameNodes as bs
  | _, _ => false

def sameNode : NodeOf Graph → NodeOf Graph → Bool
  | ⟨op, inputs, outputs, blocks, attrs, owner, span, subgraph⟩, other =>
    op = other.op && inputs = other.inputs && outputs = other.outputs && blocks = other.blocks &&
      sameAttrs attrs other.attrs && owner = other.owner && span = other.span &&
      sameSubgraph subgraph other.subgraph

def sameSubgraph : Option Graph → Option Graph → Bool
  | none, none => true
  | some a, some b => same a b
  | _, _ => false

end

instance : BEq Graph := ⟨same⟩

end Graph

end Flowgraph
