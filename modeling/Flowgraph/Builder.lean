import Flowgraph.Graph.Basic

/-!
# Building graphs

A builder is a graph with an insertion point.  Number constants are pooled: each number has one
constant node, and these nodes stand at the front of the root block in the order of their first
use.  Other constants are placed where they are needed.
-/

namespace Flowgraph

/-- Where new nodes go: to the end of a block, or right before a node. -/
structure InsertPoint where
  block : BlockId
  before : Option NodeId := none
  deriving DecidableEq, Repr, Inhabited

structure Builder where
  graph : Graph := .empty
  point : InsertPoint := ⟨Graph.root, none⟩
  /-- The pooled constants with their values, the latest first. -/
  pool : List (Literal × ValueId) := []
  deriving Repr

/-- The steps of building; they fail on a dangling reference. -/
abbrev Build := StateT Builder Option

namespace Build

/-- Ask the graph. -/
def query {α : Type} (question : Graph → Option α) : Build α := fun builder => do
  let answer ← question builder.graph
  some (answer, builder)

/-- Change the graph. -/
def update (change : Graph → Option Graph) : Build Unit := fun builder => do
  let graph ← change builder.graph
  some ((), { builder with graph })

/-- Change the graph and answer what was made. -/
def create {α : Type} (change : Graph → Option (α × Graph)) : Build α := fun builder => do
  let (answer, graph) ← change builder.graph
  some (answer, { builder with graph })

/-! ## The insertion point -/

/-- Move the insertion point, answering the one before. -/
def setPoint (point : InsertPoint) : Build InsertPoint := do
  let builder ← get
  set { builder with point }
  return builder.point

/-- The point at the end of a block. -/
def enterBlock (block : BlockId) : Build InsertPoint :=
  setPoint ⟨block, none⟩

/-- The point right before a node. -/
def enterBefore (n : NodeId) : Build InsertPoint := do
  let node ← query fun graph => graph.node? n
  let builder ← get
  setPoint ⟨node.owner.getD builder.point.block, some n⟩

def place (n : NodeId) : Build Unit := do
  let builder ← get
  match builder.point.before with
  | some before => update fun graph => graph.insertBefore before n
  | none => update fun graph => graph.appendNode builder.point.block n

/-! ## Nodes -/

def insert (op : Op) (inputs : List ValueId) (types : List Ty) (span : Span) : Build NodeId := do
  let n ← create fun graph => some (graph.createNode op inputs types span)
  place n
  return n

/-- A node with one output, which is answered. -/
def insertValue (op : Op) (inputs : List ValueId) (ty : Ty) (span : Span) : Build ValueId := do
  let n ← insert op inputs [ty] span
  query fun graph => graph.output? n

def insertPrimitive (primitive : Primitive) (inputs : List ValueId) (ty : Ty) (span : Span) :
    Build ValueId :=
  insertValue (.primitive primitive) inputs ty span

def setAttr (n : NodeId) (key : String) (value : Literal) : Build Unit :=
  update fun graph => graph.setAttr n key value

/-- A node with one output and one attribute. -/
def insertWith (op : Op) (inputs : List ValueId) (ty : Ty) (key : String) (value : Literal)
    (span : Span) : Build ValueId := do
  let n ← insert op inputs [ty] span
  setAttr n key value
  query fun graph => graph.output? n

def typeOf (v : ValueId) : Build Ty :=
  query fun graph => graph.typeOf? v

/-! ## Constants -/

/-- The constant of a number, made on its first use. -/
def pooled (value : Literal) (ty : Ty) : Build ValueId := do
  let builder ← get
  match builder.pool.find? fun entry => entry.1 = value with
  | some entry => return entry.2
  | none =>
    let n ← create fun graph => some (graph.createNode .constant [] [ty] .null)
    setAttr n "value" value
    update fun graph => graph.insertAt Graph.root builder.pool.length n
    let v ← query fun graph => graph.output? n
    modify fun builder => { builder with pool := (value, v) :: builder.pool }
    return v

def int (value : Int64) : Build ValueId :=
  pooled (.int value) .int

def float (value : Binary64) : Build ValueId :=
  pooled (.float value) .float

/-- A constant at the insertion point. -/
def constant (value : Literal) (ty : Ty) (span : Span) : Build ValueId :=
  insertWith .constant [] ty "value" value span

def bool (value : Bool) (span : Span) : Build ValueId :=
  constant (.bool value) .bool span

def str (value : String) (span : Span) : Build ValueId :=
  constant (.str value) .str span

/-- The constant `None`, of an optional type if it is to have one. -/
def none (ty : Ty) (span : Span) : Build ValueId :=
  constant .nothing ty span

def literal (value : Literal) (span : Span) : Build ValueId :=
  match value with
  | .int value => int value
  | .float value => float value
  | .str value => str value span
  | .bool value => bool value span
  | .nothing => none .nothing span

/-- The value of a constant, if the graph value is one. -/
def constantOf? (v : ValueId) : Build (Option Literal) :=
  query fun graph => do
    match ← graph.producer? v with
    | some n =>
      let node ← graph.node? n
      if node.op = .constant then some (node.attr? "value") else some Option.none
    | Option.none => some Option.none

end Build

end Flowgraph
