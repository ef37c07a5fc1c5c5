import Flowgraph.Graph.Basic

/-!
# Printing graphs

A graph is printed one line per block header, node and list of results, indented by nesting.  Each
line is made as a string; `text?` joins them.  Printing answers `none` on a dangling reference, and
if the nesting would indent a line by more than `maxIndent` spaces.
-/

namespace Flowgraph

/-- How a graph is printed. -/
structure PrintOptions where
  /-- Spaces per level of nesting. -/
  indent : Nat := 2
  /-- Write the type where a value is defined. -/
  types : Bool := true
  /-- Write the span of a node that has one. -/
  spans : Bool := false
  /-- Write the graph of a lifted closure or fork under its node. -/
  subgraphs : Bool := true
  deriving Repr, Inhabited

namespace Graph

/-- The lines of a graph, at a number of spaces. -/
abbrev Printer := Nat → Option (List String)

/-- The most spaces that a line can start with. -/
def maxIndent : Nat := 65535

/-- A text on a line of its own, behind a number of spaces. -/
def line? (spaces : Nat) (text : String) : Option String :=
  if spaces ≤ maxIndent then some (String.ofList (List.replicate spaces ' ') ++ text) else none

/-- A value where it is defined. -/
def declare? (graph : Graph) (options : PrintOptions) (v : ValueId) : Option String := do
  let name ← graph.valueName? v
  if options.types then
    let ty ← graph.typeOf? v
    some (name ++ " : " ++ ty.render)
  else some name

/-- Values separated by commas, each written by `write`. -/
def commaList (write : ValueId → Option String) (values : List ValueId) : Option String := do
  let texts ← values.mapM write
  some (", ".intercalate texts)

def attrText (attrs : List (String × Literal)) : String :=
  if attrs.isEmpty then ""
  else "[" ++ ", ".intercalate (attrs.map fun entry => entry.1 ++ "=" ++ entry.2.render) ++ "]"

/-- The line of a node without its blocks.  A node without outputs starts with the equals sign. -/
def nodeText (graph : Graph) (options : PrintOptions) (node : Node) : Option String := do
  let outputs ← commaList (graph.declare? options) node.outputs
  let inputs ← commaList graph.valueName? node.inputs
  let left := if node.outputs.isEmpty then "= " else outputs ++ " = "
  let place := if options.spans && !node.span.isNull then " # " ++ node.span.render else ""
  some (left ++ node.op.render ++ attrText node.attrs ++ "(" ++ inputs ++ ")" ++ place)

/-- The lines of a block and everything under it.  `bodies` prints the graph carried by a node, by
the position of the node; `depth` bounds the nesting. -/
def blockLines (graph : Graph) (options : PrintOptions) (bodies : List (Option Printer)) :
    Nat → String → BlockId → Printer
  | 0, _, _ => fun _ => none
  | depth + 1, header, b => fun spaces => do
    let block ← graph.block? b
    let params ← commaList (graph.declare? options) block.params
    let inner := spaces + options.indent
    let nodes ← block.nodes.mapM fun n => do
      let node ← graph.node? n
      let text ← graph.nodeText options node
      let first ← line? inner text
      let nested ← node.blocks.zipIdx.mapM fun (nestedBlock, position) => do
        let lines ← blockLines graph options bodies depth s!"block{position}" nestedBlock
          (inner + options.indent)
        let owned ← graph.block? nestedBlock
        let results ← commaList graph.valueName? owned.results
        let last ← line? (inner + 2 * options.indent) ("-> (" ++ results ++ ")")
        some (lines ++ [last])
      let body ←
        match bodies[n.index]?.join with
        | some print => print (inner + options.indent)
        | none => some []
      some (first :: (nested.flatten ++ body))
    let first ← line? spaces (header ++ "(" ++ params ++ "):")
    some (first :: nodes.flatten)

/-- The lines of a graph, given how to print the graphs carried by its nodes. -/
def graphLines (graph : Graph) (options : PrintOptions) (bodies : List (Option Printer)) : Printer :=
  fun spaces => do
    let body ← blockLines graph options bodies graph.blocks.length "graph" root spaces
    let outputs ← graph.outputs?
    let results ← commaList graph.valueName? outputs
    let last ← line? (spaces + options.indent) ("return (" ++ results ++ ")")
    some (body ++ [last])

/-- The short form of a carried graph. -/
def summaryLines (graph : Graph) : Printer := fun spaces => do
  let inputs ← graph.inputs?
  let summary ← line? spaces s!"graph<{inputs.length} inputs>"
  some [summary]

mutual

def printer (options : PrintOptions) : Graph → Printer
  | ⟨values, nodes, blocks⟩ => graphLines ⟨values, nodes, blocks⟩ options (printBodies options nodes)

/-- How to print the graph carried by each node. -/
def printBodies (options : PrintOptions) : List (NodeOf Graph) → List (Option Printer)
  | [] => []
  | node :: rest => printBody options node :: printBodies options rest

def printBody (options : PrintOptions) : NodeOf Graph → Option Printer
  | ⟨_, _, _, _, _, _, _, subgraph⟩ => printSubgraph options subgraph

def printSubgraph (options : PrintOptions) : Option Graph → Option Printer
  | none => none
  | some subgraph =>
    some (if options.subgraphs then printer options subgraph else summaryLines subgraph)

end

/-- The printed graph; every line ends in a line feed. -/
def text? (graph : Graph) (options : PrintOptions) : Option String := do
  let lines ← printer options graph 0
  some (String.join (lines.map fun text => text ++ "\n"))

end Graph

end Flowgraph
