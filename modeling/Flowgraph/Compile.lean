import Flowgraph.Diagnostic
import Flowgraph.Lifting
import Flowgraph.Lower.Stmt

/-!
# Compiling a definition

One definition becomes one graph: either the whole graph, or the first fault.
-/

namespace Flowgraph

/-- A definition as a graph. -/
structure Compiled where
  name : String
  signature : Signature
  graph : Graph
  /-- What the settings say about inlining calls of it. -/
  inline : InlinePolicy

/-- Lower a definition; its closures stay in place. -/
def Def.toGraph (definition : Def) (host : Host) (settings : Settings) :
    Except Failure (Signature × Graph) := do
  let (signature, state) ← definition.lower { host, settings } {}
  return (signature, state.builder.graph)

def Def.compile (definition : Def) (host : Host) (settings : Settings) :
    Except Failure Compiled := do
  let (signature, graph) ← definition.toGraph host settings
  let graph ← if settings.liftClosures then graph.liftClosures else pure graph
  return { name := definition.name.name, signature, graph, inline := settings.inline }

end Flowgraph
