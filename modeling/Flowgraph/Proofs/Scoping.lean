import Flowgraph.Proofs.Compilation
import Flowgraph.Proofs.Graph.WellScoped

/-!
# The scope of uses in a compiled graph

Every use in the graph of a definition whose closures stay in place refers to something that has
been computed when control gets there.  Nearly always that is a value in scope (`Graph.Visible`).
The exception comes from a branch of which one side always raises: a name that the other side binds
to an entity keeps that entity after the branch, and with it the values of the other side.
`survivingRange_outOfScope` is such a program, and `Def.compile_scoped` says that there is no other
way out of scope.
-/

namespace Flowgraph

/-- Every use is in scope, or what it refers to was computed in the side of an earlier branch that
does not raise, the other one always raising. -/
theorem Def.compile_scoped {definition : Def} {host : Host} {settings : Settings}
    {compiled : Compiled} (hlift : settings.liftClosures = false)
    (h : definition.compile host settings = .ok compiled) {p : InsertPoint} {v : ValueId}
    (huse : compiled.graph.Uses p v) :
    compiled.graph.Visible p v ∨ compiled.graph.Survives p v := by
  have hscoped : compiled.graph.Scoped := Def.toGraph_scoped (Def.toGraph_of_compile hlift h)
  apply Graph.Defined.visible_or_survives
  cases huse with
  | input _ hblock hn hnode hv => exact hscoped.inputs _ _ _ _ _ hblock hn hnode hv
  | result _ hblock hv => exact hscoped.results _ _ _ hblock hv

/-! ## A program that leaves the scope -/

/-- `if c: r = range(n)`, `else: raise`, then `for i in r: pass`. -/
def survivingRange : Def where
  name := ⟨"f", .null⟩
  params :=
    [⟨⟨"c", .null⟩, some (.var .null "bool")⟩, ⟨⟨"n", .null⟩, some (.var .null "int")⟩]
  body :=
    [.branch .null (.var .null "c") [.assign .null (.var .null "r") none
        (some (.call .null (.var .null "range") [.var .null "n"] []))] [.raise .null none],
    .forLoop .null [.var .null "i"] [.var .null "r"] [.pass .null]]

/-- The loop iterates up to the bound that was loaded where the range was made, and that is in the
branch. -/
theorem survivingRange_uses :
    ∃ compiled, survivingRange.compile Host.empty { liftClosures := false } = .ok compiled ∧
      ∃ p v, compiled.graph.Uses p v ∧ ¬ compiled.graph.Visible p v := by
  obtain ⟨compiled, hcomp, hroot, block, hb, n, hn, node, hnode, v, hv, hhere⟩ :
      ∃ compiled, survivingRange.compile Host.empty { liftClosures := false } = .ok compiled ∧
        (∀ node ∈ compiled.graph.nodes, Graph.root ∉ node.blocks) ∧
        ∃ block ∈ compiled.graph.block? Graph.root, ∃ n ∈ block.nodes,
          ∃ node ∈ compiled.graph.node? n, ∃ v ∈ node.inputs,
            ¬ compiled.graph.VisibleHere ⟨Graph.root, some n⟩ v := by
    decide +kernel
  have huse : compiled.graph.Uses ⟨Graph.root, some n⟩ v := .input .root hb hn hnode hv
  exact ⟨compiled, hcomp, _, v, huse, fun hvis => hhere (hvis.here hroot)⟩

theorem survivingRange_outOfScope :
    ∃ compiled, survivingRange.compile Host.empty { liftClosures := false } = .ok compiled ∧
      ¬ compiled.graph.WellScoped := by
  obtain ⟨compiled, hcompiled, p, v, huse, hvisible⟩ := survivingRange_uses
  exact ⟨compiled, hcompiled, fun hscoped => hvisible (hscoped p v huse)⟩

theorem survivingRange_survives :
    ∃ compiled, survivingRange.compile Host.empty { liftClosures := false } = .ok compiled ∧
      ∃ p v, compiled.graph.Uses p v ∧ compiled.graph.Survives p v := by
  obtain ⟨compiled, hcompiled, p, v, huse, hvisible⟩ := survivingRange_uses
  exact ⟨compiled, hcompiled, p, v, huse,
    (Def.compile_scoped rfl hcompiled huse).resolve_left hvisible⟩

end Flowgraph
