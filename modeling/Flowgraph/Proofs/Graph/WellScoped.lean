import Flowgraph.Proofs.Graph.Visibility

/-!
# Well-scoped graphs

The uses of a graph are the inputs of the nodes and the results of the blocks that can be reached
from its root.  A graph is well scoped when each of its uses refers to a parameter of a block around
it or to an output of a node that stands earlier in such a block.

A use that is only known to be defined (`Graph.Defined`) is visible, or it refers to something in
the surviving side of a branch: `Graph.Defined.visible_or_survives`.
-/

namespace Flowgraph.Graph

/-! ## Uses -/

/-- The blocks nested in the root. -/
inductive Reachable (g : Graph) : BlockId → Prop
  | root : Reachable g root
  | nested {b inner : BlockId} {block : Block} {n : NodeId} {node : Node} :
      Reachable g b → g.block? b = some block → n ∈ block.nodes →
      g.node? n = some node → inner ∈ node.blocks → Reachable g inner

/-- The value is used at the point: by the node that the point stands before, or by the block that
the point is the end of. -/
inductive Uses (g : Graph) : InsertPoint → ValueId → Prop
  | input {b : BlockId} {block : Block} {n : NodeId} {node : Node} {v : ValueId} :
      g.Reachable b → g.block? b = some block → n ∈ block.nodes →
      g.node? n = some node → v ∈ node.inputs → Uses g ⟨b, some n⟩ v
  | result {b : BlockId} {block : Block} {v : ValueId} :
      g.Reachable b → g.block? b = some block → v ∈ block.results → Uses g ⟨b, none⟩ v

/-! ## Scopes -/

/-- The value is a parameter of the block of the point, or an output of a node before the point. -/
inductive VisibleHere (g : Graph) (point : InsertPoint) (v : ValueId) : Prop
  | param {block : Block} : g.block? point.block = some block → v ∈ block.params →
      VisibleHere g point v
  | output {n : NodeId} {node : Node} : n ∈ g.before point → g.node? n = some node →
      v ∈ node.outputs → VisibleHere g point v

/-- The value is visible at the point or at a point around it. -/
def Visible (g : Graph) (point : InsertPoint) (v : ValueId) : Prop :=
  ∃ outer, g.Within point outer ∧ g.VisibleHere outer v

def WellScoped (g : Graph) : Prop :=
  ∀ point v, g.Uses point v → g.Visible point v

/-- The value is defined in one side of a branch that stands before the point or before a point
around it, and the other side of the branch always raises. -/
def Survives (g : Graph) (point : InsertPoint) (v : ValueId) : Prop :=
  ∃ outer n node live raising, g.Within point outer ∧ n ∈ g.before outer ∧
    g.node? n = some node ∧ Sides node live raising ∧ g.Raises raising ∧
    g.DefinedHere ⟨live, none⟩ v

variable {g : Graph} {p : InsertPoint} {v : ValueId}

theorem Defined.visible_or_survives (h : g.Defined p v) : g.Visible p v ∨ g.Survives p v := by
  obtain ⟨outer, hwi, hhere⟩ := h
  cases hhere with
  | param hb hv => exact Or.inl ⟨outer, hwi, .param hb hv⟩
  | output hn hnode hv => exact Or.inl ⟨outer, hwi, .output hn hnode hv⟩
  | survivor hn hnode hsides hrs hlive =>
    exact Or.inr ⟨outer, _, _, _, _, hwi, hn, hnode, hsides, hrs, hlive⟩

instance : Decidable (g.VisibleHere p v) :=
  decidable_of_iff ((∃ block ∈ g.block? p.block, v ∈ block.params) ∨
      ∃ n ∈ g.before p, ∃ node ∈ g.node? n, v ∈ node.outputs)
    ⟨fun h => h.elim (fun ⟨_, hblock, hv⟩ => .param hblock hv)
        (fun ⟨_, hn, _, hnode, hv⟩ => .output hn hnode hv), fun h => match h with
        | .param hblock hv => .inl ⟨_, hblock, hv⟩
        | .output hn hnode hv => .inr ⟨_, hn, _, hnode, hv⟩⟩

/-- Where no block is nested around a point, what is visible there is visible in its block. -/
theorem Visible.here (h : g.Visible p v) (hroot : ∀ node ∈ g.nodes, p.block ∉ node.blocks) :
    g.VisibleHere p v := by
  obtain ⟨outer, hwi, hhere⟩ := h
  cases hwi with
  | here => exact hhere
  | outward henc =>
    obtain ⟨n, node, block, -, -, -, hn, hb⟩ := henc
    exact absurd hb (hroot node (List.mem_of_getElem? hn))

/-! ## A test for well-scoped graphs -/

/-- The value is visible in the block of the point, or one block further out. -/
def Near (g : Graph) (point : InsertPoint) (v : ValueId) : Prop :=
  g.VisibleHere point v ∨ ∃ i ∈ List.range g.blocks.length, ∃ block ∈ g.block? ⟨i⟩,
    ∃ n ∈ block.nodes, ∃ node ∈ g.node? n, point.block ∈ node.blocks ∧ g.VisibleHere ⟨⟨i⟩, some n⟩ v

/-- All uses are near what they refer to, which can be evaluated. -/
def AllNear (g : Graph) : Prop :=
  ∀ i ∈ List.range g.blocks.length, ∀ block ∈ g.block? ⟨i⟩,
    (∀ n ∈ block.nodes, ∀ node ∈ g.node? n, ∀ v ∈ node.inputs, g.Near ⟨⟨i⟩, some n⟩ v) ∧
      ∀ v ∈ block.results, g.Near ⟨⟨i⟩, none⟩ v

instance (g : Graph) (point : InsertPoint) (v : ValueId) : Decidable (g.Near point v) :=
  inferInstanceAs (Decidable (_ ∨ _))

instance (g : Graph) : Decidable g.AllNear :=
  inferInstanceAs (Decidable (∀ _ ∈ _, _))

theorem AllNear.wellScoped (h : g.AllNear) : g.WellScoped := by
  have hnear : ∀ {p v}, g.Near p v → g.Visible p v := by
    rintro p v (hhere | ⟨i, -, block, hb, n, hn, node, hnode, hp, hhere⟩)
    · exact ⟨p, .here p, hhere⟩
    · exact ⟨_, .outward ⟨n, node, block, rfl, hb, hn, hnode, hp⟩ (.here _), hhere⟩
  intro point v huse
  cases huse with
  | input _ hb hn hnode hv =>
    exact hnear ((h _ (List.mem_range.mpr (index_lt_of_block? hb)) _ hb).1 _ hn _ hnode v hv)
  | result _ hb hv => exact hnear ((h _ (List.mem_range.mpr (index_lt_of_block? hb)) _ hb).2 v hv)

end Flowgraph.Graph
