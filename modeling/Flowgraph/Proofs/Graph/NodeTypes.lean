import Flowgraph.Overload
import Flowgraph.Proofs.Graph.Update
import Flowgraph.Proofs.TypeOrder
import Mathlib.Data.List.Forall2

/-!
# The types of nodes

A `NodeType` is what the types in a graph say about a node: the types of its inputs and outputs,
and those of the parameters and results of its blocks.  What a node of some operation has to
satisfy is said of its type alone, so that it can be carried from one graph to another.
-/

namespace Flowgraph

/-- The types of the parameters and results of a block. -/
structure BlockType where
  params : List Ty
  results : List Ty

/-- The operation of a node, and the types around it. -/
structure NodeType where
  op : Op
  inputs : List Ty
  outputs : List Ty
  blocks : List BlockType

namespace NodeType

/-- The operation accepts the inputs, and the only output has the type that it gives. -/
def Checks (ty : NodeType) (primitive : Primitive) : Prop :=
  ∃ result, ty.outputs = [result] ∧ ∀ span, primitive.check ty.inputs span = .ok result

/-- The input is an optional, and the output is what it holds. -/
def Unwraps (ty : NodeType) : Prop :=
  ∃ inner, ty.inputs = [.optional inner] ∧ ty.outputs = [inner]

/-- One condition, and two blocks that return values for the outputs. -/
def IsBranch (ty : NodeType) : Prop :=
  ty.inputs = [.bool] ∧ ∃ first second, ty.blocks = [⟨[], first⟩, ⟨[], second⟩] ∧
    List.Forall₂ Ty.Below first ty.outputs ∧ List.Forall₂ Ty.Below second ty.outputs

/-- A number of rounds and a first condition; a body that takes the number of the round, and a
block that returns the next condition. -/
def IsLoop (ty : NodeType) : Prop :=
  ty.inputs = [.int, .bool] ∧ ty.outputs = [] ∧ ty.blocks = [⟨[.int], []⟩, ⟨[], [.bool]⟩]

end NodeType

namespace Graph

variable {g g' : Graph} {H values H' : List ValueId}

/-- The values have these types, which are settled. -/
def Settled (g : Graph) (H : List ValueId) : List ValueId → List Ty → Prop :=
  List.Forall₂ fun v ty => v ∉ H ∧ g.typeOf? v = some ty

def HasBlockType (g : Graph) (H : List ValueId) (b : BlockId) (ty : BlockType) : Prop :=
  ∃ block, g.block? b = some block ∧ g.Settled H block.params ty.params ∧
    g.Settled H block.results ty.results

structure HasNodeType (g : Graph) (H : List ValueId) (node : Node) (ty : NodeType) : Prop where
  op : ty.op = node.op
  inputs : g.Settled H node.inputs ty.inputs
  outputs : g.Settled H node.outputs ty.outputs
  blocks : List.Forall₂ (g.HasBlockType H) node.blocks ty.blocks

/-! ## Settled types stay -/

theorem Settled.mono {types : List Ty} (h : g.Settled H values types)
    (hty : ∀ v ty, v ∉ H → g.typeOf? v = some ty → v ∉ H' ∧
      g'.typeOf? v = some ty) : g'.Settled H' values types :=
  List.Forall₂.imp (fun v ty hv => hty v ty hv.1 hv.2) h

theorem exists_settled (h : ∀ v ∈ values, v ∉ H ∧ ∃ ty, g.typeOf? v = some ty) :
    ∃ types, g.Settled H values types := by
  induction values with
  | nil => exact ⟨[], .nil⟩
  | cons v rest ih =>
    rw [List.forall_mem_cons] at h
    obtain ⟨⟨hv, ty, hty⟩, hr⟩ := h
    obtain ⟨types, htys⟩ := ih hr
    exact ⟨ty :: types, .cons ⟨hv, hty⟩ htys⟩

theorem Settled.unique {types types' : List Ty} (h : g.Settled H values types)
    (h' : g.Settled H values types') : types = types' :=
  Relator.RightUnique.forall₂ (fun _ _ _ hv hv' => Option.some.inj (hv.2.symm.trans hv'.2)) h h'

theorem HasNodeType.mono {node : Node} {ty : NodeType} (h : g.HasNodeType H node ty)
    (hty : ∀ v ty, v ∉ H → g.typeOf? v = some ty → v ∉ H' ∧ g'.typeOf? v = some ty)
    (hblock : ∀ b ∈ node.blocks, ∀ block, g.block? b = some block →
      ∃ block', g'.block? b = some block' ∧ block'.params = block.params ∧
        block'.results = block.results) : g'.HasNodeType H' node ty where
  op := h.op
  inputs := h.inputs.mono hty
  outputs := h.outputs.mono hty
  blocks := by
    refine (List.forall₂_and_left (p := (· ∈ node.blocks)) _ _).mpr ⟨fun _ hb => hb, h.blocks⟩
      |>.imp ?_
    rintro b blockTy ⟨hb, block, hfd, hps, hres⟩
    obtain ⟨block', hfound', hs, hsame'⟩ := hblock b hb block hfd
    exact ⟨block', hfound', hs ▸ hps.mono hty, hsame' ▸ hres.mono hty⟩

end Graph

end Flowgraph
