import Flowgraph.Proofs.Graph.NodeTypes
import Flowgraph.Proofs.Lifting.Throughout

/-!
# Types in lifted graphs

Lifting changes no type.  A node keeps its node type unless it is a closure that is lifted or a fork
that is lowered, and the copy of a node has the node type of the original
(`MirrorsBody.hasNodeType`).
-/

namespace Flowgraph

open Flowgraph.Graph Ledger

variable {ty : NodeType}

/-! ## Copies -/

section Copies

variable {source copy : Graph} {body : BlockId} {l : Ledger} (h : MirrorsBody source copy body l)

include h

theorem MirrorsBody.typeOf? {w v : ValueId} (hstd : l.Stands w v) :
    ∃ ty, source.typeOf? v = some ty ∧ copy.typeOf? w = some ty := by
  obtain ⟨value, made, hv, hm, hty⟩ := h.types w v hstd
  exact ⟨value.ty, by rw [Graph.typeOf?, hv, Option.map_some], by
    rw [Graph.typeOf?, hm, Option.map_some, hty]⟩

theorem MirrorsBody.settled {ws vs : List ValueId} {types : List Ty}
    (hstd : List.Forall₂ l.Stands ws vs) (hset : source.Settled [] vs types) :
    copy.Settled [] ws types := by
  induction hstd generalizing types with
  | nil => cases hset with | nil => exact .nil
  | cons hwv _ ih =>
    cases hset with
    | cons hv hr =>
      obtain ⟨ty, hsrc, hcopy⟩ := h.typeOf? hwv
      cases hsrc.symm.trans hv.2
      exact .cons ⟨List.not_mem_nil, hcopy⟩ (ih hr)

theorem MirrorsBody.hasBlockType {made b : BlockId} {ty : BlockType} (hstd : l.StandsBlock made b)
    (hm : made.index < copy.blocks.length) (hty : source.HasBlockType [] b ty) :
    copy.HasBlockType [] made ty := by
  obtain ⟨found, hfd⟩ := (exists_block?_iff copy made).mpr hm
  obtain ⟨old, block, hold, hb, hcopy⟩ := h.copied.block made found hfd hstd.1
  cases hstd.2.symm.trans hold.2
  obtain ⟨block', hb', hps, hres⟩ := hty
  cases hb.symm.trans hb'
  exact ⟨found, hfd, h.settled hcopy.params hps, h.settled hcopy.results hres⟩

theorem MirrorsBody.hasNodeType (hcopy : copy.Treelike) {m : NodeId} {made node : Node}
    (hm : copy.node? m = some made) (hn : NodeCopy copy l m made node)
    (hty : source.HasNodeType [] node ty) : copy.HasNodeType [] made ty where
  op := hty.op.trans hn.op.symm
  inputs := h.settled hn.inputs hty.inputs
  outputs := h.settled hn.outputs hty.outputs
  blocks := by
    have hlt : ∀ b ∈ made.blocks, b.index < copy.blocks.length := fun b hb =>
      hcopy.nested_lt hm hb
    have hstd := hn.blocks
    have htys := hty.blocks
    generalize made.blocks = bs at hlt hstd
    generalize node.blocks = olds at hstd htys
    generalize ty.blocks = types at htys
    induction hstd generalizing types with
    | nil => cases htys with | nil => exact .nil
    | cons hb _ ih =>
      cases htys with
      | cons hty hr =>
        exact .cons (h.hasBlockType hb (hlt _ (.head _)) hty)
          (ih (fun b hb => hlt b (.tail _ hb)) _ hr)

theorem MirrorsBody.captured_settled : ∃ types, source.Settled [] l.captured types := by
  refine exists_settled fun v hv => ⟨List.not_mem_nil, ?_⟩
  obtain ⟨block, made, -, -, hps, -⟩ := h.copied.root
  obtain ⟨w, -, hstd⟩ := exists_left_of_forall₂ hps (List.mem_append_right _ hv)
  obtain ⟨ty, hty, -⟩ := h.typeOf? hstd
  exact ⟨ty, hty⟩

end Copies

/-! ## Changes of nodes -/

namespace Graph

variable {g : Graph} {n : NodeId} {node : Node} {H : List ValueId}

theorem typeOf?_removed (g : Graph) (n : NodeId) (v : ValueId) :
    (g.removed n).typeOf? v = g.typeOf? v := by
  unfold Graph.removed
  split <;> rfl

theorem HasNodeType.mapNode (h : g.HasNodeType H node ty) (n : NodeId) (f : Node → Node) :
    (g.mapNode n f).HasNodeType H node ty :=
  h.mono (fun _ _ hv hty => ⟨hv, hty⟩) fun _ _ block hb => ⟨block, hb, rfl, rfl⟩

theorem HasNodeType.removed (h : g.HasNodeType H node ty) (n : NodeId) :
    (g.removed n).HasNodeType H node ty := by
  refine h.mono (fun v ty hv hty => ⟨hv, by rw [typeOf?_removed, hty]⟩) fun b _ block hb => ?_
  obtain ⟨block', hb', hps, hres, -⟩ := block?_removed hb
  exact ⟨block', hb', hps, hres⟩

end Graph

end Flowgraph
