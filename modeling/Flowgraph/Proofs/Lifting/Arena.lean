import Flowgraph.Proofs.Graph.Arena
import Flowgraph.Proofs.Lifting.Runs

/-!
# The arenas of a copy

The arenas of an extracted body are in order (`Extracts.orderly`).  A copy makes a node before the
blocks of the node, and puts it into its place when they are finished.  Until then the node is
detached, and what happens in between leaves it so, as its frame shows.
-/

namespace Flowgraph

open Flowgraph.Graph

variable {n : NodeId} {ns made : List NodeId}

/-- The arenas agree with each other. -/
structure Graph.Orderly (g : Graph) : Prop where
  homed : g.Homed
  tree : g.Treelike

namespace Copying

variable {source extracted : Graph} {c c' : Copying} {b body : BlockId} {vs ws olds : List ValueId}
  {into : BlockId} {copy : NodeId}

/-! ## Values -/

theorem orderly_labelled (hc : c.target.Orderly) (v : ValueId) (value : Value) (new : ValueId) :
    (c.labelled v value new).target.Orderly :=
  ⟨hc.homed.mapValue new fun _ => rfl, hc.tree.trim (.of_eq (fun _ => rfl) fun _ => rfl)⟩

theorem orderly_withParam (hc : c.target.Orderly) (hb : b.index < c.target.blocks.length)
    (v : ValueId) (value : Value) : (c.withParam b v value).target.Orderly := by
  obtain ⟨block, hblock⟩ := (exists_block?_iff c.target b).mpr hb
  have hp : (c.withTarget (c.target.withParam b value.ty)).target.Orderly :=
    ⟨hc.homed.withParam hblock value.ty, hc.tree.withParam b value.ty⟩
  exact orderly_labelled hp ..

theorem Params.orderly (h : Params source b olds c c') (hb : b.index < c.target.blocks.length)
    (hc : c.target.Orderly) : c'.target.Orderly := by
  induction h with
  | nil => exact hc
  | @cons old value _ c _ _ _ ih =>
    exact ih (hb.trans_le (c.adds_withParam b old value).blocks_le)
      (orderly_withParam hc hb old value)

theorem Introduces.orderly {news} (h : Introduces source olds news c c') (hc : c.target.Orderly) :
    c'.target.Orderly := by
  induction h with
  | nil => exact hc
  | cons _ _ ih => exact ih (orderly_labelled hc ..)

theorem Translates.orderly {emit} (h : Translates source emit vs ws c c')
    (hemit : ∀ c w, c.target.blocks.length ≤ (emit c w).target.blocks.length ∧
      (c.target.Orderly → (emit c w).target.Orderly))
    (hroot : 0 < c.target.blocks.length) (hc : c.target.Orderly) : c'.target.Orderly := by
  induction h with
  | nil => exact hc
  | known _ _ ih => exact ih (hroot.trans_le (hemit _ _).1) ((hemit _ _).2 hc)
  | @new v value _ _ c _ _ _ _ ih =>
    exact ih (hroot.trans_le ((c.adds_withCapture v value).blocks_le.trans (hemit _ _).1))
      ((hemit _ _).2 (orderly_withParam hc hroot v value))

theorem Results.orderly (h : Results source b vs ws c c') (hroot : 0 < c.target.blocks.length)
    (hc : c.target.Orderly) : c'.target.Orderly :=
  Translates.orderly h (fun _ w => ⟨(adds_withResult _ b w).blocks_le, fun h =>
    ⟨h.homed.mapBlock b fun _ => rfl, h.tree.withResult b w⟩⟩) hroot hc

/-! ## Nodes and blocks -/

section

variable {inner : BlockId → BlockId → List NodeId → Copying → Copying → Prop}
  (hadds : ∀ {b into ns c c'}, inner b into ns c c' →
    Adds c.target c'.target { nodes := only into ns })

include hadds

theorem new_nested {bs made : List BlockId}
    (h : Chain (CopiesNested source inner copy) bs made c c') :
    ∀ b ∈ made, c.target.blocks.length ≤ b.index := by
  induction h with
  | nil => simp
  | cons hstep _ ih =>
    have hle := (hstep.adds hadds).blocks_le
    refine List.forall_mem_cons.mpr ⟨?_, fun b hb => hle.trans (ih b hb)⟩
    cases hstep
    exact le_rfl

variable (hinner : ∀ {b into ns c c'}, inner b into ns c c' →
  into.index < c.target.blocks.length → c.target.Orderly → c'.target.Orderly)

include hinner

theorem CopiesNested.orderly {nested made : BlockId}
    (h : CopiesNested source inner copy nested made c c')
    (hcopy : copy.index < c.target.nodes.length) (hc : c.target.Orderly) : c'.target.Orderly := by
  obtain ⟨-, hps, hns, hres⟩ := h
  obtain ⟨node, hn⟩ := (exists_node?_iff c.target copy).mpr hcopy
  have hlt : c.target.freshBlock.index <
      (c.withTarget (c.target.withBlock copy)).target.blocks.length := by
    simp [withTarget, withBlock, pushBlock, freshBlock]
  have hlt₁ := hlt.trans_le hps.adds.blocks_le
  exact Results.orderly hres (Nat.zero_lt_of_lt (hlt₁.trans_le (hadds hns).blocks_le))
    (hinner hns hlt₁ (hps.orderly hlt ⟨hc.homed.withBlock copy, hc.tree.withBlock hn⟩))

theorem orderly_nested {bs made : List BlockId}
    (h : Chain (CopiesNested source inner copy) bs made c c')
    (hcopy : copy.index < c.target.nodes.length) (hc : c.target.Orderly) : c'.target.Orderly := by
  induction h with
  | nil => exact hc
  | cons hstep _ ih =>
    exact ih (hcopy.trans_le (hstep.adds hadds).nodes_le) (hstep.orderly hadds hinner hcopy hc)

/-- The copy of a node stays detached while its blocks are copied, and these are newer than the
block that receives it. -/
theorem CopiesNode.orderly {made : NodeId} (h : CopiesNode source inner into n made c c')
    (hinto : into.index < c.target.blocks.length) (hc : c.target.Orderly) : c'.target.Orderly := by
  obtain @⟨node, inputs, types, bs, _, c₁, c₂, c₃, -, hins, -, houts, hbs⟩ := h
  have hfirst := Inputs.adds hins
  have hcreated : Adds c₁.target (c₁.create node inputs types).target {} := adds_withNode ..
  have hinside := houts.adds.trans (adds_nested hadds hbs)
  have hmade : c₁.target.freshNode.index < (c₁.create node inputs types).target.nodes.length := by
    simp [create, withTarget, withNode, freshNode]
  have hstart := Translates.orderly hins (fun _ _ => ⟨le_rfl, id⟩) (Nat.zero_lt_of_lt hinto) hc
  have hend := orderly_nested hadds hinner hbs (hmade.trans_le houts.adds.nodes_le)
    (houts.orderly ⟨hstart.homed.withNode _ types, hstart.tree.withNode rfl types⟩)
  obtain ⟨owner, hfd, hown⟩ := hinside.node _ _
    ((node?_withNode c₁.target c₁.target.freshNode _ types).trans (if_pos rfl))
  have harr : Arranges c₁.target.freshNode (· ++ [c₁.target.freshNode]) := fun nodes =>
    ⟨nodes, [], by simp, rfl⟩
  refine ⟨hend.homed.settle into (· ++ [c₁.target.freshNode]) _, hend.tree.settle harr hfd
    (hown (by simp [Additions.append])) (fun b hb => ?_) fun block m hblock hm => ?_⟩
  · have hbefore := (hfirst.trans (hcreated.trans houts.adds)).blocks_le
    exact hinto.trans_le (hbefore.trans (new_nested hadds hbs b
      (by simpa [Additions.append] using hb)))
  · obtain ⟨old, hold⟩ := (exists_block?_iff c.target into).mpr hinto
    obtain ⟨block', hb', -, -, -, heq⟩ :=
      (hfirst.trans (hcreated.trans hinside)).block into old hold
    cases hb'.symm.trans hblock
    obtain ⟨owner, hown⟩ := hc.tree.owner into old m hold (heq ▸ hm)
    exact lt_of_lt_of_le (index_lt_of_node? hown) hfirst.nodes_le

theorem orderly_nodes (h : Chain (CopiesNode source inner into) ns made c c')
    (hinto : into.index < c.target.blocks.length) (hc : c.target.Orderly) : c'.target.Orderly := by
  induction h with
  | nil => exact hc
  | cons hstep _ ih =>
    exact ih (hinto.trans_le (hstep.adds hadds).blocks_le) (hstep.orderly hadds hinner hinto hc)

end

theorem CopiesBlock.orderly {depth} (h : CopiesBlock source depth b into ns c c')
    (hinto : into.index < c.target.blocks.length) (hc : c.target.Orderly) : c'.target.Orderly := by
  induction depth generalizing b into ns c c' with
  | zero => exact h.elim
  | succ depth ih =>
    obtain ⟨block, -, hns⟩ := h
    exact orderly_nodes CopiesBlock.adds (fun h => ih h) hns hinto hc

theorem Extracts.orderly {captured}
    (h : Extracts source body extracted captured) : extracted.Orderly := by
  obtain ⟨-, hps, hns, hres⟩ := h
  have hroot : root.index < empty.blocks.length := Nat.zero_lt_one
  have hlt₁ := hroot.trans_le hps.adds.blocks_le
  exact Results.orderly hres (hlt₁.trans_le hns.adds.blocks_le)
    (hns.orderly hlt₁ (hps.orderly hroot ⟨homed_empty, treelike_empty⟩))

end Copying

end Flowgraph
