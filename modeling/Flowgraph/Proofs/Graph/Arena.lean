import Flowgraph.Proofs.Graph.Nesting
import Mathlib.Data.List.Induction
import Mathlib.Data.List.Nodup

/-!
# The arenas of a graph

What the arenas of a graph say about each other.  The origin of a value is the slot that holds it
(`Graph.Homed`).  Nodes and blocks form a tree (`Graph.Treelike`): a node stands once in the block
that it names as its owner, a nested block once among the blocks of its owner, and numbers grow on
the way in, for blocks as for nodes.  So a walk of the graph comes to an end, and it meets nothing
twice (`Graph.Arranged.walk_nodup`).
-/

namespace Flowgraph.Graph

open List Option

variable {n m : NodeId} {node : Node} {block : Block} {nodes : List NodeId} {f : Node → Node}
  {arrange : List NodeId → List NodeId} {α β : Type} {as : List α} {g g' : Graph}
  {b other : BlockId}

/-! ## Slots -/

def originOf? (g : Graph) (v : ValueId) : Option Origin := (g.value? v).map Value.origin

/-- The value at a slot of a node or block. -/
def slot? (g : Graph) : Origin → Option ValueId
  | .output n slot => (g.node? n).bind fun node => node.outputs[slot]?
  | .param b slot => (g.block? b).bind fun block => block.params[slot]?

/-- The origin of a value is the slot that holds it. -/
def Homed (g : Graph) : Prop :=
  ∀ v origin, g.originOf? v = some origin ↔ g.slot? origin = some v

theorem Homed.congr (h : g.Homed) (horig : ∀ v, g'.originOf? v = g.originOf? v)
    (hslot : ∀ origin, g'.slot? origin = g.slot? origin) : g'.Homed := fun v origin => by
  rw [horig, hslot]
  exact h v origin

theorem originOf?_pushValue (g : Graph) (value : Value) (v : ValueId) :
    (g.pushValue value).originOf? v =
      if v = g.freshValue then some value.origin else g.originOf? v := by
  rw [originOf?, value?_pushValue]
  split <;> rfl

section

variable (h : g.Homed)
include h

theorem Homed.push (new : Origin) (hnew : g.slot? new = none) (horig : ∀ v, g'.originOf? v =
      if v = g.freshValue then some new else g.originOf? v) (hslot : ∀ origin, g'.slot? origin =
      if origin = new then some g.freshValue else g.slot? origin) : g'.Homed := by
  intro v origin
  rw [horig, hslot]
  by_cases hv : v = g.freshValue
  · subst hv
    by_cases ho : origin = new
    · simp [ho]
    · have hnone := (h g.freshValue origin).mpr
      rw [show g.originOf? g.freshValue = none by simp [originOf?, value?, freshValue]] at hnone
      simp only [if_true, ho, if_false, some.injEq]
      exact ⟨fun heq => absurd heq.symm ho, fun heq => absurd (hnone heq) (by simp)⟩
  · by_cases ho : origin = new
    · subst ho
      have hnone := (h v origin).mp
      rw [hnew] at hnone
      simp only [hv, if_false, if_true, some.injEq]
      exact ⟨fun heq => absurd (hnone heq) (by simp), fun heq => absurd heq.symm hv⟩
    · simpa only [hv, ho, if_false] using h v origin

theorem Homed.withOutput (hn : g.node? n = some node) (ty : Ty) : (g.withOutput n ty).Homed := by
  refine h.push (.output n node.outputs.length) (by simp [slot?, hn]) (fun v => ?_) ?_
  · rw [Graph.withOutput, hn]
    exact originOf?_pushValue g { ty, origin := .output n node.outputs.length } v
  · rintro (⟨m, slot⟩ | ⟨b, slot⟩)
    · simp only [slot?, Graph.withOutput, node?_mapNode, node?_pushValue, Origin.output.injEq]
      by_cases hnm : n = m
      · subst hnm
        simp only [hn, if_true, map_some, bind_some, true_and]
        exact getElem?_append_singleton ..
      · simp [hnm, Ne.symm hnm]
    · simp [slot?, Graph.withOutput]

theorem Homed.withParam (hb : g.block? b = some block) (ty : Ty) : (g.withParam b ty).Homed := by
  refine h.push (.param b block.params.length) (by simp [slot?, hb]) (fun v => ?_) ?_
  · rw [Graph.withParam, hb]
    exact originOf?_pushValue g { ty, origin := .param b block.params.length } v
  · rintro (⟨n, slot⟩ | ⟨c, slot⟩)
    · simp [slot?, Graph.withParam]
    · simp only [slot?, Graph.withParam, block?_mapBlock, block?_pushValue, Origin.param.injEq]
      by_cases hbc : b = c
      · subst hbc
        simp only [hb, if_true, map_some, bind_some, true_and]
        exact getElem?_append_singleton ..
      · simp [hbc, Ne.symm hbc]

theorem Homed.withBlock (n : NodeId) : (g.withBlock n).Homed := by
  refine h.congr (fun _ => rfl) ?_
  rintro (⟨m, slot⟩ | ⟨b, slot⟩)
  · simp only [slot?, Graph.withBlock, node?_mapNode, node?_pushBlock]
    split <;> cases g.node? m <;> rfl
  · simp only [slot?, Graph.withBlock, block?_mapNode, block?_pushBlock]
    split
    next heq => simp [heq, block?, freshBlock]
    next => rfl

theorem Homed.mapNode (n : NodeId)
    (hf : ∀ node, (f node).outputs = node.outputs) : (g.mapNode n f).Homed := by
  refine h.congr (fun _ => rfl) ?_
  rintro (⟨m, slot⟩ | ⟨b, slot⟩)
  · simp only [slot?, node?_mapNode]
    split
    · cases g.node? m <;> simp [hf]
    · rfl
  · rfl

theorem Homed.mapBlock (b : BlockId) {f : Block → Block}
    (hf : ∀ block, (f block).params = block.params) : (g.mapBlock b f).Homed := by
  refine h.congr (fun _ => rfl) ?_
  rintro (⟨m, slot⟩ | ⟨c, slot⟩)
  · rfl
  · simp only [slot?, block?_mapBlock]
    split
    · cases g.block? c <;> simp [hf]
    · rfl

theorem Homed.mapValue (v : ValueId) {f : Value → Value}
    (hf : ∀ value, (f value).origin = value.origin) : (g.mapValue v f).Homed := by
  refine h.congr (fun w => ?_) fun origin => by cases origin <;> rfl
  simp only [originOf?, value?_mapValue]
  split
  · cases g.value? w <;> simp [hf]
  · rfl

end

theorem withNode_concat (g : Graph) (node : Node) (types : List Ty) (ty : Ty) :
    g.withNode node (types ++ [ty]) = (g.withNode node types).withOutput g.freshNode ty := by
  have hn := (node?_withNode g g.freshNode node types).trans (if_pos rfl)
  simp only [withOutput, hn, map_some, getD_some]
  have hlen : (g.freshValues types.length).length = types.length := by simp [freshValues]
  have hlast : g.freshValues (types ++ [ty]).length =
      g.freshValues types.length ++ [(g.withNode node types).freshValue] := by
    simp [freshValues, freshValue, withNode, range_succ]
  simp only [withNode, pushValue, mapNode, hlen, mk.injEq, and_true]
  refine ⟨by simp [mapIdx_concat], ?_⟩
  rw [freshNode, modify_append_singleton]
  exact congrArg (fun outputs => g.nodes ++ [{ node with outputs }]) hlast

theorem Homed.withNode (h : g.Homed) (node : Node) (types : List Ty) :
    (g.withNode node types).Homed := by
  induction types using reverseRecOn with
  | nil =>
    refine h.congr (fun v => by simp [originOf?, value?, Graph.withNode]) ?_
    rintro (⟨n, slot⟩ | ⟨b, slot⟩)
    · simp only [slot?, node?_withNode]
      split
      next heq => simp [heq, node?, freshNode, freshValues]
      next => rfl
    · rfl
  | append_singleton types ty ih =>
    rw [withNode_concat]
    exact ih.withOutput ((node?_withNode ..).trans (if_pos rfl)) ty

theorem homed_empty : empty.Homed := by
  intro v origin
  have hslot : empty.slot? origin = none := by
    match origin with
    | .output n slot => simp [slot?, node?, empty]
    | .param b slot =>
      simp only [slot?, block?, empty]
      cases hb : ([{}] : List Block)[b.index]? with
      | none => rfl
      | some block =>
        obtain rfl : block = {} := by
          have := mem_of_getElem? hb
          simpa using this
        rfl
  rw [hslot]
  simp [originOf?, value?, empty]

/-! ## The tree of nodes and blocks -/

/-- Nodes and blocks are where they say they are, once. -/
structure Arranged (g : Graph) : Prop where
  placed : ∀ b block n, g.block? b = some block → n ∈ block.nodes →
    ∃ node, g.node? n = some node ∧ node.owner = some b
  nested : ∀ n node b, g.node? n = some node → b ∈ node.blocks →
    ∃ block, g.block? b = some block ∧ block.owner = some n
  distinct : ∀ b block, g.block? b = some block → block.nodes.Nodup
  single : ∀ n node, g.node? n = some node → node.blocks.Nodup

structure Treelike (g : Graph) : Prop extends Arranged g where
  owner : ∀ b block n, g.block? b = some block → block.owner = some n →
    ∃ node, g.node? n = some node
  /-- What stands in a nested block came after the node that the block belongs to. -/
  later : ∀ b block n, g.block? b = some block → block.owner = some n →
    ∀ m ∈ block.nodes, n.index < m.index
  /-- A nested block came after the block that it is nested in. -/
  inward : ∀ b block n node inner, g.block? b = some block → n ∈ block.nodes →
    g.node? n = some node → inner ∈ node.blocks → b.index < inner.index
  root : ∃ block, g.block? root = some block ∧ block.owner = none

/-- As far as the tree is concerned, blocks may have given up nodes and nodes blocks, and nodes
without blocks may have come. -/
structure Trims (g g' : Graph) : Prop where
  keeps : ∀ n node, g.node? n = some node → ∃ made, g'.node? n = some made ∧
    ∀ b block, g'.block? b = some block → n ∈ block.nodes → made.owner = node.owner
  node : ∀ n made, g'.node? n = some made →
    made.blocks = [] ∨ ∃ node, g.node? n = some node ∧ made.blocks.Sublist node.blocks
  keepsBlock : ∀ b block, g.block? b = some block →
    ∃ made, g'.block? b = some made ∧ made.owner = block.owner
  block : ∀ b made, g'.block? b = some made →
    ∃ block, g.block? b = some block ∧ made.owner = block.owner ∧ made.nodes.Sublist block.nodes

namespace Trims

theorem of_eq (hns : ∀ n, g'.node? n = g.node? n) (hbs : ∀ b, g'.block? b = g.block? b) :
    Trims g g' where
  keeps n node hn := ⟨node, (hns n).trans hn, fun _ _ _ _ => rfl⟩
  node n made hm := .inr ⟨made, (hns n).symm.trans hm, .refl _⟩
  keepsBlock b block hb := ⟨block, (hbs b).trans hb, rfl⟩
  block b made hm := ⟨made, (hbs b).symm.trans hm, rfl, .refl _⟩

theorem mapNode (g : Graph) (n : NodeId) (hown : ∀ node, (f node).owner = node.owner)
    (hbs : ∀ node, (f node).blocks.Sublist node.blocks) : Trims g (g.mapNode n f) where
  keeps m node hn := by
    rw [node?_mapNode, hn]
    split
    · exact ⟨_, rfl, fun _ _ _ _ => hown node⟩
    · exact ⟨node, rfl, fun _ _ _ _ => rfl⟩
  node m made hm := by
    obtain ⟨old, hold, rfl | ⟨-, rfl⟩⟩ := exists_of_mapNode hm
    · exact .inr ⟨made, hold, .refl _⟩
    · exact .inr ⟨old, hold, hbs old⟩
  keepsBlock _ block hb := ⟨block, hb, rfl⟩
  block _ made hm := ⟨made, hm, rfl, .refl _⟩

theorem mapBlock (g : Graph) (b : BlockId) {f : Block → Block}
    (hown : ∀ block, (f block).owner = block.owner)
    (hns : ∀ block, (f block).nodes = block.nodes) : Trims g (g.mapBlock b f) where
  keeps _ node hn := ⟨node, hn, fun _ _ _ _ => rfl⟩
  node _ made hm := .inr ⟨made, hm, .refl _⟩
  keepsBlock c block hb := by
    rw [block?_mapBlock, hb]
    split
    · exact ⟨_, rfl, hown block⟩
    · exact ⟨block, rfl, rfl⟩
  block c made hm := by
    obtain ⟨old, hold, rfl | ⟨-, rfl⟩⟩ := exists_of_mapBlock hm
    · exact ⟨made, hold, rfl, .refl _⟩
    · exact ⟨old, hold, hown old, hns old ▸ .refl _⟩

end Trims

namespace Treelike

theorem trim (h : g.Treelike) (ht : Trims g g') : g'.Treelike where
  placed b block n hblock hn := by
    obtain ⟨old, hold, -, hsub⟩ := ht.block b block hblock
    obtain ⟨node, hnode, hown⟩ := h.placed b old n hold (hsub.subset hn)
    obtain ⟨made, hm, heq⟩ := ht.keeps n node hnode
    exact ⟨made, hm, (heq b block hblock hn).trans hown⟩
  nested n made b hm hb := by
    obtain hnone | ⟨node, hnode, hsub⟩ := ht.node n made hm
    · simp [hnone] at hb
    · obtain ⟨block, hblock, hown⟩ := h.nested n node b hnode (hsub.subset hb)
      obtain ⟨block', hb', heq⟩ := ht.keepsBlock b block hblock
      exact ⟨block', hb', heq.trans hown⟩
  distinct b block hblock := by
    obtain ⟨old, hold, -, hsub⟩ := ht.block b block hblock
    exact (h.distinct b old hold).sublist hsub
  single n made hm := by
    obtain hnone | ⟨node, hnode, hsub⟩ := ht.node n made hm
    · simp [hnone]
    · exact (h.single n node hnode).sublist hsub
  owner b block n hblock hn := by
    obtain ⟨old, hold, hown, -⟩ := ht.block b block hblock
    obtain ⟨node, hnode⟩ := h.owner b old n hold (hown ▸ hn)
    obtain ⟨made, hm, -⟩ := ht.keeps n node hnode
    exact ⟨made, hm⟩
  later b block n hblock hn m hm := by
    obtain ⟨old, hold, hown, hsub⟩ := ht.block b block hblock
    exact h.later b old n hold (hown ▸ hn) m (hsub.subset hm)
  inward b block n made inner hblock hn hm hin := by
    obtain ⟨old, hold, -, hns⟩ := ht.block b block hblock
    obtain hnone | ⟨node, hnode, hsub⟩ := ht.node n made hm
    · simp [hnone] at hin
    · exact h.inward b old n node inner hold (hns.subset hn) hnode (hsub.subset hin)
  root := by
    obtain ⟨block, hblock, hnone⟩ := h.root
    obtain ⟨block', hb', hown⟩ := ht.keepsBlock _ block hblock
    exact ⟨block', hb', hown.trans hnone⟩

theorem nested_lt (h : g.Treelike) (hn : g.node? n = some node)
    (hb : b ∈ node.blocks) : b.index < g.blocks.length := by
  obtain ⟨block, hblock, -⟩ := h.nested n node b hn hb
  exact index_lt_of_block? hblock

theorem withNode (h : g.Treelike) (hbs : node.blocks = []) (types : List Ty) :
    (g.withNode node types).Treelike := by
  refine h.trim ⟨fun m old hold => ⟨old, ?_, fun _ _ _ _ => rfl⟩, fun m made hm => ?_,
    fun _ block hb => ⟨block, hb, rfl⟩, fun _ made hm => ⟨made, hm, rfl, .refl _⟩⟩
  · rw [node?_withNode, if_neg (ne_freshNode hold), hold]
  · rw [node?_withNode] at hm
    split at hm
    · cases hm
      exact .inl hbs
    · exact .inr ⟨made, hm, .refl _⟩

theorem withBlock (h : g.Treelike) (hn : g.node? n = some node) : (g.withBlock n).Treelike := by
  have hns : ∀ {m made}, (g.withBlock n).node? m = some made → ∃ old, g.node? m = some old ∧
        (made.blocks = old.blocks ∨ m = n ∧ made.blocks = old.blocks ++ [g.freshBlock]) := by
    intro m made hmade
    obtain ⟨old, hold, rfl | ⟨heq, rfl⟩⟩ := exists_of_mapNode hmade
    · exact ⟨made, hold, .inl rfl⟩
    · exact ⟨old, hold, .inr ⟨heq.symm, rfl⟩⟩
  -- A block of a node is the new one, or it was there before.
  have hmem : ∀ {m made b}, (g.withBlock n).node? m = some made → b ∈ made.blocks → ∃ old,
      g.node? m = some old ∧ (b ∈ old.blocks ∨ m = n ∧ b = g.freshBlock) := by
    intro m made b hmade hb
    obtain ⟨old, hold, heq | ⟨rfl, heq⟩⟩ := hns hmade
    · exact ⟨old, hold, .inl (heq ▸ hb)⟩
    · exact ⟨old, hold, by simpa [heq] using hb⟩
  have hkeepNode : ∀ {m old}, g.node? m = some old → ∃ made,
      (g.withBlock n).node? m = some made ∧ made.owner = old.owner := by
    intro m old hold
    rw [Graph.withBlock, node?_mapNode, node?_pushBlock, hold]
    split
    · exact ⟨_, rfl, rfl⟩
    · exact ⟨old, rfl, rfl⟩
  have hbs : ∀ {b made}, (g.withBlock n).block? b = some made →
      g.block? b = some made ∨ b = g.freshBlock ∧ made = { owner := some n } := by
    intro b made hmade
    rw [Graph.withBlock, block?_mapNode, block?_pushBlock] at hmade
    split at hmade
    next heq => exact .inr ⟨heq, (Option.some.inj hmade).symm⟩
    next => exact .inl hmade
  have hkeepBlock : ∀ {b old}, g.block? b = some old → (g.withBlock n).block? b = some old := by
    intro b old hold
    rw [Graph.withBlock, block?_mapNode, block?_pushBlock, if_neg (ne_freshBlock hold), hold]
  refine ⟨⟨?_, ?_, ?_, ?_⟩, ?_, ?_, ?_, ?_⟩
  · intro b block m hblock hm
    rcases hbs hblock with hblock | ⟨-, rfl⟩
    · obtain ⟨old, hold, hown⟩ := h.placed b block m hblock hm
      obtain ⟨made, hmade, heq⟩ := hkeepNode hold
      exact ⟨made, hmade, heq.trans hown⟩
    · cases hm
  · intro m made b hmade hb
    obtain ⟨old, hold, hin | ⟨rfl, rfl⟩⟩ := hmem hmade hb
    · obtain ⟨block, hblock, hown⟩ := h.nested m old b hold hin
      exact ⟨block, hkeepBlock hblock, hown⟩
    · refine ⟨{ owner := some m }, ?_, rfl⟩
      rw [Graph.withBlock, block?_mapNode, block?_pushBlock, if_pos rfl]
  · intro b block hblock
    rcases hbs hblock with hblock | ⟨-, rfl⟩
    · exact h.distinct b block hblock
    · exact nodup_nil
  · intro m made hmade
    obtain ⟨old, hold, heq | ⟨rfl, heq⟩⟩ := hns hmade
    · exact heq ▸ h.single m old hold
    · rw [heq, nodup_append]
      refine ⟨h.single m old hold, nodup_singleton _, ?_⟩
      rintro b hb _ hfresh rfl
      exact lt_irrefl _ (mem_singleton.mp hfresh ▸ h.nested_lt hold hb)
  · intro b block m hblock hm
    have hfd : ∃ old, g.node? m = some old := by
      rcases hbs hblock with hblock | ⟨-, rfl⟩
      · exact h.owner b block m hblock hm
      · cases hm
        exact ⟨node, hn⟩
    obtain ⟨old, hold⟩ := hfd
    obtain ⟨made, hmade, -⟩ := hkeepNode hold
    exact ⟨made, hmade⟩
  · intro b block m hblock hm
    rcases hbs hblock with hblock | ⟨-, rfl⟩
    · exact h.later b block m hblock hm
    · simp
  · intro b block m made inner hblock hm hmade hinner
    rcases hbs hblock with hfd | ⟨-, rfl⟩
    · obtain ⟨old, hold, hin | ⟨-, rfl⟩⟩ := hmem hmade hinner
      · exact h.inward b block m old inner hfd hm hold hin
      · exact index_lt_of_block? hfd
    · cases hm
  · obtain ⟨block, hblock, hnone⟩ := h.root
    exact ⟨block, hkeepBlock hblock, hnone⟩

end Treelike

/-- A detached node is put among the nodes of a block. -/
def settle (g : Graph) (b : BlockId) (arrange : List NodeId → List NodeId) (n : NodeId) : Graph :=
  (g.mapNode n fun node => { node with owner := some b }).mapBlock b fun block =>
    { block with nodes := arrange block.nodes }

theorem attach_eq_settle (g : Graph) (b : BlockId) (arrange : List NodeId → List NodeId)
    (node : Node) (types : List Ty) : g.attach b arrange node types =
      (g.withNode { node with owner := none } types).settle b arrange g.freshNode := by
  simp only [attach, settle, withNode, mapNode, mapBlock, freshNode, modify_append_singleton]

theorem Arranges.nodup (h : Arranges n arrange) (hns : nodes.Nodup) (hn : n ∉ nodes) :
    (arrange nodes).Nodup := by
  obtain ⟨before, after, rfl, heq⟩ := h nodes
  rw [heq, nodup_middle]
  exact nodup_cons.mpr ⟨hn, hns⟩

theorem Homed.settle (h : g.Homed) (b : BlockId) (arrange : List NodeId → List NodeId)
    (n : NodeId) : (g.settle b arrange n).Homed := by
  unfold Graph.settle
  refine (h.mapNode n ?_).mapBlock b ?_ <;> exact fun _ => rfl

theorem Homed.attach (h : g.Homed) (b : BlockId) (arrange : List NodeId → List NodeId) (node : Node)
    (types : List Ty) : (g.attach b arrange node types).Homed := by
  rw [attach_eq_settle]
  exact Homed.settle (h.withNode _ types) b arrange _

namespace Treelike

section

variable (h : g.Treelike)
include h

/-- A detached node gets a place behind its own blocks' numbers and before nothing older. -/
theorem settle (harr : Arranges n arrange)
    (hnode : g.node? n = some node) (hdetached : node.owner = none)
    (hinward : ∀ inner ∈ node.blocks, b.index < inner.index)
    (hlater : ∀ block m, g.block? b = some block → block.owner = some m → m.index < n.index) :
    (g.settle b arrange n).Treelike := by
  have hns : ∀ {m made}, (g.settle b arrange n).node? m = some made → ∃ old,
      g.node? m = some old ∧ made.blocks = old.blocks := by
    intro m made hmade
    obtain ⟨old, hold, rfl | ⟨-, rfl⟩⟩ := exists_of_mapNode hmade
    · exact ⟨made, hold, rfl⟩
    · exact ⟨old, hold, rfl⟩
  have hkeepNode : ∀ {m old}, g.node? m = some old → n ≠ m →
      (g.settle b arrange n).node? m = some old := by
    intro m old hold hne
    rw [Graph.settle, node?_mapBlock, node?_mapNode, if_neg hne, hold]
  have hset : (g.settle b arrange n).node? n = some { node with owner := some b } := by
    rw [Graph.settle, node?_mapBlock, node?_mapNode, if_pos rfl, hnode, map_some]
  have hbs : ∀ {c made}, (g.settle b arrange n).block? c = some made → ∃ old,
      g.block? c = some old ∧ made.owner = old.owner ∧
        (made.nodes = old.nodes ∨ c = b ∧ made.nodes = arrange old.nodes) := by
    intro c made hmade
    obtain ⟨old, hold, rfl | ⟨heq, rfl⟩⟩ := exists_of_mapBlock hmade
    · exact ⟨made, hold, rfl, .inl rfl⟩
    · exact ⟨old, hold, rfl, .inr ⟨heq.symm, rfl⟩⟩
  have hkeepBlock : ∀ {c old}, g.block? c = some old → ∃ made,
      (g.settle b arrange n).block? c = some made ∧ made.owner = old.owner := by
    intro c old hold
    rw [Graph.settle, block?_mapBlock, block?_mapNode, hold]
    split
    · exact ⟨_, rfl, rfl⟩
    · exact ⟨old, rfl, rfl⟩
  have hunlisted : ∀ {c block}, g.block? c = some block → n ∉ block.nodes := by
    intro c block hb hn
    obtain ⟨found, hfd, hown⟩ := h.placed c block n hb hn
    cases hnode.symm.trans hfd
    simp [hdetached] at hown
  -- A node of a block is the new one, or it was there before.
  have hmem : ∀ {c made m}, (g.settle b arrange n).block? c = some made → m ∈ made.nodes →
      ∃ old, g.block? c = some old ∧ made.owner = old.owner ∧ (m ∈ old.nodes ∨ c = b ∧ m = n) := by
    intro c made m hmade hm
    obtain ⟨old, hold, hown, heq | ⟨rfl, heq⟩⟩ := hbs hmade
    · exact ⟨old, hold, hown, .inl (heq ▸ hm)⟩
    · rw [heq] at hm
      exact ⟨old, hold, hown, (harr.mem hm).symm.imp id fun hmn => ⟨rfl, hmn⟩⟩
  refine ⟨⟨?_, ?_, ?_, ?_⟩, ?_, ?_, ?_, ?_⟩
  · intro c block m hb hm
    obtain ⟨old, hold, -, hin | ⟨rfl, rfl⟩⟩ := hmem hb hm
    · obtain ⟨found, hfd, hown⟩ := h.placed c old m hold hin
      exact ⟨found, hkeepNode hfd fun heq => hunlisted hold (heq ▸ hin), hown⟩
    · exact ⟨_, hset, rfl⟩
  · intro m made c hmade hc
    obtain ⟨old, hold, heq⟩ := hns hmade
    obtain ⟨block, hb, hown⟩ := h.nested m old c hold (heq ▸ hc)
    obtain ⟨block', hb', heq'⟩ := hkeepBlock hb
    exact ⟨block', hb', heq'.trans hown⟩
  · intro c block hb
    obtain ⟨old, hold, -, heq | ⟨rfl, heq⟩⟩ := hbs hb
    · exact heq ▸ h.distinct c old hold
    · exact heq ▸ harr.nodup (h.distinct c old hold) (hunlisted hold)
  · intro m made hmade
    obtain ⟨old, hold, heq⟩ := hns hmade
    exact heq ▸ h.single m old hold
  · intro c block m hb hm
    obtain ⟨old, hold, heq, -⟩ := hbs hb
    obtain ⟨found, hfd⟩ := h.owner c old m hold (heq ▸ hm)
    by_cases hnm : n = m
    · subst hnm
      exact ⟨_, hset⟩
    · exact ⟨found, hkeepNode hfd hnm⟩
  · intro c block p hb hp m hm
    obtain ⟨old, hold, heq, hin | ⟨rfl, rfl⟩⟩ := hmem hb hm
    · exact h.later c old p hold (heq ▸ hp) m hin
    · exact hlater old p hold (heq ▸ hp)
  · intro c block m made inner hb hm hmade hinner
    obtain ⟨found, hfd, heq⟩ := hns hmade
    obtain ⟨old, hold, -, hin | ⟨rfl, rfl⟩⟩ := hmem hb hm
    · exact h.inward c old m found inner hold hin hfd (heq ▸ hinner)
    · cases hnode.symm.trans hfd
      exact hinward inner (heq ▸ hinner)
  · obtain ⟨block, hb, hnone⟩ := h.root
    obtain ⟨block', hb', heq⟩ := hkeepBlock hb
    exact ⟨block', hb', heq.trans hnone⟩

theorem attach (harr : Arranges g.freshNode arrange)
    (hbs : node.blocks = []) (types : List Ty) : (g.attach b arrange node types).Treelike := by
  rw [attach_eq_settle]
  have hnew := h.withNode (show { node with owner := none : Node }.blocks = [] from hbs) types
  refine hnew.settle harr ((node?_withNode ..).trans (if_pos rfl)) rfl (by simp [hbs])
    fun block m hb hm => ?_
  obtain ⟨owner, hown⟩ := h.owner b block m hb hm
  exact index_lt_of_node? hown

theorem mapNode (n : NodeId) (hown : ∀ node, (f node).owner = node.owner)
    (hbs : ∀ node, (f node).blocks.Sublist node.blocks) : (g.mapNode n f).Treelike :=
  h.trim (.mapNode g n hown hbs)

theorem pushValue (value : Value) : (g.pushValue value).Treelike :=
  h.trim (.of_eq (fun _ => rfl) fun _ => rfl)

theorem withOutput (n : NodeId) (ty : Ty) : (g.withOutput n ty).Treelike :=
  (h.pushValue _).trim (.mapNode _ n (fun _ => rfl) fun _ => .refl _)

theorem withParam (b : BlockId) (ty : Ty) : (g.withParam b ty).Treelike :=
  (h.pushValue _).trim (.mapBlock _ b (fun _ => rfl) fun _ => rfl)

theorem withResult (b : BlockId) (v : ValueId) : (g.withResult b v).Treelike :=
  h.trim (.mapBlock g b (fun _ => rfl) fun _ => rfl)

theorem coherent (hhomed : g.Homed) : g.Coherent where
  __ := h
  output n node v hn hv := by
    obtain ⟨slot, hslot⟩ := mem_iff_getElem?.mp hv
    obtain ⟨value, hvalue, horig⟩ := map_eq_some_iff.mp
      ((hhomed v (.output n slot)).mpr (by simpa [slot?, hn] using hslot))
    exact ⟨value, slot, hvalue, horig⟩
  param b block v hb hv := by
    obtain ⟨slot, hslot⟩ := mem_iff_getElem?.mp hv
    obtain ⟨value, hvalue, horig⟩ := map_eq_some_iff.mp
      ((hhomed v (.param b slot)).mpr (by simpa [slot?, hb] using hslot))
    exact ⟨value, slot, hvalue, horig⟩

end

end Treelike

theorem treelike_empty : empty.Treelike := by
  have hblock : ∀ {b block}, empty.block? b = some block → block = {} := by
    intro b block hblock
    have := mem_of_getElem? hblock
    simpa [empty] using this
  have hnode : ∀ {n node}, empty.node? n ≠ some node := by simp [node?, empty]
  refine ⟨⟨?_, fun n node _ hn => absurd hn hnode, fun b block hb => by simp [hblock hb],
    fun n node hn => absurd hn hnode⟩, ?_, ?_, fun b block n node _ _ _ hn => absurd hn hnode, {},
    rfl, rfl⟩
  all_goals
    intro b block n hb hn
    simp [hblock hb] at hn

/-! ## Walks -/

section

variable {b c inner : BlockId} {depth : Nat}

/-- Numbers of blocks grow on the way in, so that no walk goes deeper than there are blocks. -/
theorem Treelike.walkable (h : g.Treelike) (hb : b.index < g.blocks.length)
    (hdepth : g.blocks.length - b.index ≤ depth) : g.Walkable depth b := by
  induction depth generalizing b with
  | zero => omega
  | succ depth ih =>
    obtain ⟨block, hblock⟩ := (exists_block?_iff g b).mpr hb
    refine walkable_succ hblock fun n hn => ?_
    obtain ⟨node, hnode, -⟩ := h.placed b block n hblock hn
    refine ⟨node, hnode, fun inner hin => ?_⟩
    have hlt := h.inward b block n node inner hblock hn hnode hin
    exact ih (h.nested_lt hnode hin) (by omega)

theorem Arranged.nests_unique (h : g.Arranged) : Relator.RightUnique g.Nests := by
  rintro inner b c ⟨block, n, node, hblock, hn, hnode, hin⟩
    ⟨block', m, node', hb', hm, hn', hinner'⟩
  obtain rfl := blockOwner_unique (h.nested n node inner hnode hin)
    (h.nested m node' inner hn' hinner')
  exact owner_unique (h.placed b block n hblock hn) (h.placed c block' n hb' hm)

/-- The node stands in the block or in one nested there. -/
def Inside (g : Graph) (b : BlockId) (n : NodeId) : Prop :=
  ∃ c block, Relation.ReflTransGen g.Nests c b ∧ g.block? c = some block ∧ n ∈ block.nodes

theorem Treelike.index_lt_of_inside (h : g.Treelike)
    (hb : g.block? b = some block) (hn : block.owner = some n) (hm : g.Inside b m) :
    n.index < m.index := by
  obtain ⟨c, found, hnests, hfd, hm⟩ := hm
  induction hnests using Relation.ReflTransGen.head_induction_on generalizing found m with
  | refl =>
    cases hb.symm.trans hfd
    exact h.later b block n hb hn m hm
  | head hnests _ ih =>
    obtain ⟨outer, p, node, houter, hp, hnode, hin⟩ := hnests
    obtain ⟨_, heq, hown⟩ := h.nested p node _ hnode hin
    cases heq.symm.trans hfd
    exact Nat.lt_trans (ih outer houter hp) (h.later _ _ p hfd hown m hm)

section

variable (h : g.Arranged) (hacyclic : ¬ Relation.TransGen g.Nests b b)
include h hacyclic

theorem Arranged.eq_of_inside (hinner : g.Nests inner b)
    (hother : g.Nests other b) (hn : g.Inside inner n) (hn' : g.Inside other n) :
    inner = other := by
  obtain ⟨c, block, hnests, hb, hin⟩ := hn
  obtain ⟨c', block', hnests', hb', hin'⟩ := hn'
  obtain rfl := owner_unique (h.placed c block n hb hin) (h.placed c' block' n hb' hin')
  -- One of the blocks is nested in the other, and if they differ, then through the block around.
  have hstep : ∀ {x y : BlockId}, g.Nests x b → g.Nests y b →
      Relation.ReflTransGen g.Nests x y → x = y := by
    intro x y hx hy hxy
    rcases Relation.ReflTransGen.cases_head hxy with heq | ⟨z, hxz, hzy⟩
    · exact heq
    · obtain rfl := h.nests_unique hxz hx
      exact absurd (.tail' hzy hy) hacyclic
  rcases Relation.ReflTransGen.total_of_right_unique h.nests_unique hnests hnests' with hxy | hyx
  · exact hstep hinner hother hxy
  · exact (hstep hother hinner hyx).symm

theorem Arranged.not_inside (hb : g.block? b = some block)
    (hn : n ∈ block.nodes) (hinner : g.Nests inner b) : ¬ g.Inside inner n := by
  rintro ⟨c, block', hnests, hb', hin⟩
  obtain rfl := owner_unique (h.placed b block n hb hn) (h.placed c block' n hb' hin)
  exact hacyclic (.tail' hnests hinner)

end

/-- The walk of a node, given those of its blocks. -/
def NodeWalk (g : Graph) (depth : Nat) (n : NodeId) (walk : List NodeId) : Prop :=
  ∃ node walks, g.node? n = some node ∧
    Forall₂ (fun inner walk => g.walkWithin depth inner = some walk) node.blocks walks ∧
      walk = n :: walks.flatten

theorem walkWithin_succ (h : g.walkWithin (depth + 1) b = some nodes) :
    ∃ block walks, g.block? b = some block ∧
      Forall₂ (g.NodeWalk depth) block.nodes walks ∧ nodes = walks.flatten := by
  obtain ⟨block, hb, h⟩ := bind_eq_some_iff.mp h
  obtain ⟨walks, hwalks, h⟩ := bind_eq_some_iff.mp h
  refine ⟨block, walks, hb, (forall₂_of_mapM hwalks).imp fun n walk hwalk => ?_, (some.inj h).symm⟩
  obtain ⟨node, hn, hwalk⟩ := bind_eq_some_iff.mp hwalk
  obtain ⟨inside, hinside, hwalk⟩ := bind_eq_some_iff.mp hwalk
  exact ⟨node, inside, hn, forall₂_of_mapM hinside, (some.inj hwalk).symm⟩

theorem inside_of_mem_walkWithin (h : g.walkWithin depth b = some nodes) (hn : n ∈ nodes) :
    g.Inside b n := by
  induction depth generalizing b nodes with
  | zero => cases h
  | succ depth ih =>
    obtain ⟨block, walks, hb, hwalks, rfl⟩ := walkWithin_succ h
    obtain ⟨walk, hwalk, hn⟩ := mem_flatten.mp hn
    obtain ⟨m, hm, node, inside, hnode, hinside, rfl⟩ := exists_left_of_forall₂ hwalks hwalk
    rcases mem_cons.mp hn with rfl | hn
    · exact ⟨b, block, .refl, hb, hm⟩
    · obtain ⟨walk, hwalk, hn⟩ := mem_flatten.mp hn
      obtain ⟨inner, hin, hwalk⟩ := exists_left_of_forall₂ hinside hwalk
      obtain ⟨c, found, hnests, hfd⟩ := ih hwalk hn
      exact ⟨c, found, hnests.tail ⟨block, m, node, hb, hm, hnode, hin⟩, hfd⟩

/-- Lists that belong to different entries are pairwise disjoint if entries in common are equal. -/
theorem pairwise_disjoint_of_forall₂ {R : α → List β → Prop} {bss : List (List β)}
    (h : Forall₂ R as bss) (hdist : as.Nodup)
    (hs : ∀ a ∈ as, ∀ a' ∈ as, ∀ bs bs' b, R a bs → R a' bs' → b ∈ bs → b ∈ bs' → a = a') :
    bss.Pairwise List.Disjoint := by
  induction h with
  | nil => exact .nil
  | @cons a bs as bss hab hrest ih =>
    obtain ⟨hnot, hdist⟩ := nodup_cons.mp hdist
    refine .cons (fun bs' hbs' b hb hb' => ?_) (ih hdist fun x hx y hy =>
      hs x (.tail _ hx) y (.tail _ hy))
    obtain ⟨a', ha', hr⟩ := exists_left_of_forall₂ hrest hbs'
    exact hnot (hs a (.head _) a' (.tail _ ha') bs bs' b hab hr hb hb' ▸ ha')

theorem Arranged.walk_nodup (h : g.Arranged) (hwalk : g.walkWithin depth b = some nodes) :
    nodes.Nodup := by
  induction depth generalizing b nodes with
  | zero => cases hwalk
  | succ depth ih =>
    have hacyclic : ¬ Relation.TransGen g.Nests b b := Walkable.acyclic ⟨nodes, hwalk⟩
    obtain ⟨block, walks, hb, hwalks, rfl⟩ := walkWithin_succ hwalk
    have hnests : ∀ {n node inner}, n ∈ block.nodes → g.node? n = some node → inner ∈ node.blocks →
        g.Nests inner b := fun hn hnode hinner => ⟨block, _, _, hb, hn, hnode, hinner⟩
    -- What a node of the block contributes is the node itself and what is inside its blocks.
    have hcontains : ∀ {n walk m}, g.NodeWalk depth n walk → m ∈ walk → m = n ∨
        ∃ node inner, g.node? n = some node ∧ inner ∈ node.blocks ∧ g.Inside inner m := by
      rintro n walk m ⟨node, inside, hnode, hinside, rfl⟩ hm
      refine (mem_cons.mp hm).imp id fun hm => ?_
      obtain ⟨walk, hwalk, hm⟩ := mem_flatten.mp hm
      obtain ⟨inner, hinner, hwalk⟩ := exists_left_of_forall₂ hinside hwalk
      exact ⟨node, inner, hnode, hinner, inside_of_mem_walkWithin hwalk hm⟩
    refine nodup_flatten.mpr ⟨fun walk hin => ?_, ?_⟩
    · obtain ⟨n, hn, node, inside, hnode, hinside, rfl⟩ := exists_left_of_forall₂ hwalks hin
      refine nodup_cons.mpr ⟨fun hmem => ?_, nodup_flatten.mpr ⟨fun walk hwalk => ?_, ?_⟩⟩
      · obtain ⟨walk, hwalk, hmem⟩ := mem_flatten.mp hmem
        obtain ⟨inner, hinner, hwalk⟩ := exists_left_of_forall₂ hinside hwalk
        exact h.not_inside hacyclic hb hn (hnests hn hnode hinner)
          (inside_of_mem_walkWithin hwalk hmem)
      · obtain ⟨inner, -, hwalk⟩ := exists_left_of_forall₂ hinside hwalk
        exact ih hwalk
      · refine pairwise_disjoint_of_forall₂ hinside (h.single n node hnode) ?_
        intro inner hinner other hother walk walk' m hwalk hwalk' hm hm'
        exact h.eq_of_inside hacyclic (hnests hn hnode hinner) (hnests hn hnode hother)
          (inside_of_mem_walkWithin hwalk hm) (inside_of_mem_walkWithin hwalk' hm')
    · refine pairwise_disjoint_of_forall₂ hwalks (h.distinct b block hb) ?_
      intro n hn n' hn' walk walk' m hwalk hwalk' hm hm'
      rcases hcontains hwalk hm with rfl | ⟨node, inner, hnode, hinner, hinside⟩
      · rcases hcontains hwalk' hm' with heq | ⟨node, inner, hnode, hinner, hinside⟩
        · exact heq
        · exact absurd hinside (h.not_inside hacyclic hb hn (hnests hn' hnode hinner))
      · rcases hcontains hwalk' hm' with rfl | ⟨node', inner', hnode', hinner', hinside'⟩
        · exact absurd hinside (h.not_inside hacyclic hb hn' (hnests hn hnode hinner))
        · obtain rfl := h.eq_of_inside hacyclic (hnests hn hnode hinner)
            (hnests hn' hnode' hinner') hinside hinside'
          exact blockOwner_unique (h.nested n node inner hnode hinner)
            (h.nested n' node' inner hnode' hinner')

end

end Flowgraph.Graph
