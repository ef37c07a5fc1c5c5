import Flowgraph.Proofs.Graph.Growth

/-!
# Updates of graphs as total functions

The updates that building uses, each as a function that cannot fail, with what it does to the
arenas.

A graph is coherent when values, nodes and blocks know where they belong: an output its node, a
node its block, a nested block its owner.
-/

namespace Flowgraph.Graph

open List Option

variable {g g' : Graph} {v : ValueId} {n : NodeId} {ty : Ty} {b : BlockId} {block : Block}

/-! ## New numbers -/

def freshValue (g : Graph) : ValueId := ⟨g.values.length⟩

def freshNode (g : Graph) : NodeId := ⟨g.nodes.length⟩

def freshBlock (g : Graph) : BlockId := ⟨g.blocks.length⟩

theorem ne_freshNode {node : Node} (h : g.node? n = some node) : n ≠ g.freshNode := by
  rintro rfl
  exact Nat.lt_irrefl _ (index_lt_of_node? h)

theorem ne_freshBlock {block : Block} (h : g.block? b = some block) : b ≠ g.freshBlock := by
  rintro rfl
  exact Nat.lt_irrefl _ (index_lt_of_block? h)

def freshValues (g : Graph) (count : Nat) : List ValueId :=
  (range count).map fun slot => ⟨g.values.length + slot⟩

theorem le_of_mem_freshValues {count} (h : v ∈ g.freshValues count) : g.values.length ≤
    v.index := by
  obtain ⟨slot, -, rfl⟩ := mem_map.mp h
  exact Nat.le_add_right _ _

@[simp] theorem freshValues_one (g : Graph) : g.freshValues 1 = [g.freshValue] := rfl

/-! ## The updates -/

/-- Where a new node goes among the nodes of a block. -/
def placeIn (before : Option NodeId) (n : NodeId) (nodes : List NodeId) : List NodeId :=
  match before with
  | none => nodes ++ [n]
  | some m => nodes.takeWhile (· ≠ m) ++ n :: nodes.dropWhile (· ≠ m)

/-- A detached node, as creating one leaves it. -/
def withNode (g : Graph) (node : Node) (types : List Ty) : Graph where
  values := g.values ++ types.mapIdx fun slot ty => { ty, origin := .output g.freshNode slot }
  nodes := g.nodes ++ [{ node with outputs := g.freshValues types.length }]
  blocks := g.blocks

/-- A new node in a block, put among its nodes by `arrange`. -/
def attach (g : Graph) (b : BlockId) (arrange : List NodeId → List NodeId) (node : Node)
    (types : List Ty) : Graph where
  values := g.values ++ types.mapIdx fun slot ty => { ty, origin := .output g.freshNode slot }
  nodes := g.nodes ++ [{ node with outputs := g.freshValues types.length, owner := some b }]
  blocks := g.blocks.modify b.index fun block => { block with nodes := arrange block.nodes }

/-- A new node at an insertion point. -/
def place (g : Graph) (point : InsertPoint) (node : Node) (types : List Ty) : Graph :=
  g.attach point.block (placeIn point.before g.freshNode) node types

/-- A new node at a position of the root. -/
def placeAtRoot (g : Graph) (position : Nat) (node : Node) (types : List Ty) : Graph :=
  g.attach root (fun nodes => nodes.take position ++ g.freshNode :: nodes.drop position) node types

def pushValue (g : Graph) (value : Value) : Graph :=
  { g with values := g.values ++ [value] }

def pushBlock (g : Graph) (block : Block) : Graph :=
  { g with blocks := g.blocks ++ [block] }

def withOutput (g : Graph) (n : NodeId) (ty : Ty) : Graph :=
  let slot := ((g.node? n).map fun node => node.outputs.length).getD 0
  (g.pushValue { ty, origin := .output n slot }).mapNode n fun node =>
    { node with outputs := node.outputs ++ [g.freshValue] }

def withParam (g : Graph) (b : BlockId) (ty : Ty) : Graph :=
  let slot := ((g.block? b).map fun block => block.params.length).getD 0
  (g.pushValue { ty, origin := .param b slot }).mapBlock b fun block =>
    { block with params := block.params ++ [g.freshValue] }

def withBlock (g : Graph) (n : NodeId) : Graph :=
  (g.pushBlock { owner := some n }).mapNode n fun node =>
    { node with blocks := node.blocks ++ [g.freshBlock] }

def withResult (g : Graph) (b : BlockId) (v : ValueId) : Graph :=
  g.mapBlock b fun block => { block with results := block.results ++ [v] }

def withInput (g : Graph) (n : NodeId) (v : ValueId) : Graph :=
  g.mapNode n fun node => { node with inputs := node.inputs ++ [v] }

def retype (g : Graph) (v : ValueId) (ty : Ty) : Graph :=
  g.mapValue v fun value => { value with ty }

/-- Name a value, or leave its name. -/
def named (g : Graph) (v : ValueId) (label : Option String) : Graph :=
  g.mapValue v fun value => { value with name := label.or value.name }

/-! ## What the updates of building give -/

theorem addOutput_eq_some (h : g.addOutput n ty = some (v, g')) :
    v = g.freshValue ∧ g' = g.withOutput n ty := by
  obtain ⟨node, hn, heq⟩ := bind_eq_some_iff.mp h
  obtain ⟨rfl, rfl⟩ := Prod.mk.inj (some.inj heq)
  refine ⟨rfl, ?_⟩
  simp only [withOutput, hn, mapNode, map_some, getD_some]
  rw [← set_eq_modify (g.pushValue _).nodes hn]
  rfl

theorem addParam_eq_some (h : g.addParam b ty = some (v, g')) :
    v = g.freshValue ∧ g' = g.withParam b ty := by
  obtain ⟨block, hb, heq⟩ := bind_eq_some_iff.mp h
  obtain ⟨rfl, rfl⟩ := Prod.mk.inj (some.inj heq)
  refine ⟨rfl, ?_⟩
  simp only [withParam, hb, mapBlock, map_some, getD_some]
  rw [← set_eq_modify (g.pushValue _).blocks hb]
  rfl

theorem addBlock_eq_some (h : g.addBlock n = some (b, g')) :
    b = g.freshBlock ∧ g' = g.withBlock n := by
  obtain ⟨node, hn, heq⟩ := bind_eq_some_iff.mp h
  obtain ⟨rfl, rfl⟩ := Prod.mk.inj (some.inj heq)
  refine ⟨rfl, ?_⟩
  simp only [withBlock, mapNode]
  rw [← set_eq_modify (g.pushBlock _).nodes hn]
  rfl

theorem addResult_eq_some (h : g.addResult b v = some g') : g' = g.withResult b v :=
  modifyBlock_eq_some h

theorem setName_eq_some {name}
    (h : g.setName v (some name) = some g') : g' = g.named v (some name) :=
  modifyValue_eq_some h

@[simp] theorem named_none (g : Graph) (v : ValueId) : g.named v none = g := by
  have hself : (fun value : Value => { value with name := (none : Option String).or value.name }) =
      id := by
    funext value
    simp
  cases g
  simp only [named, mapValue, hself, modify_id]

/-! ## Looking up after an update -/

section

variable (g : Graph) (b c : BlockId) (n m : NodeId) (v w : ValueId)
  (arrange : List NodeId → List NodeId) (node : Node) (types : List Ty)

theorem block?_pushBlock (block : Block) : (g.pushBlock block).block? c =
    if c = g.freshBlock then some block else g.block? c := by
  obtain ⟨i⟩ := c
  simp only [freshBlock, BlockId.mk.injEq]
  exact getElem?_append_singleton g.blocks block i

theorem value?_pushValue (value : Value) : (g.pushValue value).value? w =
    if w = g.freshValue then some value else g.value? w := by
  obtain ⟨i⟩ := w
  simp only [freshValue, ValueId.mk.injEq]
  exact getElem?_append_singleton g.values value i

@[simp] theorem node?_pushValue (value : Value) : (g.pushValue value).node? n = g.node? n := rfl

@[simp] theorem block?_pushValue (value : Value) : (g.pushValue value).block? b = g.block? b := rfl

@[simp] theorem node?_pushBlock (block : Block) : (g.pushBlock block).node? n = g.node? n := rfl

theorem node?_attach : (g.attach b arrange node types).node? m =
    if m = g.freshNode then
      some { node with outputs := g.freshValues types.length, owner := some b }
    else g.node? m := by
  obtain ⟨i⟩ := m
  simp only [freshNode, NodeId.mk.injEq]
  exact getElem?_append_singleton g.nodes _ i

theorem node?_withNode : (g.withNode node types).node? m =
    if m = g.freshNode then some { node with outputs := g.freshValues types.length }
    else g.node? m := by
  obtain ⟨i⟩ := m
  simp only [freshNode, NodeId.mk.injEq]
  exact getElem?_append_singleton g.nodes _ i

theorem block?_attach : (g.attach b arrange node types).block? c =
    if b = c then (g.block? c).map fun block => { block with nodes := arrange block.nodes }
    else g.block? c :=
  block?_mapBlock g b c _

theorem value?_attach_fresh {slot : Nat} (h : types[slot]? = some ty) :
    (g.attach b arrange node types).value? ⟨g.values.length + slot⟩ =
      some { ty, origin := .output g.freshNode slot } := by
  simp only [value?, attach]
  rw [getElem?_append_right (Nat.le_add_right _ _), Nat.add_sub_cancel_left]
  simp [getElem?_mapIdx, h]

end

/-! ## Growth -/

/-- The arrangement puts the node somewhere between the others. -/
def Arranges (n : NodeId) (arrange : List NodeId → List NodeId) : Prop :=
  ∀ nodes, ∃ before after, nodes = before ++ after ∧ arrange nodes = before ++ n :: after

theorem arranges_placeIn (before : Option NodeId) (n : NodeId) : Arranges n (placeIn before n) := by
  intro nodes
  cases before with
  | none => exact ⟨nodes, [], by simp, rfl⟩
  | some m => exact ⟨_, _, (takeWhile_append_dropWhile ..).symm, rfl⟩

theorem arranges_atPosition (position : Nat) (n : NodeId) :
    Arranges n fun nodes => nodes.take position ++ n :: nodes.drop position :=
  fun nodes => ⟨_, _, (take_append_drop position nodes).symm, rfl⟩

section

variable {g grown : Graph} {b : BlockId} {n : NodeId}

section

variable (h : Grows g grown)
include h

theorem Grows.attach {arrange : List NodeId → List NodeId} {node : Node}
    (harr : Arranges grown.freshNode arrange) (hbs : node.blocks = [])
    (hfresh : ∀ block, grown.block? b = some block → grown.freshNode ∉ block.nodes)
    (types : List Ty) : Grows g (grown.attach b arrange node types) := by
  have hvs := h.pushValues (types.mapIdx fun slot ty =>
    { ty, origin := .output grown.freshNode slot })
  have hn := hvs.pushNode { node with outputs := grown.freshValues types.length, owner := some b }
    (fun v hv => Nat.le_trans h.values_le (le_of_mem_freshValues hv)) (by simp [hbs])
  refine hn.mapBlock b (f := fun block => { block with nodes := arrange block.nodes })
    fun block hb => ⟨rfl, .refl _ _ _, ?_⟩
  obtain ⟨before, after, hns, harranged⟩ := harr block.nodes
  have hnew : ¬(grown.freshNode.index < g.nodes.length ∨ grown.freshNode ∈ block.nodes) := by
    rintro (hlt | hin)
    · exact absurd h.nodes_le (Nat.not_le.mpr hlt)
    · exact hfresh block hb hin
  simp only [harranged, filter_append, filter_cons, hnew, decide_false, Bool.false_eq_true,
    if_false]
  rw [← filter_append, ← hns]
  exact filter_eq_self.mpr (by simp +contextual)

theorem Grows.withOutput (n : NodeId) (ty : Ty) : Grows g (grown.withOutput n ty) :=
  (h.pushValues [_]).mapNode n fun _ _ =>
    ⟨rfl, rfl, ⟨[grown.freshValue], rfl, by simpa [freshValue] using h.values_le⟩, .refl _ _ _⟩

theorem Grows.withParam (b : BlockId) (ty : Ty) : Grows g (grown.withParam b ty) :=
  (h.pushValues [_]).mapBlock b fun block _ =>
    ⟨rfl, ⟨[grown.freshValue], rfl, by simpa [freshValue] using h.values_le⟩,
      (BlockGrows.refl g block).nodes⟩

theorem Grows.withBlock (n : NodeId) : Grows g (grown.withBlock n) :=
  (h.pushBlock rfl rfl).mapNode n fun _ _ =>
    ⟨rfl, rfl, .refl _ _ _, ⟨[grown.freshBlock], rfl, by simpa [freshBlock] using h.blocks_le⟩⟩

theorem Grows.withResult (b : BlockId) (v : ValueId) : Grows g (grown.withResult b v) :=
  h.mapBlock b fun block _ => ⟨rfl, .refl _ _ _, (BlockGrows.refl g block).nodes⟩

theorem Grows.withInput (n : NodeId) (v : ValueId) : Grows g (grown.withInput n v) :=
  h.mapNode n fun _ _ => ⟨rfl, rfl, .refl _ _ _, .refl _ _ _⟩

theorem Grows.retype (v : ValueId) (ty : Ty) : Grows g (grown.retype v ty) :=
  h.mapValue v fun _ => rfl

theorem Grows.named (v : ValueId) (label : Option String) : Grows g (grown.named v label) :=
  h.mapValue v fun _ => rfl

end

end

/-! ## Coherence -/

/-- The value is an output of the node, as its origin says. -/
def OutputOf (g : Graph) (v : ValueId) (n : NodeId) : Prop :=
  ∃ value slot, g.value? v = some value ∧ value.origin = .output n slot

/-- The value is a parameter of the block, as its origin says. -/
def ParamOf (g : Graph) (v : ValueId) (b : BlockId) : Prop :=
  ∃ value slot, g.value? v = some value ∧ value.origin = .param b slot

/-- Outputs, parameters, nodes and nested blocks know where they belong. -/
structure Coherent (g : Graph) : Prop where
  output : ∀ n node v, g.node? n = some node → v ∈ node.outputs →
    ∃ value slot, g.value? v = some value ∧ value.origin = .output n slot
  param : ∀ b block v, g.block? b = some block → v ∈ block.params →
    ∃ value slot, g.value? v = some value ∧ value.origin = .param b slot
  placed : ∀ b block n, g.block? b = some block → n ∈ block.nodes →
    ∃ node, g.node? n = some node ∧ node.owner = some b
  nested : ∀ n node b, g.node? n = some node → b ∈ node.blocks →
    ∃ block, g.block? b = some block ∧ block.owner = some n

section

variable {g g' : Graph} {n m : NodeId} {b c : BlockId} {v : ValueId} {node : Node}
  {arrange : List NodeId → List NodeId}

theorem node?_withOutput (h : g.node? n = some node) (ty : Ty) : (g.withOutput n ty).node? n =
    some { node with outputs := node.outputs ++ [g.freshValue] } := by
  rw [withOutput, node?_mapNode, if_pos rfl, node?_pushValue, h, map_some]

theorem owner_unique (h : ∃ node, g.node? n = some node ∧ node.owner = some b)
    (h' : ∃ node, g.node? n = some node ∧ node.owner = some c) : b = c := by
  obtain ⟨node, hn, hown⟩ := h
  obtain ⟨node', hn', howner'⟩ := h'
  cases hn.symm.trans hn'
  exact some.inj (hown.symm.trans howner')

theorem blockOwner_unique (h : ∃ block, g.block? b = some block ∧ block.owner = some n)
    (h' : ∃ block, g.block? b = some block ∧ block.owner = some m) : n = m := by
  obtain ⟨block, hb, hown⟩ := h
  obtain ⟨block', hb', howner'⟩ := h'
  cases hb.symm.trans hb'
  exact some.inj (hown.symm.trans howner')

theorem OutputOf.unique (h : g.OutputOf v n) (h' : g.OutputOf v m) : n = m := by
  obtain ⟨value, slot, hv, horig⟩ := h
  obtain ⟨value', slot', hv', horigin'⟩ := h'
  cases hv.symm.trans hv'
  exact (Origin.output.inj (horig.symm.trans horigin')).1

theorem ParamOf.unique (h : g.ParamOf v b) (h' : g.ParamOf v c) : b = c := by
  obtain ⟨value, slot, hv, horig⟩ := h
  obtain ⟨value', slot', hv', horigin'⟩ := h'
  cases hv.symm.trans hv'
  exact (Origin.param.inj (horig.symm.trans horigin')).1

theorem OutputOf.not_paramOf (h : g.OutputOf v n) : ¬ g.ParamOf v b := by
  rintro ⟨value', slot', hv', horigin'⟩
  obtain ⟨value, slot, hv, horig⟩ := h
  cases hv.symm.trans hv'
  cases horig.symm.trans horigin'

section

variable (h : g.Coherent)
include h

theorem Coherent.freshNode_not_mem (b : BlockId) (block : Block)
    (hb : g.block? b = some block) : g.freshNode ∉ block.nodes := by
  intro hin
  obtain ⟨node, hn, -⟩ := h.placed b block _ hb hin
  exact Nat.lt_irrefl _ (index_lt_of_node? hn)

theorem Coherent.output_lt (hn : g.node? n = some node) (hv : v ∈ node.outputs) :
    v.index < g.values.length := by
  obtain ⟨value, -, hvalue, -⟩ := h.output n node v hn hv
  exact index_lt_of_value? hvalue

theorem Coherent.nested_lt (hn : g.node? n = some node) (hb : b ∈ node.blocks) :
    b.index < g.blocks.length := by
  obtain ⟨block, hblock, -⟩ := h.nested n node b hn hb
  exact index_lt_of_block? hblock

theorem Coherent.of_grows (hgrows : Grows g g')
    (hout : ∀ n node v, g'.node? n = some node → v ∈ node.outputs →
      (∃ old, g.node? n = some old ∧ v ∈ old.outputs) ∨ g'.OutputOf v n)
    (hp : ∀ b block v, g'.block? b = some block → v ∈ block.params →
      (∃ old, g.block? b = some old ∧ v ∈ old.params) ∨ g'.ParamOf v b)
    (hpl : ∀ b block n, g'.block? b = some block → n ∈ block.nodes →
      (∃ old, g.block? b = some old ∧ n ∈ old.nodes) ∨
        ∃ node, g'.node? n = some node ∧ node.owner = some b)
    (hnest : ∀ n node b, g'.node? n = some node → b ∈ node.blocks →
      (∃ old, g.node? n = some old ∧ b ∈ old.blocks) ∨
        ∃ block, g'.block? b = some block ∧ block.owner = some n) : g'.Coherent where
  output n node v hnode hv := by
    refine (hout n node v hnode hv).elim (fun ⟨old, hold, hin⟩ => ?_) id
    obtain ⟨value, slot, hvalue, horig⟩ := h.output n old v hold hin
    obtain ⟨value', hv', horigin'⟩ := hgrows.value v value hvalue
    exact ⟨value', slot, hv', horigin'.trans horig⟩
  param b block v hblock hv := by
    refine (hp b block v hblock hv).elim (fun ⟨old, hold, hin⟩ => ?_) id
    obtain ⟨value, slot, hvalue, horig⟩ := h.param b old v hold hin
    obtain ⟨value', hv', horigin'⟩ := hgrows.value v value hvalue
    exact ⟨value', slot, hv', horigin'.trans horig⟩
  placed b block n hblock hn := by
    refine (hpl b block n hblock hn).elim (fun ⟨old, hold, hin⟩ => ?_) id
    obtain ⟨node, hnode, hown⟩ := h.placed b old n hold hin
    obtain ⟨node', hn', hnodeGrows⟩ := hgrows.node n node hnode
    exact ⟨node', hn', hnodeGrows.owner.trans hown⟩
  nested n node b hnode hb := by
    refine (hnest n node b hnode hb).elim (fun ⟨old, hold, hin⟩ => ?_) id
    obtain ⟨block, hblock, hown⟩ := h.nested n old b hold hin
    obtain ⟨block', hb', hblockGrows⟩ := hgrows.block b block hblock
    exact ⟨block', hb', hblockGrows.owner.trans hown⟩

end

theorem Arranges.mem (h : Arranges n arrange) {nodes} (hm : m ∈ arrange nodes) :
    m = n ∨ m ∈ nodes := by
  obtain ⟨before, after, rfl, heq⟩ := h nodes
  rw [heq] at hm
  simp only [mem_append, mem_cons] at hm ⊢
  grind

section

variable {ι α β : Type} {before after : ι → Option α} {list : α → List β} {P : ι → β → Prop}

theorem listed_same (i : ι) (made : α) (x : β) (h : before i = some made) (hx : x ∈ list made) :
    (∃ old, before i = some old ∧ x ∈ list old) ∨ P i x :=
  .inl ⟨made, h, hx⟩

/-- An update of some entries adds to their lists only what is new. -/
theorem listed_map {f : α → α} {C : ι → Prop} (h : ∀ {i made}, after i = some made →
      ∃ old, before i = some old ∧ (made = old ∨ C i ∧ made = f old))
    (hlist : ∀ {i a x}, C i → x ∈ list (f a) → x ∈ list a ∨ P i x) (i : ι) (made : α) (x : β)
    (hmade : after i = some made) (hx : x ∈ list made) :
    (∃ old, before i = some old ∧ x ∈ list old) ∨ P i x := by
  obtain ⟨old, hold, rfl | ⟨hi, rfl⟩⟩ := h hmade
  · exact .inl ⟨_, hold, hx⟩
  · exact (hlist hi hx).imp_left fun hin => ⟨_, hold, hin⟩

end

section

variable (h : g.Coherent)
include h

theorem Coherent.attach (harr : Arranges g.freshNode arrange) (hbs : node.blocks = [])
    (types : List Ty) : (g.attach b arrange node types).Coherent := by
  refine h.of_grows ((Grows.refl g).attach harr hbs (h.freshNode_not_mem b) types) ?_ ?_ ?_ ?_
  · intro m made v hmade hv
    rw [node?_attach] at hmade
    split at hmade
    next heq =>
      subst heq
      cases hmade
      obtain ⟨slot, hslot, rfl⟩ := mem_map.mp hv
      obtain ⟨ty, hty⟩ := (exists_getElem?_iff types slot).mpr (mem_range.mp hslot)
      exact .inr ⟨_, slot, value?_attach_fresh g b arrange node types hty, rfl⟩
    next => exact .inl ⟨made, hmade, hv⟩
  · exact listed_map exists_of_mapBlock fun _ => .inl
  · intro c made m hmade hm
    obtain ⟨old, hold, rfl | ⟨rfl, rfl⟩⟩ := exists_of_mapBlock hmade
    · exact .inl ⟨_, hold, hm⟩
    · rcases harr.mem hm with rfl | hin
      · exact .inr ⟨_, by rw [node?_attach, if_pos rfl], rfl⟩
      · exact .inl ⟨old, hold, hin⟩
  · intro m made c hmade hc
    rw [node?_attach] at hmade
    split at hmade
    next =>
      cases hmade
      simp [hbs] at hc
    next => exact .inl ⟨made, hmade, hc⟩

theorem Coherent.withOutput (n : NodeId) (ty : Ty) : (g.withOutput n ty).Coherent := by
  refine h.of_grows ((Grows.refl g).withOutput n ty) (listed_map exists_of_mapNode ?_) listed_same
    listed_same (listed_map exists_of_mapNode fun _ => .inl)
  rintro m old v rfl hv
  refine (mem_append.mp hv).imp_right fun hfresh => ?_
  obtain rfl := mem_singleton.mp hfresh
  exact ⟨_, _, (value?_pushValue g _ _).trans (if_pos rfl), rfl⟩

theorem Coherent.withParam (b : BlockId) (ty : Ty) : (g.withParam b ty).Coherent := by
  refine h.of_grows ((Grows.refl g).withParam b ty) listed_same (listed_map exists_of_mapBlock ?_)
    (listed_map exists_of_mapBlock fun _ => .inl) listed_same
  rintro c old v rfl hv
  refine (mem_append.mp hv).imp_right fun hfresh => ?_
  obtain rfl := mem_singleton.mp hfresh
  exact ⟨_, _, (value?_pushValue g _ _).trans (if_pos rfl), rfl⟩

theorem Coherent.withBlock (n : NodeId) : (g.withBlock n).Coherent := by
  have hbs : ∀ c made, (g.withBlock n).block? c = some made →
      g.block? c = some made ∨ made.params = [] ∧ made.nodes = [] := by
    intro c made hmade
    rw [Graph.withBlock, block?_mapNode, block?_pushBlock] at hmade
    split at hmade
    next => exact .inr (Option.some.inj hmade ▸ ⟨rfl, rfl⟩)
    next => exact .inl hmade
  refine h.of_grows ((Grows.refl g).withBlock n) (listed_map exists_of_mapNode fun _ => .inl)
    ?_ ?_ ?_
  · intro c made v hmade hv
    rcases hbs c made hmade with hb | ⟨hps, -⟩
    · exact .inl ⟨made, hb, hv⟩
    · simp [hps] at hv
  · intro c made m hmade hm
    rcases hbs c made hmade with hb | ⟨-, hnone⟩
    · exact .inl ⟨made, hb, hm⟩
    · simp [hnone] at hm
  · refine listed_map exists_of_mapNode ?_
    rintro m old c rfl hc
    refine (mem_append.mp hc).imp_right fun hfresh => ?_
    obtain rfl := mem_singleton.mp hfresh
    exact ⟨_, (block?_pushBlock g _ _).trans (if_pos rfl), rfl⟩

theorem Coherent.withResult (b : BlockId) (v : ValueId) : (g.withResult b v).Coherent :=
  h.of_grows ((Grows.refl g).withResult b v) listed_same
    (listed_map exists_of_mapBlock fun _ => .inl) (listed_map exists_of_mapBlock fun _ => .inl)
    listed_same

theorem Coherent.withInput (n : NodeId) (v : ValueId) : (g.withInput n v).Coherent :=
  h.of_grows ((Grows.refl g).withInput n v) (listed_map exists_of_mapNode fun _ => .inl) listed_same
    listed_same (listed_map exists_of_mapNode fun _ => .inl)

theorem Coherent.mapValue (v : ValueId) {f : Value → Value}
    (horig : ∀ value, (f value).origin = value.origin) : (g.mapValue v f).Coherent :=
  h.of_grows ((Grows.refl g).mapValue v horig) listed_same listed_same listed_same listed_same

theorem Coherent.retype (v : ValueId) (ty : Ty) : (g.retype v ty).Coherent :=
  h.mapValue v fun _ => rfl

theorem Coherent.named (v : ValueId) (label : Option String) : (g.named v label).Coherent :=
  h.mapValue v fun _ => rfl

end

theorem coherent_empty : empty.Coherent := by
  refine ⟨?_, ?_, ?_, ?_⟩
  · intro n node v hnode
    simp [empty, node?] at hnode
  · intro b block v hb hv
    obtain rfl := mem_singleton.mp (mem_of_getElem? hb)
    cases hv
  · intro b block n hb hn
    obtain rfl := mem_singleton.mp (mem_of_getElem? hb)
    cases hn
  · intro n node b hnode
    simp [empty, node?] at hnode

end

end Flowgraph.Graph
