import Flowgraph.Builder
import Mathlib.Tactic.Spread

/-!
# How graphs grow

Building a graph only ever adds: values, nodes and blocks are appended to their arenas, a node is
placed between the nodes of a block, and the lists of a node or block get longer.  `Graph.Grows`
says so, and it is a preorder.

It also says that new things refer to new things only: a node that was not there before has
outputs and blocks that were not there before.  So what is nested in a new block can be told from
its number alone.
-/

namespace Flowgraph.Graph

open List Option

variable {α ι : Type} {g g' : Graph} {n : NodeId} {block block' : Block} {bound : Nat}
  {f : Block → Block} {index : ι → Nat}

/-! ## Changing an entry of an arena -/

def mapValue (g : Graph) (v : ValueId) (f : Value → Value) : Graph :=
  { g with values := g.values.modify v.index f }

def mapNode (g : Graph) (n : NodeId) (f : Node → Node) : Graph :=
  { g with nodes := g.nodes.modify n.index f }

def mapBlock (g : Graph) (b : BlockId) (f : Block → Block) : Graph :=
  { g with blocks := g.blocks.modify b.index f }

theorem set_eq_modify (entries : List α) {i : Nat} {entry : α}
    (h : entries[i]? = some entry) (f : α → α) : entries.set i (f entry) = entries.modify i f := by
  apply ext_getElem?
  intro j
  rw [getElem?_set, getElem?_modify]
  by_cases hij : i = j
  · subst hij
    obtain ⟨hi, rfl⟩ := List.getElem?_eq_some_iff.mp h
    simp [hi]
  · simp [hij]

theorem modifyValue_eq_some {v : ValueId} {f : Value → Value}
    (h : g.modifyValue v f = some g') : g' = g.mapValue v f := by
  obtain ⟨value, hv, heq⟩ := bind_eq_some_iff.mp h
  rw [← Option.some.inj heq, setValue, mapValue, set_eq_modify _ hv]

theorem modifyNode_eq_some {f : Node → Node}
    (h : g.modifyNode n f = some g') : g' = g.mapNode n f := by
  obtain ⟨node, hn, heq⟩ := bind_eq_some_iff.mp h
  rw [← Option.some.inj heq, setNode, mapNode, set_eq_modify _ hn]

theorem modifyBlock_eq_some {b : BlockId} (h : g.modifyBlock b f = some g') :
    g' = g.mapBlock b f := by
  obtain ⟨block, hb, heq⟩ := bind_eq_some_iff.mp h
  rw [← Option.some.inj heq, setBlock, mapBlock, set_eq_modify _ hb]

section Lookup

variable (g : Graph) (v w : ValueId) (n m : NodeId) (b c : BlockId)

@[simp] theorem value?_mapValue (f : Value → Value) :
    (g.mapValue v f).value? w = if v = w then (g.value? w).map f else g.value? w := by
  simp only [value?, mapValue, getElem?_modify]
  cases v; cases w
  simp only [ValueId.mk.injEq]
  split <;> simp

@[simp] theorem node?_mapValue (f : Value → Value) : (g.mapValue v f).node? n = g.node? n :=
  rfl

@[simp] theorem block?_mapValue (f : Value → Value) : (g.mapValue v f).block? b = g.block? b := rfl

@[simp] theorem node?_mapNode (f : Node → Node) :
    (g.mapNode n f).node? m = if n = m then (g.node? m).map f else g.node? m := by
  simp only [node?, mapNode, getElem?_modify]
  cases n; cases m
  simp only [NodeId.mk.injEq]
  split <;> simp

@[simp] theorem value?_mapNode (f : Node → Node) : (g.mapNode n f).value? v = g.value? v :=
  rfl

@[simp] theorem block?_mapNode (f : Node → Node) : (g.mapNode n f).block? b = g.block? b :=
  rfl

@[simp] theorem block?_mapBlock (f : Block → Block) :
    (g.mapBlock b f).block? c = if b = c then (g.block? c).map f else g.block? c := by
  simp only [block?, mapBlock, getElem?_modify]
  cases b; cases c
  simp only [BlockId.mk.injEq]
  split <;> simp

theorem exists_of_mapNode {g : Graph} {n m : NodeId} {f : Node → Node} {made : Node}
    (h : (g.mapNode n f).node? m = some made) :
    ∃ old, g.node? m = some old ∧ (made = old ∨ n = m ∧ made = f old) := by
  rw [node?_mapNode] at h
  split at h
  next heq =>
    obtain ⟨old, hold, rfl⟩ := map_eq_some_iff.mp h
    exact ⟨old, hold, Or.inr ⟨heq, rfl⟩⟩
  next => exact ⟨made, h, Or.inl rfl⟩

theorem exists_of_mapBlock {g : Graph} {b c : BlockId} {made : Block}
    (h : (g.mapBlock b f).block? c = some made) :
    ∃ old, g.block? c = some old ∧ (made = old ∨ b = c ∧ made = f old) := by
  rw [block?_mapBlock] at h
  split at h
  next heq =>
    obtain ⟨old, hold, rfl⟩ := map_eq_some_iff.mp h
    exact ⟨old, hold, Or.inr ⟨heq, rfl⟩⟩
  next => exact ⟨made, h, Or.inl rfl⟩

@[simp] theorem value?_mapBlock (f : Block → Block) : (g.mapBlock b f).value? v = g.value? v := rfl

@[simp] theorem node?_mapBlock (f : Block → Block) : (g.mapBlock b f).node? n = g.node? n := rfl

@[simp] theorem values_mapNode (f : Node → Node) : (g.mapNode n f).values = g.values := rfl

@[simp] theorem values_mapBlock (f : Block → Block) : (g.mapBlock b f).values = g.values :=
  rfl

@[simp] theorem nodes_mapValue (f : Value → Value) : (g.mapValue v f).nodes = g.nodes := rfl

@[simp] theorem nodes_mapBlock (f : Block → Block) : (g.mapBlock b f).nodes = g.nodes := rfl

@[simp] theorem blocks_mapValue (f : Value → Value) : (g.mapValue v f).blocks = g.blocks :=
  rfl

@[simp] theorem blocks_mapNode (f : Node → Node) : (g.mapNode n f).blocks = g.blocks := rfl

@[simp] theorem length_values_mapValue (f : Value → Value) :
    (g.mapValue v f).values.length = g.values.length := by
  simp [mapValue]

@[simp] theorem length_nodes_mapNode (f : Node → Node) :
    (g.mapNode n f).nodes.length = g.nodes.length := by
  simp [mapNode]

@[simp] theorem length_blocks_mapBlock (f : Block → Block) :
    (g.mapBlock b f).blocks.length = g.blocks.length := by
  simp [mapBlock]

end Lookup

theorem getElem?_append_singleton (entries : List α) (entry : α) (i : Nat) :
    (entries ++ [entry])[i]? = if i = entries.length then some entry else entries[i]? := by
  rw [getElem?_append]
  rcases Nat.lt_trichotomy i entries.length with hlt | rfl | hgt
  · simp [hlt, Nat.ne_of_lt hlt]
  · simp
  · rw [if_neg (Nat.not_lt.mpr (Nat.le_of_lt hgt)), if_neg (Nat.ne_of_gt hgt)]
    rw [getElem?_eq_none (by simp; omega), getElem?_eq_none (Nat.le_of_lt hgt)]

theorem modify_append_singleton (entries : List α) (entry : α) (f : α → α) :
    (entries ++ [entry]).modify entries.length f = entries ++ [f entry] := by
  induction entries with
  | nil => rfl
  | cons first rest ih => simpa using ih

theorem exists_getElem?_iff (entries : List α) (i : Nat) :
    (∃ entry, entries[i]? = some entry) ↔ i < entries.length := by
  rw [← isSome_iff_exists]
  simp

theorem exists_value?_iff (g : Graph) (v : ValueId) :
    (∃ value, g.value? v = some value) ↔ v.index < g.values.length :=
  exists_getElem?_iff _ _

theorem exists_node?_iff (g : Graph) (n : NodeId) :
    (∃ node, g.node? n = some node) ↔ n.index < g.nodes.length :=
  exists_getElem?_iff _ _

theorem exists_block?_iff (g : Graph) (b : BlockId) :
    (∃ block, g.block? b = some block) ↔ b.index < g.blocks.length :=
  exists_getElem?_iff _ _

theorem index_lt_of_value? {v : ValueId} {value : Value}
    (h : g.value? v = some value) : v.index < g.values.length :=
  (exists_value?_iff g v).mp ⟨value, h⟩

theorem index_lt_of_node? {node : Node} (h : g.node? n = some node) : n.index < g.nodes.length :=
  (exists_node?_iff g n).mp ⟨node, h⟩

theorem index_lt_of_block? {b : BlockId} (h : g.block? b = some block) :
    b.index < g.blocks.length :=
  (exists_block?_iff g b).mp ⟨block, h⟩

/-! ## The order of growth -/

/-- A list got longer by numbers from `bound` on. -/
def Extended {ι : Type} (index : ι → Nat) (bound : Nat) (before after : List ι) : Prop :=
  ∃ more, after = before ++ more ∧ ∀ i ∈ more, bound ≤ index i

theorem Extended.refl (index : ι → Nat) (bound : Nat) (ids : List ι) :
    Extended index bound ids ids :=
  ⟨[], by simp, by simp⟩

theorem Extended.trans {bound' : Nat} {first second third : List ι}
    (h : Extended index bound first second) (h' : Extended index bound' second third)
    (hbound : bound ≤ bound') : Extended index bound first third := by
  obtain ⟨more, rfl, hmore⟩ := h
  obtain ⟨more', rfl, hmore'⟩ := h'
  refine ⟨more ++ more', by simp, ?_⟩
  intro i hi
  rcases mem_append.mp hi with hi | hi
  · exact hmore i hi
  · exact Nat.le_trans hbound (hmore' i hi)

theorem Extended.mem {before after : List ι} (h : Extended index bound before after) {i : ι}
    (hi : i ∈ before) : i ∈ after := by
  obtain ⟨more, rfl, -⟩ := h
  exact mem_append_left _ hi

theorem Extended.mem_or {before after : List ι} (h : Extended index bound before after) {i : ι}
    (hi : i ∈ after) : i ∈ before ∨ bound ≤ index i := by
  obtain ⟨more, rfl, hmore⟩ := h
  exact (mem_append.mp hi).imp_right (hmore i)

/-- One node after the graph grew. -/
structure NodeGrows (g : Graph) (node node' : Node) : Prop where
  op : node'.op = node.op
  owner : node'.owner = node.owner
  outputs : Extended ValueId.index g.values.length node.outputs node'.outputs
  blocks : Extended BlockId.index g.blocks.length node.blocks node'.blocks

/-- One block after the graph grew: the nodes that were there stand in the same order. -/
structure BlockGrows (g : Graph) (block block' : Block) : Prop where
  owner : block'.owner = block.owner
  params : Extended ValueId.index g.values.length block.params block'.params
  nodes : block'.nodes.filter (fun n => n.index < g.nodes.length ∨ n ∈ block.nodes) = block.nodes

/-- The second graph has everything of the first, and what is new in it refers to new things. -/
structure Grows (g g' : Graph) : Prop where
  values_le : g.values.length ≤ g'.values.length
  nodes_le : g.nodes.length ≤ g'.nodes.length
  blocks_le : g.blocks.length ≤ g'.blocks.length
  value : ∀ v value, g.value? v = some value →
    ∃ value', g'.value? v = some value' ∧ value'.origin = value.origin
  node : ∀ n node, g.node? n = some node → ∃ node', g'.node? n = some node' ∧ NodeGrows g node node'
  block : ∀ b block, g.block? b = some block →
    ∃ block', g'.block? b = some block' ∧ BlockGrows g block block'
  newNode : ∀ n node', g.nodes.length ≤ n.index → g'.node? n = some node' →
    (∀ v ∈ node'.outputs, g.values.length ≤ v.index) ∧ ∀ b ∈ node'.blocks, g.blocks.length ≤ b.index
  newBlock : ∀ b block', g.blocks.length ≤ b.index → g'.block? b = some block' →
    (∀ v ∈ block'.params, g.values.length ≤ v.index) ∧ ∀ n ∈ block'.nodes, g.nodes.length ≤ n.index

theorem BlockGrows.mem (h : BlockGrows g block block') (hn : n ∈ block.nodes) :
    n ∈ block'.nodes := by
  rw [← h.nodes] at hn
  exact (mem_filter.mp hn).1

theorem BlockGrows.mem_or (h : BlockGrows g block block') (hn : n ∈ block'.nodes) :
    n ∈ block.nodes ∨ g.nodes.length ≤ n.index := by
  by_cases hold : n.index < g.nodes.length
  · refine Or.inl ?_
    rw [← h.nodes]
    exact mem_filter.mpr ⟨hn, by simp [hold]⟩
  · exact Or.inr (Nat.le_of_not_lt hold)

theorem BlockGrows.refl (g : Graph) (block : Block) : BlockGrows g block block where
  owner := rfl
  params := .refl _ _ _
  nodes := filter_eq_self.mpr (by simp +contextual)

theorem NodeGrows.refl (g : Graph) (node : Node) : NodeGrows g node node :=
  ⟨rfl, rfl, .refl _ _ _, .refl _ _ _⟩

theorem Grows.refl (g : Graph) : Grows g g where
  values_le := Nat.le_refl _
  nodes_le := Nat.le_refl _
  blocks_le := Nat.le_refl _
  value _ value h := ⟨value, h, rfl⟩
  node _ node h := ⟨node, h, .refl _ _⟩
  block _ block h := ⟨block, h, .refl _ _⟩
  newNode _ _ hn h := absurd (index_lt_of_node? h) (Nat.not_lt.mpr hn)
  newBlock _ _ hb h := absurd (index_lt_of_block? h) (Nat.not_lt.mpr hb)

theorem NodeGrows.trans {first second third : Node}
    (hgrows : Grows g g') (h : NodeGrows g first second)
    (h' : NodeGrows g' second third) : NodeGrows g first third where
  op := h'.op.trans h.op
  owner := h'.owner.trans h.owner
  outputs := h.outputs.trans h'.outputs hgrows.values_le
  blocks := h.blocks.trans h'.blocks hgrows.blocks_le

theorem BlockGrows.trans {first second third : Block}
    (hgrows : Grows g g') (h : BlockGrows g first second)
    (h' : BlockGrows g' second third) : BlockGrows g first third where
  owner := h'.owner.trans h.owner
  params := h.params.trans h'.params hgrows.values_le
  nodes := by
    have hkept : third.nodes.filter (fun n => n.index < g.nodes.length ∨ n ∈ first.nodes) =
        (third.nodes.filter (fun n => n.index < g'.nodes.length ∨ n ∈ second.nodes)).filter
          (fun n => n.index < g.nodes.length ∨ n ∈ first.nodes) := by
      rw [List.filter_filter]
      apply filter_congr
      intro n _
      rw [Bool.eq_iff_iff]
      simp only [decide_eq_true_eq, Bool.and_eq_true]
      refine ⟨fun hn => ⟨hn, ?_⟩, And.left⟩
      exact hn.imp (Nat.lt_of_lt_of_le · hgrows.nodes_le) h.mem
    rw [hkept, h'.nodes, h.nodes]

theorem Grows.trans {first second third : Graph} (h : Grows first second)
    (h' : Grows second third) : Grows first third where
  values_le := Nat.le_trans h.values_le h'.values_le
  nodes_le := Nat.le_trans h.nodes_le h'.nodes_le
  blocks_le := Nat.le_trans h.blocks_le h'.blocks_le
  value v value hvalue := by
    obtain ⟨value', hv', horig⟩ := h.value v value hvalue
    obtain ⟨value'', hvalue'', horigin'⟩ := h'.value v value' hv'
    exact ⟨value'', hvalue'', horigin'.trans horig⟩
  node n node hnode := by
    obtain ⟨node', hn', hgrows⟩ := h.node n node hnode
    obtain ⟨node'', hnode'', hgrows'⟩ := h'.node n node' hn'
    exact ⟨node'', hnode'', hgrows.trans h hgrows'⟩
  block b block hblock := by
    obtain ⟨block', hb', hgrows⟩ := h.block b block hblock
    obtain ⟨block'', hblock'', hgrows'⟩ := h'.block b block' hb'
    exact ⟨block'', hblock'', hgrows.trans h hgrows'⟩
  newNode n node'' hn hnode'' := by
    by_cases hin : n.index < second.nodes.length
    · obtain ⟨node', hn'⟩ := (exists_node?_iff second n).mpr hin
      obtain ⟨houts, hbs⟩ := h.newNode n node' hn hn'
      obtain ⟨node, hnode, hgrows⟩ := h'.node n node' hn'
      cases hnode.symm.trans hnode''
      refine ⟨fun v hv => ?_, fun b hb => ?_⟩
      · exact (hgrows.outputs.mem_or hv).elim (houts v) (Nat.le_trans h.values_le)
      · exact (hgrows.blocks.mem_or hb).elim (hbs b) (Nat.le_trans h.blocks_le)
    · obtain ⟨houts, hbs⟩ := h'.newNode n node'' (Nat.le_of_not_lt hin) hnode''
      exact ⟨fun v hv => Nat.le_trans h.values_le (houts v hv),
        fun b hb => Nat.le_trans h.blocks_le (hbs b hb)⟩
  newBlock b block'' hb hblock'' := by
    by_cases hin : b.index < second.blocks.length
    · obtain ⟨block', hb'⟩ := (exists_block?_iff second b).mpr hin
      obtain ⟨hps, hns⟩ := h.newBlock b block' hb hb'
      obtain ⟨block, hblock, hgrows⟩ := h'.block b block' hb'
      cases hblock.symm.trans hblock''
      refine ⟨fun v hv => ?_, fun n hn => ?_⟩
      · exact (hgrows.params.mem_or hv).elim (hps v) (Nat.le_trans h.values_le)
      · exact (hgrows.mem_or hn).elim (hns n) (Nat.le_trans h.nodes_le)
    · obtain ⟨hps, hns⟩ := h'.newBlock b block'' (Nat.le_of_not_lt hin) hblock''
      exact ⟨fun v hv => Nat.le_trans h.values_le (hps v hv),
        fun n hn => Nat.le_trans h.nodes_le (hns n hn)⟩

/-! ## Steps that grow a graph -/

section Steps

variable {g grown : Graph}

section

variable (h : Grows g grown)
include h

theorem Grows.mapValue (v : ValueId) {f : Value → Value}
    (hf : ∀ value, (f value).origin = value.origin) : Grows g (grown.mapValue v f) where
  __ := h
  values_le := by simpa using h.values_le
  value w value hv := by
    obtain ⟨value', hv', horig⟩ := h.value w value hv
    by_cases hw : v = w
    · exact ⟨f value', by simp [hw, hv'], (hf value').trans horig⟩
    · exact ⟨value', by simp [hw, hv'], horig⟩

theorem Grows.pushValues (values : List Value) :
    Grows g { grown with values := grown.values ++ values } where
  __ := h
  values_le := by simpa using Nat.le_trans h.values_le (Nat.le_add_right _ _)
  value v value hv := by
    obtain ⟨value', hv', horig⟩ := h.value v value hv
    exact ⟨value', (getElem?_append_left (index_lt_of_value? hv')).trans hv', horig⟩

theorem Grows.mapNode (n : NodeId) {f : Node → Node}
    (hf : ∀ node, grown.node? n = some node → NodeGrows g node (f node)) :
    Grows g (grown.mapNode n f) where
  __ := h
  nodes_le := by simpa using h.nodes_le
  node m node hn := by
    obtain ⟨node', hn', hgrows⟩ := h.node m node hn
    by_cases hm : n = m
    · subst hm
      exact ⟨f node', by simp [hn'], hgrows.trans (.refl g) (hf node' hn')⟩
    · exact ⟨node', by simp [hm, hn'], hgrows⟩
  newNode m node' hm hn' := by
    rw [node?_mapNode] at hn'
    split at hn'
    next heq =>
      subst heq
      obtain ⟨node, hn, rfl⟩ := map_eq_some_iff.mp hn'
      obtain ⟨houts, hbs⟩ := h.newNode n node hm hn
      have hgrows := hf node hn
      exact ⟨fun v hv => (hgrows.outputs.mem_or hv).elim (houts v) id,
        fun b hb => (hgrows.blocks.mem_or hb).elim (hbs b) id⟩
    next => exact h.newNode m node' hm hn'

theorem Grows.mapBlock (b : BlockId)
    (hf : ∀ block, grown.block? b = some block → BlockGrows g block (f block)) :
    Grows g (grown.mapBlock b f) where
  __ := h
  blocks_le := by simpa using h.blocks_le
  block c block hb := by
    obtain ⟨block', hb', hgrows⟩ := h.block c block hb
    by_cases hc : b = c
    · subst hc
      exact ⟨f block', by simp [hb'], hgrows.trans (.refl g) (hf block' hb')⟩
    · exact ⟨block', by simp [hc, hb'], hgrows⟩
  newBlock c block' hc hb' := by
    rw [block?_mapBlock] at hb'
    split at hb'
    next heq =>
      subst heq
      obtain ⟨block, hb, rfl⟩ := map_eq_some_iff.mp hb'
      obtain ⟨hps, hns⟩ := h.newBlock b block hc hb
      have hgrows := hf block hb
      exact ⟨fun v hv => (hgrows.params.mem_or hv).elim (hps v) id,
        fun n hn => (hgrows.mem_or hn).elim (hns n) id⟩
    next => exact h.newBlock c block' hc hb'

theorem Grows.pushNode (node : Node) (houts : ∀ v ∈ node.outputs, g.values.length ≤ v.index)
    (hbs : ∀ b ∈ node.blocks, g.blocks.length ≤ b.index) :
    Grows g { grown with nodes := grown.nodes ++ [node] } where
  __ := h
  nodes_le := by simpa using Nat.le_succ_of_le h.nodes_le
  node n old hold := by
    obtain ⟨node', hn', hgrows⟩ := h.node n old hold
    exact ⟨node', (getElem?_append_left (index_lt_of_node? hn')).trans hn', hgrows⟩
  newNode n node' hn hn' := by
    by_cases hin : n.index < grown.nodes.length
    · exact h.newNode n node' hn ((getElem?_append_left hin).symm.trans hn')
    · rw [node?, getElem?_append_right (Nat.le_of_not_lt hin)] at hn'
      obtain rfl := mem_singleton.mp (mem_of_getElem? hn')
      exact ⟨houts, hbs⟩

theorem Grows.pushBlock {block : Block} (hps : block.params = [])
    (hns : block.nodes = []) : Grows g { grown with blocks := grown.blocks ++ [block] } where
  __ := h
  blocks_le := by simpa using Nat.le_succ_of_le h.blocks_le
  block b old hold := by
    obtain ⟨block', hb', hgrows⟩ := h.block b old hold
    exact ⟨block', (getElem?_append_left (index_lt_of_block? hb')).trans hb', hgrows⟩
  newBlock b block' hb hb' := by
    by_cases hin : b.index < grown.blocks.length
    · exact h.newBlock b block' hb ((getElem?_append_left hin).symm.trans hb')
    · rw [block?, getElem?_append_right (Nat.le_of_not_lt hin)] at hb'
      obtain rfl := mem_singleton.mp (mem_of_getElem? hb')
      simp [hps, hns]

end

end Steps

end Flowgraph.Graph
