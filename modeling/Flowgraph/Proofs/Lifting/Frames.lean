import Flowgraph.Proofs.Lifting.Copying

/-!
# What a copy leaves as it was

Every part of a copy only adds to the target: it makes values, nodes and blocks, and appends to the
lists of what is there already.  `Graph.Adds` says what is appended to which list; that a part of a
copy appends nothing else is its frame.
-/

namespace Flowgraph

variable {b : BlockId} {v : ValueId} {g g' : Graph} {n : NodeId} {olds : List ValueId}
  {ns made : List NodeId}

namespace Graph

/-! ## Origins -/

/-- The value is an input of the graph. -/
def IsInput (g : Graph) (v : ValueId) : Prop :=
  ∃ block, g.block? root = some block ∧ v ∈ block.params

theorem IsInput.mapBlock (h : g.IsInput v) (b : BlockId) {f : Block → Block}
    (hf : ∀ block, v ∈ block.params → v ∈ (f block).params) : (g.mapBlock b f).IsInput v := by
  obtain ⟨block, hb, hv⟩ := h
  by_cases heq : b = root
  · exact ⟨f block, by simp [heq, hb], hf block hv⟩
  · exact ⟨block, by simp [heq, hb], hv⟩

/-! ## Additions -/

/-- What is appended to the lists of the blocks and nodes of a graph, and the nodes placed. -/
@[ext] structure Additions where
  params : BlockId → List ValueId := fun _ => []
  nodes : BlockId → List NodeId := fun _ => []
  results : BlockId → List ValueId := fun _ => []
  blocks : NodeId → List BlockId := fun _ => []
  /-- The nodes that were put into a block. -/
  placed : List NodeId := []

namespace Additions

def append (first second : Additions) : Additions where
  params b := first.params b ++ second.params b
  nodes b := first.nodes b ++ second.nodes b
  results b := first.results b ++ second.results b
  blocks n := first.blocks n ++ second.blocks n
  placed := first.placed ++ second.placed

end Additions

/-- Nothing but the additions happened to what was there, up to names. -/
structure Adds (g g' : Graph) (added : Additions) : Prop where
  value : ∀ v value, g.value? v = some value → ∃ name, g'.value? v = some { value with name }
  node : ∀ n node, g.node? n = some node →
    ∃ owner, g'.node? n = some { node with owner, blocks := node.blocks ++ added.blocks n } ∧
      (n ∉ added.placed → owner = node.owner)
  block : ∀ b block, g.block? b = some block → ∃ block', g'.block? b = some block' ∧
    (b ≠ root → block'.params = block.params ++ added.params b) ∧
    block'.nodes = block.nodes ++ added.nodes b ∧
    block'.results = block.results ++ added.results b ∧ block'.owner = block.owner
  input : ∀ v, g.IsInput v → g'.IsInput v

/-- `items` are appended at one place only. -/
def only {ι α : Type} [DecidableEq ι] (place : ι) (items : List α) (i : ι) : List α :=
  if i = place then items else []

section

variable {ι α : Type} [DecidableEq ι] {i place : ι} {items : List α}

@[simp] theorem only_self : only place items place = items := if_pos rfl

theorem only_of_ne (h : i ≠ place) : only place items i = [] := if_neg h

@[simp] theorem only_nil : only place ([] : List α) i = [] := by
  unfold only
  split <;> rfl

@[simp] theorem only_append (more : List α) :
    only place items i ++ only place more i = only place (items ++ more) i := by
  unfold only
  split <;> simp

end

theorem freshValues_cons (h : g'.values.length = g.values.length + 1) (count : Nat) :
    [g.freshValue] ++ g'.freshValues count = g.freshValues (count + 1) := by
  simp only [freshValues, freshValue, List.range_succ_eq_map, List.map_cons, List.map_map, h]
  simp [Nat.add_assoc, Nat.add_comm 1]

section

variable {first second third g g' : Graph} {added more : Additions}

theorem Adds.nodes_le (h : Adds g g' added) : g.nodes.length ≤ g'.nodes.length := by
  by_contra hlt
  obtain ⟨node, hn⟩ := (exists_node?_iff g ⟨g'.nodes.length⟩).mpr (by simpa using hlt)
  obtain ⟨owner, hn', -⟩ := h.node _ _ hn
  exact lt_irrefl _ (index_lt_of_node? hn')

theorem Adds.blocks_le (h : Adds g g' added) : g.blocks.length ≤ g'.blocks.length := by
  by_contra hlt
  obtain ⟨block, hb⟩ := (exists_block?_iff g ⟨g'.blocks.length⟩).mpr (by simpa using hlt)
  obtain ⟨block', hb', -⟩ := h.block _ _ hb
  exact lt_irrefl _ (index_lt_of_block? hb')

theorem Adds.refl (g : Graph) : Adds g g {} where
  value _ value hvalue := ⟨value.name, hvalue⟩
  node _ node hn := ⟨node.owner, by simpa using hn, fun _ => rfl⟩
  block _ block hb := ⟨block, hb, by simp, by simp, by simp, rfl⟩
  input _ hv := hv

theorem Adds.trans (h : Adds first second added) (h' : Adds second third more) :
    Adds first third (added.append more) where
  value v value hvalue := by
    obtain ⟨name, hsnd⟩ := h.value v value hvalue
    obtain ⟨name', hthird⟩ := h'.value v _ hsnd
    exact ⟨name', hthird⟩
  node n node hn := by
    obtain ⟨owner, hsnd, hkept⟩ := h.node n node hn
    obtain ⟨owner', hthird, hkept'⟩ := h'.node n _ hsnd
    refine ⟨owner', by rw [hthird, List.append_assoc]; rfl, fun hpl => ?_⟩
    rw [Additions.append, List.mem_append, not_or] at hpl
    exact (hkept' hpl.2).trans (hkept hpl.1)
  block b block hblock := by
    obtain ⟨block', hsnd, hps, hns, hres, hown⟩ := h.block b block hblock
    obtain ⟨block'', hthird, hparams', hnodes', hres', hown'⟩ := h'.block b _ hsnd
    refine ⟨block'', hthird, fun hb => ?_, ?_, ?_, hown'.trans hown⟩
    · rw [hparams' hb, hps hb, List.append_assoc]
      rfl
    · rw [hnodes', hns, List.append_assoc]
      rfl
    · rw [hres', hres, List.append_assoc]
      rfl
  input v hv := h'.input v (h.input v hv)

section

variable (h : Adds g g' added)
include h

theorem Adds.congr (hps : ∀ b : BlockId, b.index < g.blocks.length → added.params b = more.params b)
    (hns : ∀ b : BlockId, b.index < g.blocks.length → added.nodes b = more.nodes b)
    (hres : ∀ b : BlockId, b.index < g.blocks.length → added.results b = more.results b)
    (hbs : ∀ n : NodeId, n.index < g.nodes.length → added.blocks n = more.blocks n)
    (hpl : ∀ n : NodeId, n.index < g.nodes.length → n ∈ added.placed → n ∈ more.placed) :
    Adds g g' more where
  __ := h
  node n node hn := by
    obtain ⟨owner, hn', hkept⟩ := h.node n node hn
    rw [hbs n (index_lt_of_node? hn)] at hn'
    exact ⟨owner, hn', fun hno => hkept fun hin => hno (hpl n (index_lt_of_node? hn) hin)⟩
  block b block hblock := by
    have hb := index_lt_of_block? hblock
    rw [← hps b hb, ← hns b hb, ← hres b hb]
    exact h.block b block hblock

theorem Adds.of_eq (heq : added = more) : Adds g g' more := heq ▸ h

theorem Adds.outputOf (horig : g.OutputOf v n) : g'.OutputOf v n := by
  obtain ⟨value, slot, hv, hslot⟩ := horig
  obtain ⟨name, hv'⟩ := h.value v value hv
  exact ⟨_, slot, hv', hslot⟩

theorem Adds.paramOf (horig : g.ParamOf v b) : g'.ParamOf v b := by
  obtain ⟨value, slot, hv, hslot⟩ := horig
  obtain ⟨name, hv'⟩ := h.value v value hv
  exact ⟨_, slot, hv', hslot⟩

end

theorem adds_label (g : Graph) (v : ValueId) (name : Option String) :
    Adds g (g.label v name) {} where
  value w value hvalue := by
    by_cases heq : v = w
    · exact ⟨name, by simp [label, heq, hvalue]⟩
    · exact ⟨value.name, by simp [label, heq, hvalue]⟩
  node _ node hn := ⟨node.owner, by simpa [label] using hn, fun _ => rfl⟩
  block _ block hb := ⟨block, hb, by simp, by simp, by simp, rfl⟩
  input _ hv := hv

theorem adds_withParam (g : Graph) (b : BlockId) (ty : Ty) :
    Adds g (g.withParam b ty) { params := only b [g.freshValue] } where
  value w value hvalue := by
    have hne : w ≠ g.freshValue := fun heq =>
      lt_irrefl _ (heq ▸ index_lt_of_value? hvalue)
    exact ⟨value.name, by simp [withParam, value?_pushValue, hne, hvalue]⟩
  node _ node hn := ⟨node.owner, by simpa [withParam] using hn, fun _ => rfl⟩
  block c block hb := by
    by_cases heq : b = c
    · exact ⟨_, by simp only [withParam, block?_mapBlock, block?_pushValue, if_pos heq, hb]; rfl,
        by simp [heq], by simp, by simp, by simp⟩
    · exact ⟨block, by simp [withParam, heq, hb], by simp [only_of_ne (Ne.symm heq)], by simp,
        by simp, rfl⟩
  input v hv := by
    have hpushed : ∀ value, (g.pushValue value).IsInput v := fun _ => hv
    exact (hpushed _).mapBlock b fun _ => List.mem_append_left _

theorem adds_withResult (g : Graph) (b : BlockId) (v : ValueId) :
    Adds g (g.withResult b v) { results := only b [v] } where
  value _ value hvalue := ⟨value.name, hvalue⟩
  node _ node hn := ⟨node.owner, by simpa [withResult] using hn, fun _ => rfl⟩
  block c block hb := by
    by_cases heq : b = c
    · exact ⟨_, by simp only [withResult, block?_mapBlock, if_pos heq, hb]; rfl, by simp,
        by simp, by simp [heq], by simp⟩
    · exact ⟨block, by simp [withResult, heq, hb], by simp, by simp,
        by simp [only_of_ne (Ne.symm heq)], rfl⟩
  input _ hv := hv.mapBlock b fun _ => id

theorem adds_withBlock (g : Graph) (n : NodeId) :
    Adds g (g.withBlock n) { blocks := only n [g.freshBlock] } where
  value _ value hvalue := ⟨value.name, hvalue⟩
  node m node hn := by
    by_cases heq : n = m
    · exact ⟨node.owner, by simp [withBlock, heq, hn], fun _ => rfl⟩
    · exact ⟨node.owner, by simp [withBlock, heq, hn, only_of_ne (Ne.symm heq)], fun _ => rfl⟩
  block c block hb := by
    exact ⟨block, by simp [withBlock, block?_pushBlock, ne_freshBlock hb, hb], by simp, by simp,
      by simp, rfl⟩
  input v := by
    rintro ⟨block, hb, hv⟩
    exact ⟨block, by simp [withBlock, block?_pushBlock, ne_freshBlock hb, hb], hv⟩

theorem adds_append (g : Graph) (b : BlockId) (n : NodeId) :
    Adds g (g.append b n) { nodes := only b [n], placed := [n] } where
  value _ value hvalue := ⟨value.name, hvalue⟩
  node m node hn := by
    by_cases heq : n = m
    · exact ⟨some b, by simp [append, heq, hn], fun hno =>
        absurd (heq ▸ List.mem_singleton_self _) hno⟩
    · exact ⟨node.owner, by simp [append, heq, hn], fun _ => rfl⟩
  block c block hb := by
    by_cases heq : b = c
    · exact ⟨_, by simp only [append, block?_mapBlock, if_pos heq, block?_mapNode, hb]; rfl,
        by simp, by simp [heq], by simp, by simp⟩
    · exact ⟨block, by simp [append, heq, hb], by simp, by simp [only_of_ne (Ne.symm heq)],
        by simp, rfl⟩
  input v hv := by
    have hpl : (g.mapNode n fun node => { node with owner := some b }).IsInput v := hv
    exact hpl.mapBlock b fun _ => id

theorem adds_withNode (g : Graph) (node : Node) (types : List Ty) :
    Adds g (g.withNode node types) {} where
  value v value hvalue := by
    refine ⟨value.name, ?_⟩
    rw [value?, withNode, List.getElem?_append_left (index_lt_of_value? hvalue)]
    exact hvalue
  node m old hold := by
    exact ⟨old.owner, by simp [node?_withNode, ne_freshNode hold, hold], fun _ => rfl⟩
  block _ block hb := ⟨block, hb, by simp, by simp, by simp, rfl⟩
  input _ hv := hv

end

end Graph

namespace Copying

open Flowgraph.Graph

variable {source : Graph} {c c' : Copying} {into : BlockId} {copy : NodeId}

/-! ## The frames of the parts -/

theorem adds_withParam (c : Copying) (b : BlockId) (v : ValueId) (value : Value) :
    Adds c.target (c.withParam b v value).target { params := only b [c.target.freshValue] } :=
  ((Graph.adds_withParam c.target b value.ty).trans (adds_label _ _ _)).of_eq
    (by ext <;> simp [Additions.append])

theorem adds_withCapture (c : Copying) (v : ValueId) (value : Value) :
    Adds c.target (c.withCapture v value).target {} where
  value := (c.adds_withParam root v value).value
  node := (c.adds_withParam root v value).node
  block b block hblock := by
    obtain ⟨block', hb', hps, hrest⟩ := (c.adds_withParam root v value).block b block hblock
    refine ⟨block', hb', fun hb => ?_, hrest⟩
    simpa [only_of_ne hb] using hps hb
  input := (c.adds_withParam root v value).input

@[simp] theorem values_withParam (c : Copying) (b : BlockId) (v : ValueId) (value : Value) :
    (c.withParam b v value).target.values.length = c.target.values.length + 1 := by
  simp [withParam, labelled, bind, label, Graph.withParam, pushValue]

theorem Params.adds (h : Params source b olds c c') :
    Adds c.target c'.target { params := only b (c.target.freshValues olds.length) } := by
  induction h with
  | nil c => exact (Adds.refl _).of_eq (by ext <;> simp [freshValues])
  | @cons old value rest c c' _ _ ih =>
    refine ((c.adds_withParam b old value).trans ih).congr (fun x _ => ?_)
      (by simp [Additions.append])
      (by simp [Additions.append]) (by simp [Additions.append]) (by simp [Additions.append])
    show only b [c.target.freshValue] x ++ only b _ x = _
    rw [only_append, freshValues_cons (values_withParam ..)]
    rfl

theorem Introduces.adds {news} (h : Introduces source olds news c c') :
    Adds c.target c'.target {} := by
  induction h with
  | nil c => exact .refl _
  | cons _ _ ih => exact (adds_label _ _ _).trans ih

theorem Inputs.adds {vs ws} (h : Inputs source vs ws c c') : Adds c.target c'.target {} := by
  induction h with
  | nil c => exact .refl _
  | known _ _ ih => exact ih
  | new _ _ _ ih => exact (adds_withCapture ..).trans ih

theorem Results.adds {vs ws} (h : Results source b vs ws c c') :
    Adds c.target c'.target { results := only b ws } := by
  induction h with
  | nil c => exact (Adds.refl _).of_eq (by ext <;> simp)
  | known _ _ ih =>
    exact ((adds_withResult _ _ _).trans ih).of_eq (by ext <;> simp [Additions.append])
  | new _ _ _ ih =>
    exact ((adds_withCapture ..).trans ((adds_withResult _ _ _).trans ih)).of_eq
      (by ext <;> simp [Additions.append])

section

variable {inner : BlockId → BlockId → List NodeId → Copying → Copying → Prop}
  (hinner : ∀ {b into ns c c'}, inner b into ns c c' →
    Adds c.target c'.target { nodes := only into ns })

include hinner

/-- The new block is not there at the start, so that only its owner shows in the frame. -/
theorem CopiesNested.adds {nested made : BlockId}
    (h : CopiesNested source inner copy nested made c c') :
    Adds c.target c'.target { blocks := only copy [made] } := by
  cases h with
  | intro _ hps hns hres =>
    have hnew : ∀ b : BlockId, b.index < c.target.blocks.length → b ≠ c.target.freshBlock :=
      fun b hb heq => lt_irrefl _ (heq ▸ hb)
    refine ((adds_withBlock c.target copy).trans
      (hps.adds.trans ((hinner hns).trans hres.adds))).congr ?_ ?_ ?_ ?_ ?_
    iterate 3 exact fun b hb => by simp [Additions.append, only_of_ne (hnew b hb)]
    iterate 2 exact fun n _ => by simp [Additions.append]

theorem adds_nested {bs made : List BlockId}
    (h : Chain (CopiesNested source inner copy) bs made c c') :
    Adds c.target c'.target { blocks := only copy made } := by
  induction h with
  | nil c => exact (Adds.refl _).of_eq (by ext <;> simp)
  | cons hfirst _ ih =>
    exact ((hfirst.adds hinner).trans ih).of_eq (by ext <;> simp [Additions.append])

theorem CopiesNode.adds {made : NodeId} (h : CopiesNode source inner into n made c c') :
    Adds c.target c'.target { nodes := only into [made] } := by
  cases h with
  | @intro _ _ _ _ _ c₁ _ _ _ hins _ houts hbs =>
    have hnew : ∀ m : NodeId, m.index < c.target.nodes.length → m ≠ c₁.target.freshNode := by
      rintro _ hm rfl
      exact absurd (Inputs.adds hins).nodes_le hm.not_ge
    refine ((Inputs.adds hins).trans ((adds_withNode _ _ _).trans (houts.adds.trans
      ((adds_nested hinner hbs).trans (adds_append _ _ _))))).congr ?_ ?_ ?_ ?_ ?_
    iterate 3 exact fun b _ => by simp [Additions.append]
    iterate 2 exact fun m hm => by simp [Additions.append, only_of_ne, hnew m hm]

theorem adds_nodes (h : Chain (CopiesNode source inner into) ns made c c') :
    Adds c.target c'.target { nodes := only into made } := by
  induction h with
  | nil c => exact (Adds.refl _).of_eq (by ext <;> simp)
  | cons hfirst _ ih =>
    exact ((hfirst.adds hinner).trans ih).of_eq (by ext <;> simp [Additions.append])

end

theorem CopiesBlock.adds {depth} (h : CopiesBlock source depth b into ns c c') :
    Adds c.target c'.target { nodes := only into ns } := by
  induction depth generalizing b into ns c c' with
  | zero => exact h.elim
  | succ depth ih =>
    obtain ⟨block, -, hns⟩ := h
    exact adds_nodes (fun hinner => ih hinner) hns

end Copying

end Flowgraph
