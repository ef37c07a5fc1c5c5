import Flowgraph.Proofs.Lifting.Ledger

/-!
# A finished copy mirrors its source

The parts of a copy run one after the other, and each leaves what the parts before it finished.  So
what a part has written is still there in the end, except where a block or node is open around it:
`Graph.Settles`.  `Extracts.mirrorsBody` puts the parts together.
-/

namespace Flowgraph

open Flowgraph.Graph Ledger List Option

variable {source : Graph} {n made : NodeId}

namespace Graph

/-- In the final graph nothing is added to what is not open. -/
def Settles (g final : Graph) (openBlocks : BlockId → Prop) (openNodes : NodeId → Prop) : Prop :=
  ∃ added, Adds g final added ∧ (∀ b : BlockId, b.index < g.blocks.length → ¬ openBlocks b →
      added.params b = [] ∧ added.nodes b = [] ∧ added.results b = []) ∧
    ∀ n : NodeId, n.index < g.nodes.length → ¬ openNodes n → added.blocks n = []

section

variable {g g' final : Graph} {openBlocks openBlocks' : BlockId → Prop}
  {openNodes openNodes' : NodeId → Prop} {added : Additions}

section

variable (h : Settles g final openBlocks openNodes)
include h

theorem Settles.mono
    (hbs : ∀ b, openBlocks b → openBlocks' b) (hns : ∀ n, openNodes n → openNodes' n) :
    Settles g final openBlocks' openNodes' := by
  obtain ⟨added, hadds, hno, hno'⟩ := h
  exact ⟨added, hadds, fun b hb hclosed => hno b hb (hclosed ∘ hbs b),
    fun n hn hclosed => hno' n hn (hclosed ∘ hns n)⟩

omit h in
theorem Adds.settles (h : Adds g g' added) (hfinal : Settles g' final openBlocks openNodes)
    (hbs : ∀ b : BlockId, b.index < g.blocks.length → ¬ openBlocks b →
      added.params b = [] ∧ added.nodes b = [] ∧ added.results b = [])
    (hns : ∀ n : NodeId, n.index < g.nodes.length → ¬ openNodes n → added.blocks n = []) :
    Settles g final openBlocks openNodes := by
  obtain ⟨more, hadds, hno, hno'⟩ := hfinal
  refine ⟨added.append more, h.trans hadds, fun b hb hclosed => ?_, fun n hn hclosed => ?_⟩
  · obtain ⟨hps, hpl, hres⟩ := hbs b hb hclosed
    obtain ⟨hparams', hplaced', hres'⟩ := hno b (hb.trans_le h.blocks_le) hclosed
    simp [Additions.append, *]
  · simp [Additions.append, hns n hn hclosed, hno' n (hn.trans_le h.nodes_le) hclosed]

theorem Settles.node {node} (hn : g.node? n = some node) (hclosed : ¬ openNodes n) :
    ∃ owner, final.node? n = some { node with owner } := by
  obtain ⟨added, hadds, -, hno⟩ := h
  obtain ⟨owner, hfinal, -⟩ := hadds.node n node hn
  rw [hno n (index_lt_of_node? hn) hclosed, append_nil] at hfinal
  exact ⟨owner, hfinal⟩

theorem Settles.block {b} {block : Block}
    (hblock : g.block? b = some block) (hclosed : ¬ openBlocks b) (hb : b ≠ root) :
    ∃ made, final.block? b = some made ∧ made.params = block.params ∧ made.nodes = block.nodes ∧
      made.results = block.results := by
  obtain ⟨added, hadds, hno, -⟩ := h
  obtain ⟨made, hfinal, hps, hns, hres, -⟩ := hadds.block b block hblock
  obtain ⟨hparams', hnodes', hres'⟩ := hno b (index_lt_of_block? hblock) hclosed
  exact ⟨made, hfinal, by simp [hps hb, hparams'], by simp [hns, hnodes'], by simp [hres, hres']⟩

end

end

end Graph

namespace Ledger

@[simp] theorem values_addAll (l : Ledger) (vs : List ValueId) :
    (l.addAll vs).values = l.values ++ vs := by
  induction vs generalizing l with
  | nil => simp
  | cons v vs ih => simp [ih, add]

@[simp] theorem captured_addAll (l : Ledger) (vs : List ValueId) :
    (l.addAll vs).captured = l.captured := by
  induction vs generalizing l with
  | nil => rfl
  | cons v vs ih => exact ih (l.add v)

end Ledger

namespace Copying

section

variable {source final : Graph} {params : List ValueId} {c c' : Copying} {l : Ledger}
  {openBlocks : BlockId → Prop} {openNodes : NodeId → Prop} {into : BlockId} {copy : NodeId}

/-- The blocks and nodes that are open while a part of the copy runs were made before it. -/
structure Bounded (c : Copying) (openBlocks : BlockId → Prop) (openNodes : NodeId → Prop) :
    Prop where
  block : ∀ b, openBlocks b → b.index < c.target.blocks.length
  node : ∀ n, openNodes n → n.index < c.target.nodes.length

theorem Bounded.mono (h : Bounded c openBlocks openNodes) {added : Additions}
    (hadds : Adds c.target c'.target added) : Bounded c' openBlocks openNodes where
  block b hb := lt_of_lt_of_le (h.block b hb) hadds.blocks_le
  node n hn := lt_of_lt_of_le (h.node n hn) hadds.nodes_le

/-- Copying the nodes of a block mirrors them in every final graph. -/
def MirrorsNodes (source : Graph) (params : List ValueId)
    (inner : BlockId → BlockId → List NodeId → Copying → Copying → Prop) : Prop :=
  ∀ {b into : BlockId} {ns : List NodeId} {c c' : Copying} {l : Ledger} {final : Graph}
    {openBlocks : BlockId → Prop} {openNodes : NodeId → Prop}, inner b into ns c c' →
    Tracks source params c l → Bounded c openBlocks openNodes → openBlocks into →
    Settles c'.target final openBlocks openNodes →
    ∃ block l', source.block? b = some block ∧ Tracks source params c' l' ∧
      Mirrors source final (.nodes block.nodes ns) l l'

variable {inner : BlockId → BlockId → List NodeId → Copying → Copying → Prop}
  (hadds : ∀ {b into ns c c'}, inner b into ns c c' →
    Adds c.target c'.target { nodes := only into ns }) (hinner : MirrorsNodes source params inner)

include hadds hinner

theorem CopiesNested.mirrors {nested made : BlockId}
    (h : CopiesNested source inner copy nested made c c') (htr : Tracks source params c l)
    (hbd : Bounded c openBlocks openNodes)
    (hsettles : Settles c'.target final openBlocks openNodes) :
    ∃ l', Tracks source params c' l' ∧ ∀ {bs copies l₃},
      Mirrors source final (.blocks bs copies) l' l₃ →
      Mirrors source final (.blocks (nested :: bs) (made :: copies)) l l₃ := by
  cases h with
  | @intro block ns ws _ c₁ c₂ _ hblock hparams hnodes hres =>
  -- The root is there, so that the new block is not the root.
  obtain ⟨inputs, hins, -⟩ := htr.inputs
  obtain ⟨rootBlock, hrootBlock, -⟩ := map_eq_some_iff.mp hins
  have hroot : c.target.freshBlock ≠ root := (ne_freshBlock hrootBlock).symm
  have hclosed : ¬ openBlocks c.target.freshBlock := fun hopen =>
    lt_irrefl _ (hbd.block _ hopen)
  have htracks₁ := hparams.tracks hroot (htr.withBlock copy nested)
  -- While its nodes are copied the new block is open as well.
  have hsettles₂ : Settles c₂.target final (fun b => openBlocks b ∨ b = c.target.freshBlock)
      openNodes := by
    refine hres.adds.settles (hsettles.mono (fun _ => .inl) (fun _ => id)) ?_ (by simp)
    exact fun b _ hb => ⟨rfl, rfl, only_of_ne fun heq => hb (.inr heq)⟩
  have hbounded₁ : Bounded c₁ (fun b => openBlocks b ∨ b = c.target.freshBlock) openNodes := by
    have hnew : Bounded (c.withTarget (c.target.withBlock copy))
        (fun b => openBlocks b ∨ b = c.target.freshBlock) openNodes := by
      refine ⟨?_, fun n hn => by simpa [withTarget, withBlock, pushBlock] using hbd.node n hn⟩
      rintro b (hold | rfl)
      · simpa [withTarget, withBlock, pushBlock] using Nat.lt_succ_of_lt (hbd.block b hold)
      · simp [withTarget, withBlock, pushBlock, freshBlock]
    exact hnew.mono hparams.adds
  obtain ⟨again, l₁, hagain, htracks₂, hmir⟩ :=
    hinner hnodes htracks₁ hbounded₁ (.inr rfl) hsettles₂
  obtain rfl := some.inj (hagain.symm.trans hblock)
  obtain ⟨l₂, hreads, htracks'⟩ := Results.reads hres htracks₂ hsettles.choose_spec.1
  -- The new block has its parameters, its nodes and its results, and then no more.
  have hempty : (c.withTarget (c.target.withBlock copy)).target.block? c.target.freshBlock =
      some { owner := some copy } := (block?_pushBlock ..).trans (if_pos rfl)
  obtain ⟨block₁, hb₁, hps, hns, hws, -⟩ := hparams.adds.block _ _ hempty
  obtain ⟨block₂, hblock₂, hps₂, hns₂, hws₂, -⟩ := (hadds hnodes).block _ _ hb₁
  obtain ⟨block₃, hblock₃, hps₃, hns₃, hws₃, -⟩ := hres.adds.block _ _ hblock₂
  obtain ⟨finished, hfinished, hps', hns', hws'⟩ := hsettles.block hblock₃ hclosed hroot
  have hnext : finished.params = l.next again.params.length := by
    rw [hps', hps₃ hroot, hps₂ hroot, hps hroot]
    simp only [only_self, nil_append, append_nil]
    exact (htr.withBlock copy nested).fits.freshValues again.params.length
  have hpl : finished.nodes = ns := by
    rw [hns', hns₃, hns₂, hns]
    simp
  have hret : finished.results = ws := by
    rw [hws', hws₃, hws₂, hws]
    simp
  refine ⟨l₂, htracks', fun hr => ?_⟩
  rw [htr.fits.freshBlock] at hfinished ⊢
  refine .block hblock ?_ hfinished hnext (fun w hw => ?_) (hpl ▸ hmir) (hret ▸ hreads) hr
  · exact ne_nil_of_length_pos (htr.fits.blocks ▸ Nat.zero_lt_of_lt (index_lt_of_block? hrootBlock))
  · have hfresh : w ∈ (c.withTarget (c.target.withBlock copy)).target.freshValues
        again.params.length := by
      rw [(htr.withBlock copy nested).fits.freshValues]
      exact hnext ▸ hw
    obtain ⟨added, hfinal, -⟩ := hsettles₂
    rw [← htr.fits.freshBlock]
    exact hfinal.paramOf ((hadds hnodes).paramOf (hparams.paramOf hfresh))

theorem mirrors_nested {bs made : List BlockId}
    (h : Chain (CopiesNested source inner copy) bs made c c') (htr : Tracks source params c l)
    (hbd : Bounded c openBlocks openNodes) (hopen : openNodes copy)
    (hsettles : Settles c'.target final openBlocks openNodes) :
    ∃ l', Tracks source params c' l' ∧ Mirrors source final (.blocks bs made) l l' := by
  induction h generalizing l with
  | nil c => exact ⟨l, htr, .noBlock l⟩
  | cons hfirst hr ih =>
    have hmid : Settles _ final openBlocks openNodes :=
      (adds_nested hadds hr).settles hsettles (fun _ _ _ => ⟨rfl, rfl, rfl⟩)
        (fun n _ hn => only_of_ne fun heq => hn (heq ▸ hopen))
    obtain ⟨l₁, htracks₁, hmir⟩ := hfirst.mirrors hadds hinner htr hbd hmid
    obtain ⟨l', htracks', hmore⟩ := ih htracks₁ (hbd.mono (hfirst.adds hadds)) hsettles
    exact ⟨l', htracks', hmir hmore⟩

omit hadds hinner in
theorem Tracks.create {node : Node} {inputs} {types : List Ty}
    (htr : Tracks source params c l) (htys : node.outputs.mapM source.typeOf? = some types)
    (h : Introduces source node.outputs (c.target.freshValues types.length)
      (c.create node inputs types) c') :
    Tracks source params c' ((l.addNode n).addAll node.outputs) := by
  have hall := forall₂_of_mapM htys
  have hgrown : Fits source (c.create node inputs types) (l.addNode n) node.outputs := by
    refine htr.fits.grow (adds_withNode ..) (by simp [withNode, hall.length_eq]) ?_
      (by simp [withNode, htr.fits.nodes]) htr.fits.blocks
    intro slot v hv
    obtain ⟨hlt, hslot⟩ := List.getElem?_eq_some_iff.mp hv
    have hty := hall.get hlt (hall.length_eq ▸ hlt)
    obtain ⟨value, hvalue, hvalueTy⟩ := map_eq_some_iff.mp hty
    refine ⟨value, ⟨types.get ⟨slot, hall.length_eq ▸ hlt⟩, .output c.target.freshNode slot, none⟩,
      ?_, ?_, hvalueTy.symm⟩
    · simpa [hslot] using hvalue
    · rw [value?, withNode, getElem?_append_right (Nat.le_add_right ..)]
      simp [hall.length_eq ▸ hlt]
  refine ⟨h.fits hgrown ?_, htr.inputs.mono ((adds_withNode ..).trans h.adds) h.inputs ?_ ?_⟩
  · rw [← hall.length_eq]
    exact htr.fits.freshValues _
  · exact ⟨node.outputs, by simp [addNode]⟩
  · simp [addNode]

theorem CopiesNode.mirrors (h : CopiesNode source inner into n made c c')
    (htr : Tracks source params c l) (hbd : Bounded c openBlocks openNodes)
    (hinto : openBlocks into) (hsettles : Settles c'.target final openBlocks openNodes) :
    ∃ l', Tracks source params c' l' ∧ ∀ {ns ms l₃}, Mirrors source final (.nodes ns ms) l' l₃ →
      Mirrors source final (.nodes (n :: ns) (made :: ms)) l l₃ := by
  cases h with
  | @intro node inputs types bs _ c₁ c₂ c₃ hn hins htys houts hbs =>
  have hsettles₃ : Settles c₃.target final openBlocks openNodes :=
    (adds_append ..).settles hsettles
      (fun b _ hb => ⟨rfl, only_of_ne fun heq => hb (heq ▸ hinto), rfl⟩) (fun _ _ _ => rfl)
  have hfinal₁ := ((adds_withNode ..).trans houts.adds).trans
    ((adds_nested hadds hbs).trans hsettles₃.choose_spec.1)
  obtain ⟨l₁, hreads, htracks₁⟩ := Translates.reads (fun _ h => h)
    (fun h => ⟨_, Inputs.adds h⟩) (fun c _ => ⟨_, .refl c.target⟩) hins htr hfinal₁
  have htracks₂ : Tracks source params c₂ ((l₁.addNode n).addAll node.outputs) :=
    htracks₁.create htys houts
  have hcreated := node?_withNode c₁.target c₁.target.freshNode
    { op := node.op, inputs, attrs := node.attrs, span := node.span,
      subgraph := node.subgraph } types
  rw [if_pos rfl] at hcreated
  obtain ⟨owner₂, hcopy₂, -⟩ := houts.adds.node _ _ hcreated
  -- The copy is open while its blocks are copied, and closed when it is placed.
  have hclosed : ¬ openNodes c₁.target.freshNode := fun hopen =>
    lt_irrefl _ ((hbd.mono (Inputs.adds hins)).node _ hopen)
  have hbounded₂ : Bounded c₂ openBlocks (fun m => openNodes m ∨ m = c₁.target.freshNode) := by
    refine ⟨((hbd.mono (Inputs.adds hins)).mono ((adds_withNode ..).trans houts.adds)).block, ?_⟩
    rintro m (hold | rfl)
    · exact lt_of_lt_of_le ((hbd.mono (Inputs.adds hins)).node m hold)
        ((adds_withNode ..).trans houts.adds).nodes_le
    · exact index_lt_of_node? hcopy₂
  obtain ⟨l₂, htracks₃, hmir⟩ := mirrors_nested hadds hinner hbs htracks₂ hbounded₂
    (.inr rfl) (hsettles₃.mono (fun _ => id) (fun _ => .inl))
  obtain ⟨owner₃, hcopy₃, -⟩ := (adds_nested hadds hbs).node _ _ hcopy₂
  obtain ⟨owner, hcopy⟩ := hsettles₃.node hcopy₃ hclosed
  have hlen : types.length = node.outputs.length := (forall₂_of_mapM htys).length_eq.symm
  have hnext : c₁.target.freshValues types.length = l₁.next node.outputs.length :=
    (htracks₁.fits.freshValues _).trans (by rw [hlen])
  have hm : final.node? ⟨l₁.nodes.length⟩ = some
      { node with inputs, outputs := l₁.next node.outputs.length, blocks := bs, owner } := by
    rw [← htracks₁.fits.freshNode, hcopy, hnext]
    simp
  refine ⟨l₂, htracks₃.withTarget (adds_append ..) rfl (by simp [Graph.append])
    (by simp [Graph.append]) (by simp), fun hr => ?_⟩
  rw [htracks₁.fits.freshNode]
  refine .node hn hreads hm (fun w hw => ?_) hmir hr
  obtain ⟨slot, hslot, rfl⟩ := mem_map.mp (hnext ▸ hw)
  have horig : (c₁.create node inputs types).target.OutputOf ⟨c₁.target.values.length + slot⟩
      c₁.target.freshNode := by
    refine ⟨⟨types.get ⟨slot, mem_range.mp hslot⟩, .output c₁.target.freshNode slot, none⟩,
      slot, ?_, rfl⟩
    rw [value?, create, withTarget, withNode, getElem?_append_right (Nat.le_add_right ..)]
    simp [mem_range.mp hslot]
  rw [← htracks₁.fits.freshNode]
  exact hsettles₃.choose_spec.1.outputOf
    ((adds_nested hadds hbs).outputOf (houts.adds.outputOf horig))

theorem mirrors_nodes {ns made : List NodeId}
    (h : Chain (CopiesNode source inner into) ns made c c')
    (htr : Tracks source params c l) (hbd : Bounded c openBlocks openNodes)
    (hinto : openBlocks into) (hsettles : Settles c'.target final openBlocks openNodes) :
    ∃ l', Tracks source params c' l' ∧ Mirrors source final (.nodes ns made) l l' := by
  induction h generalizing l with
  | nil c => exact ⟨l, htr, .noNode l⟩
  | cons hfirst hr ih =>
    have hmid : Settles _ final openBlocks openNodes :=
      (adds_nodes hadds hr).settles hsettles
        (fun b _ hb => ⟨rfl, only_of_ne fun heq => hb (heq ▸ hinto), rfl⟩) (fun _ _ _ => rfl)
    obtain ⟨l₁, htracks₁, hmir⟩ := hfirst.mirrors hadds hinner htr hbd hinto hmid
    obtain ⟨l', htracks', hmore⟩ := ih htracks₁ (hbd.mono (hfirst.adds hadds)) hsettles
    exact ⟨l', htracks', hmir hmore⟩

end

theorem CopiesBlock.mirrors {params : List ValueId} (depth : Nat) :
    MirrorsNodes source params (CopiesBlock source depth) := by
  induction depth with
  | zero => exact fun h => h.elim
  | succ depth ih =>
    rintro b into ns c c' l final openBlocks openNodes ⟨block, hb, hns⟩ htr hbd hinto hsettles
    obtain ⟨l', htracks', hmir⟩ := mirrors_nodes CopiesBlock.adds ih hns htr hbd hinto hsettles
    exact ⟨block, l', hb, htracks', hmir⟩

theorem tracks_start (source : Graph) (body : BlockId) :
    Tracks source [] { target := .empty } (.start body) where
  fits :=
    { renamed := fun _ => rfl
      captured := rfl
      length := rfl
      types := fun _ _ h => by simp [start] at h
      nodes := rfl
      blocks := rfl }
  inputs := ⟨[], rfl, .nil, by simp⟩

theorem Extracts.mirrorsBody {extracted} {body : BlockId} {captured}
    (h : Extracts source body extracted captured) :
    ∃ l, l.captured = captured ∧ MirrorsBody source extracted body l := by
  cases h with
  | @intro block ns ws depth c₁ c₂ c₃ hblock hps hnodes hres =>
  have htracks₁ : Tracks source block.params c₁ ((start body).addAll block.params) :=
    hps.tracks_root (tracks_start source body) rfl
  have hsettles₂ : Settles c₂.target c₃.target (· = root) (fun _ => False) :=
    ⟨_, hres.adds, fun b _ hb => ⟨rfl, rfl, only_of_ne hb⟩, fun _ _ _ => rfl⟩
  have hempty : (empty).block? root = some {} := rfl
  obtain ⟨block₁, hb₁, -, hns, hws, -⟩ := hps.adds.block _ _ hempty
  obtain ⟨block₂, hblock₂, -, hns₂, hws₂, -⟩ := (CopiesBlock.adds hnodes).block _ _ hb₁
  obtain ⟨block₃, hblock₃, -, hns₃, hws₃, -⟩ := hres.adds.block _ _ hblock₂
  have hbd : Bounded c₁ (· = root) (fun _ => False) :=
    ⟨by rintro b rfl; exact index_lt_of_block? hb₁, fun _ hfalse => hfalse.elim⟩
  obtain ⟨again, l₁, hagain, htracks₂, hmir⟩ :=
    CopiesBlock.mirrors depth hnodes htracks₁ hbd rfl hsettles₂
  obtain rfl := some.inj (hagain.symm.trans hblock)
  obtain ⟨l, hreads, htr⟩ := Results.reads hres htracks₂ (.refl c₃.target)
  obtain ⟨inputs, hins, hstd, horig⟩ := htr.inputs
  obtain ⟨made, hm, rfl⟩ := map_eq_some_iff.mp hins
  obtain rfl := some.inj (hm.symm.trans hblock₃)
  have hpl : made.nodes = ns := by
    rw [hns₃, hns₂, hns]
    simp
  have hret : made.results = ws := by
    rw [hws₃, hws₂, hws]
    simp
  refine ⟨l, htr.fits.captured.symm, ?_, ?_, htr.fits.nodes, htr.fits.blocks, ?_⟩
  · simpa using htr.fits.length
  · simpa [Stands] using htr.fits.types
  · refine ⟨again, made, l₁, hblock, hm, hstd, horig, fun w hw => ?_, hpl ▸ hmir, hret ▸ hreads⟩
    have hinput : c₁.target.IsInput w := hps.isInput hempty hw
    obtain ⟨again', hagain', hw'⟩ := hres.adds.input _ ((CopiesBlock.adds hnodes).input _ hinput)
    cases hagain'.symm.trans hm
    exact hw'

end Copying

end Flowgraph
