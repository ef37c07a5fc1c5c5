import Flowgraph.Proofs.Graph.Events
import Flowgraph.Proofs.Lifting.Ledger

/-!
# The parts of a copy, with any environment

A copy asks its environment what stands for a value from outside, and the environment may change
the graph that receives the copy.  What it has to leave alone is the copy itself: everything that
was not there at the start, and the nodes of the block that receives the copy (`Graph.Spares`).

Each part of the copy of a node succeeds and meets the events of the part (`Copying.Meets`): a value
that is used has a name, or the environment is asked for one; a value that is defined gets a new
one.  As the events are in order (`Copying.Ready`), names are never taken back, so that one renaming
serves the whole block, and the environment is asked for the free values, once each and in the order
of their first use.
-/

namespace Flowgraph

open Flowgraph.Graph List

variable {block : Block} {node : Node} {value : Value} {target source : Graph}
  {openBlock' openBlock : Option BlockId} {openNode' openNode : Option NodeId}
  {vs olds news : List ValueId} {v w : ValueId}

namespace Graph

/-! ## What is left alone -/

/-- The arenas are at least as large as they were. -/
structure Outgrows (dst g : Graph) : Prop where
  values : dst.values.length ≤ g.values.length
  nodes : dst.nodes.length ≤ g.nodes.length
  blocks : dst.blocks.length ≤ g.blocks.length

/-- Whatever was not in `dst` is left as it is, and so are the nodes of `home`, except for the open
block and the open node. -/
structure Spares (dst : Graph) (home : BlockId) (openBlock : Option BlockId)
    (openNode : Option NodeId) (g g' : Graph) : Prop where
  outgrows : Outgrows g g'
  value : ∀ v, dst.values.length ≤ v.index → v.index < g.values.length → g'.value? v = g.value? v
  node : ∀ n, dst.nodes.length ≤ n.index → n.index < g.nodes.length → openNode ≠ some n →
    g'.node? n = g.node? n
  block : ∀ b, dst.blocks.length ≤ b.index → b.index < g.blocks.length → openBlock ≠ some b →
    g'.block? b = g.block? b
  home : openBlock ≠ some home → (g'.block? home).map Block.nodes = (g.block? home).map Block.nodes

section

variable {dst first second third g g' : Graph} {home b : BlockId} {n : NodeId} {v : ValueId}
  {openBlock : Option BlockId} {openNode : Option NodeId}

theorem Outgrows.refl (g : Graph) : Outgrows g g :=
  ⟨Nat.le_refl _, Nat.le_refl _, le_rfl⟩

theorem Outgrows.trans (h : Outgrows first second) (h' : Outgrows second third) :
    Outgrows first third :=
  ⟨h.values.trans h'.values, h.nodes.trans h'.nodes, h.blocks.trans h'.blocks⟩

theorem Spares.refl (dst : Graph) (home : BlockId) (openBlock : Option BlockId)
    (openNode : Option NodeId) (g : Graph) : Spares dst home openBlock openNode g g :=
  ⟨.refl g, fun _ _ _ => rfl, fun _ _ _ _ => rfl, fun _ _ _ _ => rfl, fun _ => rfl⟩

theorem Spares.trans (h : Spares dst home openBlock openNode first second)
    (h' : Spares dst home openBlock openNode second third) :
    Spares dst home openBlock openNode first third where
  outgrows := h.outgrows.trans h'.outgrows
  value v hv hlt := (h'.value v hv (hlt.trans_le h.outgrows.values)).trans (h.value v hv hlt)
  node n hn hlt hopen :=
    (h'.node n hn (hlt.trans_le h.outgrows.nodes) hopen).trans (h.node n hn hlt hopen)
  block b hb hlt hopen :=
    (h'.block b hb (hlt.trans_le h.outgrows.blocks) hopen).trans (h.block b hb hlt hopen)
  home hopen := (h'.home hopen).trans (h.home hopen)

theorem Spares.mono (h : Spares dst home openBlock openNode g g')
    (hblock : ∀ b, openBlock = some b → openBlock' = some b)
    (hnode : ∀ n, openNode = some n → openNode' = some n) :
    Spares dst home openBlock' openNode' g g' where
  __ := h
  node n hn hlt hopen := h.node n hn hlt fun heq => hopen (hnode n heq)
  block b hb hlt hopen := h.block b hb hlt fun heq => hopen (hblock b heq)
  home hopen := h.home fun heq => hopen (hblock home heq)

theorem Spares.closeBlock (h : Spares dst home (some b) openNode g g')
    (hb : g.blocks.length ≤ b.index) (hhome : home.index < g.blocks.length) :
    Spares dst home none openNode g g' where
  __ := h
  block c hc hlt _ := h.block c hc hlt (by rintro ⟨⟩; omega)
  home _ := h.home (by rintro ⟨⟩; omega)

/-- Of `home` only the nodes matter. -/
theorem Spares.closeHome (h : Spares dst home (some home) openNode g g')
    (hhome : home.index < dst.blocks.length)
    (hnodes : (g'.block? home).map Block.nodes = (g.block? home).map Block.nodes) :
    Spares dst home none openNode g g' where
  __ := h
  block c hc hlt _ := h.block c hc hlt (by rintro ⟨⟩; omega)
  home _ := hnodes

theorem Spares.closeNode (h : Spares dst home openBlock (some n) g g')
    (hn : g.nodes.length ≤ n.index) : Spares dst home openBlock none g g' where
  __ := h
  node m hm hlt _ := h.node m hm hlt (by rintro ⟨⟩; omega)

theorem Spares.label (h : Spares dst home openBlock openNode g g')
    (hv : g.values.length ≤ v.index) (name : Option String) :
    Spares dst home openBlock openNode g (g'.label v name) where
  __ := h
  outgrows := ⟨by simpa [Graph.label] using h.outgrows.values, h.outgrows.nodes, h.outgrows.blocks⟩
  value w hw hlt := by
    have hne : v ≠ w := by rintro rfl; omega
    rw [Graph.label, value?_mapValue, if_neg hne]
    exact h.value w hw hlt

theorem spares_mapNode (n : NodeId) (f : Node → Node) :
    Spares dst home openBlock (some n) g (g.mapNode n f) where
  outgrows := ⟨le_rfl, by simp, le_rfl⟩
  value _ _ _ := rfl
  node m _ _ hopen := (node?_mapNode ..).trans (if_neg fun heq => hopen (congrArg some heq))
  block _ _ _ _ := rfl
  home _ := rfl

theorem spares_mapBlock (b : BlockId) (f : Block → Block) :
    Spares dst home (some b) openNode g (g.mapBlock b f) where
  outgrows := ⟨le_rfl, le_rfl, by simp⟩
  value _ _ _ := rfl
  node _ _ _ _ := rfl
  block c _ _ hopen := (block?_mapBlock ..).trans (if_neg fun heq => hopen (congrArg some heq))
  home hopen := by rw [block?_mapBlock, if_neg fun heq => hopen (congrArg some heq)]

theorem spares_withNode (node : Node) (types : List Ty) :
    Spares dst home openBlock openNode g (g.withNode node types) where
  outgrows := ⟨by simp [withNode], by simp [withNode], le_rfl⟩
  value v _ hlt := getElem?_append_left hlt
  node n _ hlt _ := getElem?_append_left hlt
  block _ _ _ _ := rfl
  home _ := rfl

theorem spares_withBlock (n : NodeId) (hhome : home.index < g.blocks.length) :
    Spares dst home openBlock (some n) g (g.withBlock n) := by
  have hpush : ∀ made, Spares dst home openBlock (some n) g (g.pushBlock made) := fun made =>
    { outgrows := ⟨le_rfl, le_rfl, by simp [pushBlock]⟩
      value := fun _ _ _ => rfl
      node := fun _ _ _ _ => rfl
      block := fun b _ hlt _ => getElem?_append_left hlt
      home := fun _ => congrArg _ (getElem?_append_left hhome) }
  exact (hpush _).trans (spares_mapNode n _)

theorem spares_withParam (b : BlockId) (ty : Ty) :
    Spares dst home (some b) openNode g (g.withParam b ty) := by
  have hpush : ∀ made, Spares dst home (some b) openNode g (g.pushValue made) := fun made =>
    { outgrows := ⟨by simp [pushValue], le_rfl, le_rfl⟩
      value := fun v _ hlt => getElem?_append_left hlt
      node := fun _ _ _ _ => rfl
      block := fun _ _ _ _ => rfl
      home := fun _ => rfl }
  exact (hpush _).trans (spares_mapBlock b _)

/-! ## Steps that succeed -/

theorem addParam_some (h : g.block? b = some block) (ty : Ty) :
    g.addParam b ty = some (g.freshValue, g.withParam b ty) := by
  obtain ⟨⟨w, made⟩, hm⟩ : ∃ made, g.addParam b ty = some made := by simp [addParam, h]
  obtain ⟨rfl, rfl⟩ := addParam_eq_some hm
  exact hm

theorem addBlock_some (h : g.node? n = some node) :
    g.addBlock n = some (g.freshBlock, g.withBlock n) := by
  obtain ⟨⟨made, g'⟩, hm⟩ : ∃ made, g.addBlock n = some made := by simp [addBlock, h]
  obtain ⟨rfl, rfl⟩ := addBlock_eq_some hm
  exact hm

theorem addResult_some (h : g.block? b = some block) (v : ValueId) :
    g.addResult b v = some (g.withResult b v) := by
  obtain ⟨g', hm⟩ : ∃ made, g.addResult b v = some made := by
    simp [addResult, modifyBlock, h]
  obtain rfl := addResult_eq_some hm
  exact hm

theorem setName_some (h : g.value? v = some value) (name : Option String) :
    g.setName v name = some (g.label v name) := by
  obtain ⟨g', hm⟩ : ∃ made, g.setName v name = some made := by
    simp [setName, modifyValue, h]
  obtain rfl := modifyValue_eq_some hm
  exact hm

theorem appendNode_some (hb : g.block? b = some block) (hn : g.node? n = some node) :
    g.appendNode b n = some (g.append b n) := by
  obtain ⟨g', hm⟩ : ∃ made, g.appendNode b n = some made := by
    simp [appendNode, modifyNode, modifyBlock, hn, setNode, block?,
      show g.blocks[b.index]? = _ from hb]
  obtain rfl := appendNode_eq_some hm
  exact hm

end

end Graph

namespace Copying

/-! ## Copies -/

/-- What a value of the source is called. -/
abbrev nameOf (c : Copying) (v : ValueId) : Option ValueId := c.renamed.lookup v

/-- The values that have a name. -/
def hasName (c : Copying) (v : ValueId) : Bool := (c.renamed.lookup v).isSome

/-- A new value has the type and the debug name of the value that it stands for. -/
structure Renames (source : Graph) (name : ValueId → Option ValueId) (low g : Graph)
    (v w : ValueId) : Prop where
  name : name v = some w
  new : low.values.length ≤ w.index
  value : ∃ value made, source.value? v = some value ∧ g.value? w = some made ∧
    made.ty = value.ty ∧ made.name = value.name

/-- The nodes and blocks of `g` are new since `low`, and they are those of `source` with the
values renamed. -/
inductive IsCopy (source : Graph) (name : ValueId → Option ValueId) (low g : Graph) : Pairing → Prop
  | noNode : IsCopy source name low g (.nodes [] [])
  | node {n m : NodeId} {node : Node} {inputs outputs : List ValueId} {bs : List BlockId}
      {owner : Option BlockId} {ns ms : List NodeId}
      (hnode : source.node? n = some node) (hnew : low.nodes.length ≤ m.index)
      (hcopy : g.node? m = some { node with inputs, outputs, blocks := bs, owner })
      (hinputs : Forall₂ (fun v w => name v = some w) node.inputs inputs)
      (houtputs : Forall₂ (Renames source name low g) node.outputs outputs)
      (hblocks : IsCopy source name low g (.blocks node.blocks bs))
      (hrest : IsCopy source name low g (.nodes ns ms)) :
      IsCopy source name low g (.nodes (n :: ns) (m :: ms))
  | noBlock : IsCopy source name low g (.blocks [] [])
  | block {b copy : BlockId} {block made : Block} {bs copies : List BlockId}
      (hblock : source.block? b = some block) (hnew : low.blocks.length ≤ copy.index)
      (hcopy : g.block? copy = some made)
      (hparams : Forall₂ (Renames source name low g) block.params made.params)
      (hnodes : IsCopy source name low g (.nodes block.nodes made.nodes))
      (hresults : Forall₂ (fun v w => name v = some w) block.results made.results)
      (hrest : IsCopy source name low g (.blocks bs copies)) :
      IsCopy source name low g (.blocks (b :: bs) (copy :: copies))

/-- The graphs agree on everything that is new since `low`. -/
structure Agrees (low g g' : Graph) : Prop where
  value : ∀ v, low.values.length ≤ v.index → v.index < g.values.length → g'.value? v = g.value? v
  node : ∀ n, low.nodes.length ≤ n.index → n.index < g.nodes.length → g'.node? n = g.node? n
  block : ∀ b, low.blocks.length ≤ b.index → b.index < g.blocks.length → g'.block? b = g.block? b

section

variable {source low low' g g' dst : Graph} {home : BlockId} {name name' : ValueId → Option ValueId}

theorem agrees_of_spares (h : Spares dst home openBlock openNode g g') (hlow : Outgrows dst low)
    (hblock : ∀ b, openBlock = some b → b.index < low.blocks.length)
    (hnode : ∀ n, openNode = some n → n.index < low.nodes.length) : Agrees low g g' where
  value v hv hlt := h.value v (hlow.values.trans hv) hlt
  node n hn hlt := h.node n (hlow.nodes.trans hn) hlt fun heq =>
    absurd (hnode n heq) hn.not_gt
  block b hb hlt := h.block b (hlow.blocks.trans hb) hlt fun heq =>
    absurd (hblock b heq) hb.not_gt

theorem Renames.mono (h : Renames source name low g v w)
    (hname : ∀ v w, name v = some w → name' v = some w) (hlow : Outgrows low' low)
    (hagr : ∀ w, low.values.length ≤ w.index → w.index < g.values.length →
      g'.value? w = g.value? w) : Renames source name' low' g' v w where
  name := hname v w h.name
  new := hlow.values.trans h.new
  value := by
    obtain ⟨value, made, hv, hm, hs⟩ := h.value
    exact ⟨value, made, hv, (hagr w h.new (index_lt_of_value? hm)).trans hm, hs⟩

theorem IsCopy.mono {pairing} (h : IsCopy source name low g pairing)
    (hname : ∀ v w, name v = some w → name' v = some w) (hlow : Outgrows low' low)
    (hagr : Agrees low g g') : IsCopy source name' low' g' pairing := by
  induction h with
  | noNode => exact .noNode
  | noBlock => exact .noBlock
  | node hn hnew hcopy hins houts _ _ ihblocks ihrest =>
    refine .node hn (hlow.nodes.trans hnew)
      ((hagr.node _ hnew (index_lt_of_node? hcopy)).trans hcopy) ?_ ?_ ihblocks ihrest
    · exact hins.imp fun v w => hname v w
    · exact houts.imp fun _ _ hrenames => hrenames.mono hname hlow hagr.value
  | block hb hnew hcopy hps _ hres _ ihnodes ihrest =>
    refine .block hb (hlow.blocks.trans hnew)
      ((hagr.block _ hnew (index_lt_of_block? hcopy)).trans hcopy) ?_ ihnodes ?_ ihrest
    · exact hps.imp fun _ _ hrenames => hrenames.mono hname hlow hagr.value
    · exact hres.imp fun v w => hname v w

theorem IsCopy.consNode {n m : NodeId} {ns ms}
    (h : IsCopy source name low g (.nodes [n] [m])) (hr : IsCopy source name low g (.nodes ns ms)) :
    IsCopy source name low g (.nodes (n :: ns) (m :: ms)) := by
  cases h with
  | node hn hnew hcopy hins houts hbs _ => exact .node hn hnew hcopy hins houts hbs hr

theorem IsCopy.consBlock {b copy : BlockId} {bs copies : List BlockId}
    (h : IsCopy source name low g (.blocks [b] [copy]))
    (hr : IsCopy source name low g (.blocks bs copies)) :
    IsCopy source name low g (.blocks (b :: bs) (copy :: copies)) := by
  cases h with
  | block hb hnew hcopy hps hns hres _ => exact .block hb hnew hcopy hps hns hres hr

end

/-! ## Meeting events -/

/-- The environment has an answer for every value of `source` and leaves a copy into `dst` alone. -/
def Answers (capture : Capture) (source dst : Graph) (home : BlockId) : Prop :=
  ∀ v value g, source.value? v = some value → Outgrows dst g →
    ∃ w g', capture v g = some (w, g') ∧ Spares dst home none none g g'

/-- A copy from `source` to the end of the block `home` of `dst`. -/
structure Setting where
  source : Graph
  dst : Graph
  home : BlockId
  capture : Capture
  answers : Answers capture source dst home
  inside : home.index < dst.blocks.length

/-- The copy is ready to meet the events: they come in order, and nothing is named that is yet to be
defined. -/
structure Ready (S : Setting) (es : List Event) (c : Copying) : Prop where
  ordered : Ordered es
  present : ∀ e ∈ es, ∃ value, S.source.value? e.value = some value
  names : ∀ v, c.hasName v = true → .define v ∉ es
  outgrows : Outgrows S.dst c.target

/-- What a part of the copy does: it meets the events, and changes only what is open. -/
structure Meets (S : Setting) (openBlock : Option BlockId) (openNode : Option NodeId)
    (es : List Event) (c c' : Copying) : Prop where
  spares : Spares S.dst S.home openBlock openNode c.target c'.target
  keeps : ∀ v w, c.nameOf v = some w → c'.nameOf v = some w
  named : c'.hasName = met c.hasName es
  renames : ∃ ws, Forall₂ (fun v w => c'.nameOf v = some w) (defined es) ws ∧
    ws.Pairwise (fun w w' => w.index < w'.index) ∧
    ∀ w ∈ ws, c.target.values.length ≤ w.index ∧ w.index < c'.target.values.length
  captured : c'.captured = c.captured ++ free c.hasName es
  answers : ∀ v ∈ free c.hasName es, ∃ w before after,
    S.capture v before = some (w, after) ∧ c'.nameOf v = some w

section

variable {S : Setting} {b : BlockId} {openBlock : Option BlockId} {openNode : Option NodeId}
  {es es' : List Event} {c c₁ c' : Copying}

section

variable (h : Ready S (es ++ es') c)
include h

theorem Ready.left : Ready S es c where
  __ := h
  ordered := (pairwise_append.mp h.ordered).1
  present e he := h.present e (mem_append_left _ he)
  names v hv hmem := h.names v hv (mem_append_left _ hmem)

theorem Ready.next (hm : Meets S openBlock openNode es c c₁) : Ready S es' c₁ where
  ordered := (pairwise_append.mp h.ordered).2.1
  present e he := h.present e (mem_append_right _ he)
  names v hv hmem := by
    have hcross := (pairwise_append.mp h.ordered).2.2
    simp only [hm.named, met, Bool.or_eq_true, contains_iff_mem, mem_append, mem_used,
      mem_defined] at hv
    rcases hv with hold | huse | hdef
    · exact h.names v hold (mem_append_right _ hmem)
    · exact hcross _ huse _ hmem rfl
    · exact hcross _ hdef _ hmem rfl
  outgrows := h.outgrows.trans hm.spares.outgrows

theorem Ready.free_eq :
    free c.hasName (es ++ es') = free c.hasName es ++ free (met c.hasName es) es' :=
  free_append fun _ hv hv' =>
    (pairwise_append.mp h.ordered).2.2 _ (mem_used.mp hv) _ (mem_defined.mp hv') rfl

theorem Meets.trans (hm : Meets S openBlock openNode es c c₁)
    (hm' : Meets S openBlock openNode es' c₁ c') : Meets S openBlock openNode (es ++ es') c c' where
  spares := hm.spares.trans hm'.spares
  keeps v w hv := hm'.keeps v w (hm.keeps v w hv)
  named := by rw [hm'.named, hm.named, met_append]
  renames := by
    obtain ⟨ws, hws, hpairwise, hbounds⟩ := hm.renames
    obtain ⟨ws', hws', hpairwise', hbounds'⟩ := hm'.renames
    refine ⟨ws ++ ws', ?_, pairwise_append.mpr ⟨hpairwise, hpairwise', fun w hw w' hw' => ?_⟩,
      fun w hw => ?_⟩
    · rw [defined_append]
      exact rel_append (hws.imp fun v w => hm'.keeps v w) hws'
    · exact (hbounds w hw).2.trans_le (hbounds' w' hw').1
    · rcases mem_append.mp hw with hold | hnew
      · exact ⟨(hbounds w hold).1, (hbounds w hold).2.trans_le hm'.spares.outgrows.values⟩
      · exact ⟨hm.spares.outgrows.values.trans (hbounds' w hnew).1, (hbounds' w hnew).2⟩
  captured := by rw [hm'.captured, hm.captured, hm.named, h.free_eq, append_assoc]
  answers v hv := by
    rw [h.free_eq, mem_append, ← hm.named] at hv
    rcases hv with hold | hnew
    · obtain ⟨w, before, after, hcap, hw⟩ := hm.answers v hold
      exact ⟨w, before, after, hcap, hm'.keeps v w hw⟩
    · exact hm'.answers v hnew

end

theorem Meets.refl (S : Setting) (openBlock : Option BlockId) (openNode : Option NodeId)
    (c : Copying) : Meets S openBlock openNode [] c c where
  spares := .refl ..
  keeps _ _ := id
  named := by
    funext v
    simp [met, used, defined]
  renames := ⟨[], .nil, .nil, by simp⟩
  captured := by simp [free, used]
  answers := by simp [free, used]

section

variable (h : Meets S openBlock openNode es c c')
include h

theorem Meets.mono (hb : ∀ b, openBlock = some b → openBlock' = some b)
    (hn : ∀ n, openNode = some n → openNode' = some n) : Meets S openBlock' openNode' es c c' :=
  { h with spares := h.spares.mono hb hn }

theorem Meets.withTarget (hsp : Spares S.dst S.home openBlock openNode c'.target target) :
    Meets S openBlock openNode es c (c'.withTarget target) :=
  { h with
    spares := h.spares.trans hsp
    renames := by
      obtain ⟨ws, hws, hpairwise, hbounds⟩ := h.renames
      exact ⟨ws, hws, hpairwise, fun w hw =>
        ⟨(hbounds w hw).1, (hbounds w hw).2.trans_le hsp.outgrows.values⟩⟩ }

end

/-- New values stand for those that are defined. -/
theorem Meets.made (h : Ready S (olds.map .define) c)
    (hnames : Forall₂ (fun v w => c'.nameOf v = some w) olds news)
    (hother : ∀ v, v ∉ olds → c'.nameOf v = c.nameOf v) (hcapt : c'.captured = c.captured)
    (hpairwise : news.Pairwise fun w w' => w.index < w'.index)
    (hbounds : ∀ w ∈ news, c.target.values.length ≤ w.index ∧ w.index < c'.target.values.length)
    (hsp : Spares S.dst S.home openBlock openNode c.target c'.target) :
    Meets S openBlock openNode (olds.map .define) c c' where
  spares := hsp
  keeps v w hv := by
    rwa [hother v fun hmem => h.names v (by simp [hasName, hv]) (mem_map_of_mem hmem)]
  named := by
    funext v
    by_cases hmem : v ∈ olds
    · obtain ⟨w, -, hw⟩ := Ledger.exists_of_forall₂ hnames hmem
      simp [hasName, met, hw, hmem]
    · simp [hasName, met, hother v hmem, hmem]
  renames := ⟨news, by simpa using hnames, hpairwise, hbounds⟩
  captured := by simp [free, hcapt]
  answers := by simp [free]

/-! ## The parts of a copy succeed -/

theorem onTarget_run {α : Type} {change : Graph → Option (α × Graph)} {answer : α}
    (h : change c.target = some (answer, target)) :
    onTarget change c = some (answer, c.withTarget target) := by
  simp [onTarget, h, withTarget]

theorem updateTarget_run {change : Graph → Option Graph} (h : change c.target = some target) :
    updateTarget change c = some ((), c.withTarget target) := by
  simp [updateTarget, h, withTarget]

theorem introduce_run {old new : ValueId} {made : Value}
    (hv : source.value? old = some value) (hm : c.target.value? new = some made) :
    introduce source old new c = some ((), c.labelled old value new) :=
  bind_some.mpr ⟨value, c, lift_some.mpr ⟨hv, rfl⟩,
    bind_some.mpr ⟨(), _, updateTarget_run (setName_some hm value.name), rfl⟩⟩

theorem targetValue_meets (h : Ready S [.use v] c) : ∃ w c',
    targetValue S.capture v c = some (w, c') ∧ c'.nameOf v = some w ∧
      Meets S none none [.use v] c c' := by
  cases hlook : c.nameOf v with
  | some w =>
    have hnamed : c.hasName v = true := by simp [hasName, hlook]
    refine ⟨w, c, bind_some.mpr ⟨c, c, rfl, ?_⟩, hlook, .refl .., fun _ _ => id, ?_,
      ⟨[], .nil, .nil, by simp⟩, by simp [free_use, hnamed], by simp [free_use, hnamed]⟩
    · simp only [hlook]
      rfl
    · funext u
      by_cases heq : u = v <;> simp [met, used, defined, Event.used?, Event.defined?, heq, hnamed]
  | none =>
    have hnamed : c.hasName v = false := by simp [hasName, hlook]
    obtain ⟨value, hv⟩ := h.present _ (.head _)
    obtain ⟨w, target, hcap, hsp⟩ := S.answers v value c.target hv h.outgrows
    have hname : ∀ u, ((c.withTarget target).bind v w).nameOf u =
        if u = v then some w else c.nameOf u := lookup_bind (c.withTarget target) v w
    refine ⟨w, { (c.withTarget target).bind v w with captured := c.captured ++ [v] },
      bind_some.mpr ⟨c, c, rfl, ?_⟩, (hname v).trans (if_pos rfl), hsp, fun u x hu => ?_, ?_,
      ⟨[], .nil, .nil, by simp⟩, by simp [free_use, hnamed], fun u hu => ?_⟩
    · simp only [hlook]
      exact bind_some.mpr ⟨w, c.withTarget target, onTarget_run hcap, rfl⟩
    · refine (hname u).trans ((if_neg ?_).trans hu)
      rintro rfl
      cases hlook.symm.trans hu
    · funext u
      refine (congrArg Option.isSome (hname u)).trans ?_
      by_cases heq : u = v <;> simp [met, used, defined, Event.used?, Event.defined?, heq, hasName]
    · obtain rfl : u = v := by simpa [free_use, hnamed] using hu
      exact ⟨w, _, target, hcap, (hname u).trans (if_pos rfl)⟩

theorem inputs_meets (h : Ready S (vs.map .use) c) : ∃ ws c',
    vs.mapM (targetValue S.capture) c = some (ws, c') ∧ Meets S none none (vs.map .use) c c' ∧
      Forall₂ (fun v w => c'.nameOf v = some w) vs ws := by
  induction vs generalizing c with
  | nil => exact ⟨[], c, rfl, .refl .., .nil⟩
  | cons v vs ih =>
    have h : Ready S ([.use v] ++ vs.map .use) c := h
    obtain ⟨w, c₁, hrun, hname, hm⟩ := targetValue_meets h.left
    obtain ⟨ws, c', hruns, hm', hnames⟩ := ih (h.next hm)
    refine ⟨w :: ws, c', ?_, Meets.trans h hm hm', .cons (hm'.keeps v w hname) hnames⟩
    rw [mapM_cons]
    exact bind_some.mpr ⟨w, c₁, hrun, bind_some.mpr ⟨ws, c', hruns, rfl⟩⟩

theorem results_meets (h : Ready S (vs.map .use) c) (hb : b.index < c.target.blocks.length) :
    ∃ ws c', copyResults S.capture vs b c = some ((), c') ∧
      Meets S (some b) none (vs.map .use) c c' ∧ Forall₂ (fun v w => c'.nameOf v = some w) vs ws ∧
      ∀ block, S.dst.blocks.length ≤ b.index → c.target.block? b = some block →
        c'.target.block? b = some { block with results := block.results ++ ws } := by
  induction vs generalizing c with
  | nil => exact ⟨[], c, rfl, .refl .., .nil, fun block _ hblock => by simpa using hblock⟩
  | cons v vs ih =>
    have h : Ready S ([.use v] ++ vs.map .use) c := h
    obtain ⟨w, c₁, hrun, hname, hm⟩ := targetValue_meets h.left
    obtain ⟨block₁, hblock₁⟩ :=
      (exists_block?_iff _ b).mpr (hb.trans_le hm.spares.outgrows.blocks)
    have hreturn : Meets S (some b) none [.use v] c (c₁.withTarget (c₁.target.withResult b w)) :=
      (hm.mono (by simp) (by simp)).withTarget (spares_mapBlock b _)
    obtain ⟨ws, c', hruns, hm', hnames, hret⟩ :=
      ih (h.next hreturn) (hb.trans_le hreturn.spares.outgrows.blocks)
    refine ⟨w :: ws, c', ?_, Meets.trans h hreturn hm', .cons (hm'.keeps v w hname) hnames,
      fun block hnew hblock => ?_⟩
    · refine bind_some.mpr ⟨(), _, bind_some.mpr ⟨w, c₁, hrun, ?_⟩, hruns⟩
      exact updateTarget_run (addResult_some hblock₁ w)
    · have hkept := (hm.spares.block b hnew hb (by simp)).trans hblock
      have hm : (c₁.target.withResult b w).block? b =
          some { block with results := block.results ++ [w] } := by
        simp [withResult, hkept]
      simpa using hret _ hnew hm

theorem introduceAll_run (hvs : Forall₂ (fun v w => ∃ value made,
      source.value? v = some value ∧ c.target.value? w = some made ∧ made.ty = value.ty) olds news)
    (holds : olds.Nodup) (hnews : news.Nodup) :
    ∃ c', ((olds.zip news).forM fun (old, new) => introduce source old new : Step Unit) c =
        some ((), c') ∧ c'.captured = c.captured ∧
      c'.target.nodes = c.target.nodes ∧ c'.target.blocks = c.target.blocks ∧
      c'.target.values.length = c.target.values.length ∧
      (∀ w, w ∉ news → c'.target.value? w = c.target.value? w) ∧
      (∀ v, v ∉ olds → c'.nameOf v = c.nameOf v) ∧
      Forall₂ (fun v w => c'.nameOf v = some w ∧ ∃ value made,
        source.value? v = some value ∧ c'.target.value? w = some made ∧ made.ty = value.ty ∧
        made.name = value.name) olds news := by
  induction olds generalizing news c with
  | nil =>
    cases hvs
    exact ⟨c, rfl, rfl, rfl, rfl, rfl, fun _ _ => rfl, fun _ _ => rfl, .nil⟩
  | cons old olds ih =>
    obtain ⟨new, news, ⟨value, made, hv, hm, hty⟩, hr, rfl⟩ := forall₂_cons_left_iff.mp hvs
    obtain ⟨hold, holds⟩ := nodup_cons.mp holds
    obtain ⟨hnew, hnews⟩ := nodup_cons.mp hnews
    have hlabelled : ∀ w, w ≠ new →
        (c.labelled old value new).target.value? w = c.target.value? w := by
      intro w hw
      simp [labelled, bind, label, hw.symm]
    have hrest' : Forall₂ (fun v w => ∃ entry made, source.value? v = some entry ∧
        (c.labelled old value new).target.value? w = some made ∧ made.ty = entry.ty) olds news := by
      refine forall₂_iff_get.mpr ⟨hr.length_eq, fun i hi hi' => ?_⟩
      rw [hlabelled _ fun heq => hnew (heq ▸ get_mem news ⟨i, hi'⟩)]
      exact (forall₂_iff_get.mp hr).2 i hi hi'
    obtain ⟨c', hrun, hcapt, hns, hbs, hlen, hf, hother, hnamed⟩ := ih hrest' holds hnews
    refine ⟨c', bind_some.mpr ⟨(), _, introduce_run hv hm, hrun⟩, hcapt, hns, hbs,
      hlen.trans (by simp [labelled, bind, label]), fun w hw => ?_, fun v hv => ?_,
      .cons ⟨?_, ?_⟩ hnamed⟩
    · rw [mem_cons, not_or] at hw
      rw [hf w hw.2, hlabelled w hw.1]
    · rw [mem_cons, not_or] at hv
      exact (hother v hv.2).trans ((lookup_bind ..).trans (if_neg hv.1))
    · exact (hother old hold).trans ((lookup_bind ..).trans (if_pos rfl))
    · refine ⟨value, { made with name := value.name }, hv, ?_, hty, rfl⟩
      rw [hf new hnew]
      simp [labelled, bind, label, hm]

theorem create_meets (inputs : List ValueId) {types : List Ty}
    (h : Ready S (node.outputs.map .define) c)
    (htys : node.outputs.mapM S.source.typeOf? = some types) :
    ∃ c', ((node.outputs.zip (c.target.freshValues types.length)).forM fun (old, new) =>
          introduce S.source old new : Step Unit) (c.create node inputs types) = some ((), c') ∧
      Meets S none none (node.outputs.map .define) c c' ∧
      c'.target.node? c.target.freshNode = some { node with
        inputs, outputs := c.target.freshValues types.length, blocks := [], owner := none } ∧
      Forall₂ (Renames S.source c'.nameOf c.target c'.target) node.outputs
        (c.target.freshValues types.length) := by
  have hall := forall₂_of_mapM htys
  -- an output and the value made for it have the same place in their lists, and so the same type
  have hvs : Forall₂ (fun v w => ∃ value made, S.source.value? v = some value ∧
      (c.create node inputs types).target.value? w = some made ∧ made.ty = value.ty) node.outputs
      (c.target.freshValues types.length) := by
    refine forall₂_iff_get.mpr ⟨by simp [freshValues, hall.length_eq], fun i hi hi' => ?_⟩
    have hty := (forall₂_iff_get.mp hall).2 i hi (hall.length_eq ▸ hi)
    obtain ⟨value, hvalue, hvalueTy⟩ := Option.map_eq_some_iff.mp hty
    refine ⟨value, ⟨types.get ⟨i, hall.length_eq ▸ hi⟩, .output c.target.freshNode i, none⟩,
      hvalue, ?_, hvalueTy.symm⟩
    rw [create, withTarget, value?, withNode]
    simp only [freshValues, get_eq_getElem, getElem_map, getElem_range]
    rw [getElem?_append_right (Nat.le_add_right ..)]
    simp [hall.length_eq ▸ hi]
  have holds : node.outputs.Nodup := by
    refine (pairwise_map.mp h.ordered).imp ?_
    rintro v _ hne rfl
    exact hne rfl
  have hpairwise : (c.target.freshValues types.length).Pairwise fun w w' => w.index < w'.index := by
    rw [freshValues, pairwise_map]
    exact pairwise_lt_range.imp fun h => Nat.add_lt_add_left h _
  have hnews : (c.target.freshValues types.length).Nodup := by
    refine hpairwise.imp ?_
    rintro w _ hlt rfl
    exact lt_irrefl _ hlt
  obtain ⟨c', hrun, hcapt, hns, hbs, hlen, hf, hother, hnamed⟩ :=
    introduceAll_run hvs holds hnews
  have hcreated : Spares S.dst S.home none none c.target (c.create node inputs types).target :=
    spares_withNode ..
  refine ⟨c', hrun,
    .made h (hnamed.imp fun _ _ => And.left) hother hcapt hpairwise (fun w hw => ?_) ?_, ?_, ?_⟩
  · obtain ⟨slot, hslot, rfl⟩ := mem_map.mp hw
    refine ⟨Nat.le_add_right .., hlen ▸ ?_⟩
    simpa [create, withTarget, withNode] using hslot
  · refine ⟨⟨hlen ▸ hcreated.outgrows.values, ?_, ?_⟩, fun v hv hlt => ?_, fun n hn hlt hopen => ?_,
      fun b hb hlt hopen => ?_, fun hopen => ?_⟩
    · rw [hns]; exact hcreated.outgrows.nodes
    · rw [hbs]; exact hcreated.outgrows.blocks
    · rw [hf v fun hmem => absurd (le_of_mem_freshValues hmem) hlt.not_ge]
      exact hcreated.value v hv hlt
    · rw [node?, hns]; exact hcreated.node n hn hlt hopen
    · rw [block?, hbs]; exact hcreated.block b hb hlt hopen
    · rw [block?, hbs]; exact hcreated.home hopen
  · rw [node?, hns]
    exact (node?_withNode ..).trans (if_pos rfl)
  · refine forall₂_iff_get.mpr ⟨hnamed.length_eq, fun i hi hi' => ?_⟩
    obtain ⟨hlook, hvalue⟩ := (forall₂_iff_get.mp hnamed).2 i hi hi'
    exact ⟨hlook, le_of_mem_freshValues (get_mem _ _), hvalue⟩

theorem params_meets (h : Ready S (olds.map .define) c) (hb : c.target.block? b = some block) :
    ∃ ws c', (olds.forM fun old => do
        let ty ← S.source.typeOf? old
        let new ← onTarget fun target => target.addParam b ty
        introduce S.source old new : Step Unit) c = some ((), c') ∧
      Meets S (some b) none (olds.map .define) c c' ∧
      c'.target.block? b = some { block with params := block.params ++ ws } ∧
      Forall₂ (Renames S.source c'.nameOf c.target c'.target) olds ws := by
  induction olds generalizing c block with
  | nil => exact ⟨[], c, rfl, .refl .., by simpa using hb, .nil⟩
  | cons old olds ih =>
    have h : Ready S ([old].map .define ++ olds.map .define) c := h
    obtain ⟨value, hvalue⟩ := h.present (.define old) (.head _)
    have hm : (c.withTarget (c.target.withParam b value.ty)).target.value? c.target.freshValue =
        some ⟨value.ty, .param b block.params.length, none⟩ := by
      refine (value?_pushValue c.target c.target.freshValue _).trans ?_
      simp [hb]
    have hname : ∀ u, (c.withParam b old value).nameOf u =
        if u = old then some c.target.freshValue else c.nameOf u := fun u => lookup_bind ..
    have hstep : Meets S (some b) none ([old].map .define) c (c.withParam b old value) := by
      refine .made h.left (.cons ((hname old).trans (if_pos rfl)) .nil) (fun u hu => ?_) rfl
        (pairwise_singleton ..) ?_ ((spares_withParam b value.ty).label le_rfl value.name)
      · exact (hname u).trans (if_neg (by simpa using hu))
      · simp [freshValue]
    have hb₁ : (c.withParam b old value).target.block? b =
        some { block with params := block.params ++ [c.target.freshValue] } := by
      simp [Copying.withParam, labelled, bind, label, Graph.withParam, hb]
    obtain ⟨ws, c', hruns, hmt, hb', hrenames⟩ := ih (h.next hstep) hb₁
    refine ⟨c.target.freshValue :: ws, c', ?_, Meets.trans h hstep hmt, by simpa using hb',
      .cons ⟨hmt.keeps _ _ ((hname old).trans (if_pos rfl)), Nat.le_refl _, ?_⟩ ?_⟩
    · refine bind_some.mpr ⟨(), c.withParam b old value, ?_, hruns⟩
      refine bind_some.mpr ⟨value.ty, c, lift_some.mpr ⟨?_, rfl⟩, bind_some.mpr ⟨_, _,
        onTarget_run (addParam_some hb value.ty), introduce_run hvalue hm⟩⟩
      exact (congrArg _ hvalue).trans rfl
    · refine ⟨value, ⟨value.ty, .param b block.params.length, value.name⟩, hvalue, ?_, rfl, rfl⟩
      rw [hmt.spares.value c.target.freshValue h.outgrows.values
        (by rw [values_withParam]; exact Nat.lt_succ_self _)]
      show (label _ _ _).value? _ = _
      rw [label, value?_mapValue, if_pos rfl]
      exact congrArg (Option.map _) hm
    · exact hrenames.imp fun v w hrename =>
        ⟨hrename.name, hstep.spares.outgrows.values.trans hrename.new, hrename.value⟩

end

end Copying

end Flowgraph
