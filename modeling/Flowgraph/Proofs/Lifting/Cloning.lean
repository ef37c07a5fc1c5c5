import Flowgraph.Proofs.Lifting.CopyParts

/-!
# Copying a block into any graph

`Copying.copyBlock` with any environment: the copied block is read in order, so that the copy has
the same nodes and blocks as the original, with the values that the block defines renamed to new
ones and every other value replaced by the answer of the environment.
-/

namespace Flowgraph

open List Option

variable {node : Node} {capture : Capture} {n : NodeId}

namespace Copying

open Flowgraph.Graph

theorem copyNode_parts {copyInner : BlockId → BlockId → Step Unit} {inputs} {types : List Ty}
    {c c₁ c₂ c₃ : Copying} {target : Graph} (hn : source.node? n = some node)
    (hins : node.inputs.mapM (targetValue capture) c = some (inputs, c₁))
    (htys : node.outputs.mapM source.typeOf? = some types)
    (houts : ((node.outputs.zip (c₁.target.freshValues types.length)).forM fun (old, new) =>
      introduce source old new : Step Unit) (c₁.create node inputs types) = some ((), c₂))
    (hbs : node.blocks.forM (copyNested source capture copyInner c₁.target.freshNode) c₂ =
      some ((), c₃)) (happend : c₃.target.appendNode into c₁.target.freshNode = some target) :
    copyNode source capture copyInner into n c = some ((), c₃.withTarget target) := by
  refine bind_some.mpr ⟨node, c, lift_some.mpr ⟨hn, rfl⟩, bind_some.mpr ⟨inputs, c₁, hins,
    bind_some.mpr ⟨types, c₁, lift_some.mpr ⟨htys, rfl⟩,
      bind_some.mpr ⟨_, _, onTarget_run rfl, ?_⟩⟩⟩⟩
  refine bind_some.mpr ⟨(), c₁.create node inputs types, updateTarget_run ?_, ?_⟩
  · have hattrs : (c₁.target.withNode { op := node.op, inputs, span := node.span } types).modifyNode
        c₁.target.freshNode
        (fun fresh => { fresh with attrs := node.attrs, subgraph := node.subgraph }) =
        some (c₁.create node inputs types).target := modifyNode_withNode
    exact hattrs
  · exact bind_some.mpr ⟨_, _, rfl, bind_some.mpr ⟨_, _, lift_some.mpr
      ⟨(node?_withNode ..).trans (if_pos rfl), rfl⟩, bind_some.mpr ⟨(), c₂, houts,
        bind_some.mpr ⟨(), c₃, hbs, updateTarget_run happend⟩⟩⟩⟩

section

variable (S : Setting) {copy : NodeId} {b into : BlockId} {runs : List (List Event)}
  {es es' : List Event} {c c₁ c' : Copying} {openBlock : Option BlockId} {openNode : Option NodeId}

/-- The events are met, and what the pairing says is new is a copy. -/
structure Copies (openBlock : Option BlockId) (openNode : Option NodeId) (pairing : Pairing)
    (es : List Event) (c c' : Copying) : Prop where
  meets : Meets S openBlock openNode es c c'
  isCopy : IsCopy S.source c'.nameOf c.target c'.target pairing

/-- The nodes are copied to the end of the block `into`. -/
structure NodesCopied (into : BlockId) (ns ms : List NodeId) (es : List Event) (c c' : Copying) :
    Prop extends Copies S (some into) none (.nodes ns ms) es c c' where
  placed : ∀ block, c.target.block? into = some block → ∃ made, c'.target.block? into = some made ∧
    made.nodes = block.nodes ++ ms ∧
    (S.dst.blocks.length ≤ into.index → made = { block with nodes := block.nodes ++ ms })

/-- The blocks are copied to new blocks of the node `copy`. -/
structure BlocksCopied (copy : NodeId) (bs copies : List BlockId) (es : List Event)
    (c c' : Copying) : Prop extends Copies S none (some copy) (.blocks bs copies) es c c' where
  node : ∀ node, c.target.node? copy = some node →
    c'.target.node? copy = some { node with blocks := node.blocks ++ copies }

/-- Nodes are copied to the end of the block: it is the one that receives the copy, or new. -/
def Receives (into : BlockId) (c : Copying) : Prop :=
  into.index < c.target.blocks.length ∧ (into = S.home ∨ S.dst.blocks.length ≤ into.index)

/-- Copying the nodes of a block that is read in order succeeds. -/
def CopiesOrdered (inside : BlockId → Option (List Event))
    (copyInner : BlockId → BlockId → Step Unit) : Prop :=
  ∀ {b into : BlockId} {es : List Event} {c : Copying}, inside b = some es → Ready S es c →
    Receives S into c → ∃ block ms c', S.source.block? b = some block ∧
      copyInner b into c = some ((), c') ∧ NodesCopied S into block.nodes ms es c c'

variable {S}

/-- Two parts of a copy, one after the other. -/
theorem Copies.both {p q : Pairing} (h : Ready S (es ++ es') c)
    (hfirst : Copies S openBlock openNode p es c c₁)
    (hsecond : Copies S openBlock openNode q es' c₁ c')
    (hblock : ∀ b, openBlock = some b → b.index < c.target.blocks.length)
    (hnode : ∀ n, openNode = some n → n.index < c.target.nodes.length) :
    Meets S openBlock openNode (es ++ es') c c' ∧ IsCopy S.source c'.nameOf c.target c'.target p ∧
      IsCopy S.source c'.nameOf c.target c'.target q := by
  refine ⟨Meets.trans h hfirst.meets hsecond.meets,
    hfirst.isCopy.mono hsecond.meets.keeps (.refl _) ?_,
    hsecond.isCopy.mono (fun _ _ => id) hfirst.meets.spares.outgrows
      ⟨fun _ _ _ => rfl, fun _ _ _ => rfl, fun _ _ _ => rfl⟩⟩
  exact agrees_of_spares hsecond.meets.spares h.outgrows hblock hnode

variable {inside : BlockId → Option (List Event)} {copyInner : BlockId → BlockId → Step Unit}
  (hinner : CopiesOrdered S inside copyInner)

include hinner

theorem copyNested_copied (hes : S.source.nestedEvents inside b = some es) (h : Ready S es c)
    (hcopy : S.dst.nodes.length ≤ copy.index) (hn : c.target.node? copy = some node) :
    ∃ made c', copyNested S.source S.capture copyInner copy b c = some ((), c') ∧
      BlocksCopied S copy [b] [made] es c c' := by
  obtain ⟨block, events, hb, hevs, rfl⟩ := nestedEvents_eq_some hes
  have hhome : S.home.index < c.target.blocks.length := S.inside.trans_le h.outgrows.blocks
  have hadded : Meets S none (some copy) [] c (c.withTarget (c.target.withBlock copy)) :=
    (Meets.refl ..).withTarget (spares_withBlock copy hhome)
  have hempty : (c.target.withBlock copy).block? c.target.freshBlock =
      some { owner := some copy } := (block?_pushBlock ..).trans (if_pos rfl)
  -- the parameters, the nodes and the results of the new block, in this order
  have h : Ready S ([] ++ (block.params.map .define ++ (events ++ block.results.map .use))) c := h
  have h₀ := h.next hadded
  obtain ⟨ws, c₁, hrun₁, hm₁, hb₁, hrenames⟩ := params_meets h₀.left hempty
  have h₁ := h₀.next hm₁
  obtain ⟨again, ms, c₂, hagain, hrun₂, hcop⟩ :=
    hinner hevs h₁.left ⟨index_lt_of_block? hb₁, .inr h.outgrows.blocks⟩
  obtain rfl := some.inj (hagain.symm.trans hb)
  obtain ⟨made₂, hmade₂, -, hwhole⟩ := hcop.placed _ hb₁
  obtain rfl := hwhole h.outgrows.blocks
  obtain ⟨rs, c', hrun₃, hm₃, hnames, hret⟩ :=
    results_meets (h₁.next hcop.meets) (index_lt_of_block? hmade₂)
  have hlater := Meets.trans h₁ hcop.meets hm₃
  refine ⟨c.target.freshBlock, c', ?_, ⟨?_, ?_⟩, fun node hn => ?_⟩
  · refine bind_some.mpr ⟨again, c, lift_some.mpr ⟨hb, rfl⟩, bind_some.mpr ⟨_, _,
      onTarget_run (addBlock_some hn), bind_some.mpr ⟨(), c₁, hrun₁,
        bind_some.mpr ⟨(), c₂, hrun₂, ?_⟩⟩⟩⟩
    exact hrun₃
  · have hnew := Meets.trans h₀ hm₁ hlater
    have hwhole := Meets.trans h (hadded.mono (by simp) fun _ => id)
      (hnew.mono (fun _ => id) (by simp))
    exact { hwhole with spares := hwhole.spares.closeBlock le_rfl hhome }
  · refine .block hb le_rfl (hret _ h.outgrows.blocks hmade₂) ?_ ?_ hnames .noBlock
    · refine hrenames.imp fun v w hrename =>
        hrename.mono hlater.keeps hadded.spares.outgrows fun w hw hlt => ?_
      exact hlater.spares.value w (h₀.outgrows.values.trans hw) hlt
    · refine hcop.isCopy.mono hm₃.keeps (hadded.spares.outgrows.trans hm₁.spares.outgrows) ?_
      exact agrees_of_spares hm₃.spares h₁.outgrows
        (by rintro _ ⟨⟩; exact index_lt_of_block? hb₁) (by simp)
  · have hm : (c.target.withBlock copy).node? copy =
        some { node with blocks := node.blocks ++ [c.target.freshBlock] } := by
      simp [withBlock, hn]
    have hlt := index_lt_of_node? hm
    rw [hlater.spares.node copy hcopy (hlt.trans_le hm₁.spares.outgrows.nodes) (by simp),
      hm₁.spares.node copy hcopy hlt (by simp)]
    exact hm

theorem copyNestedAll_copied {bs : List BlockId}
    (hruns : Forall₂ (fun b run => S.source.nestedEvents inside b = some run) bs runs)
    (h : Ready S runs.flatten c) (hcopy : S.dst.nodes.length ≤ copy.index)
    (hn : c.target.node? copy = some node) :
    ∃ copies c', bs.forM (copyNested S.source S.capture copyInner copy) c = some ((), c') ∧
      BlocksCopied S copy bs copies runs.flatten c c' := by
  induction hruns generalizing c node with
  | nil => exact ⟨[], c, rfl, ⟨.refl .., .noBlock⟩, fun node hn => by simpa using hn⟩
  | cons hrun _ ih =>
    obtain ⟨made, c₁, hrun₁, hcop⟩ := copyNested_copied hinner hrun (Ready.left h) hcopy hn
    obtain ⟨copies, c', hrun', hcop'⟩ := ih (h.next hcop.meets) (hcop.node node hn)
    obtain ⟨hm, hcopy, hcopy'⟩ := Copies.both h hcop.toCopies hcop'.toCopies (by simp)
      (by rintro _ ⟨⟩; exact index_lt_of_node? hn)
    refine ⟨made :: copies, c', bind_some.mpr ⟨(), c₁, hrun₁, hrun'⟩, ⟨hm, .consBlock hcopy hcopy'⟩,
      fun node hn => ?_⟩
    simpa using hcop'.node _ (hcop.node node hn)

theorem copyNode_copied (hes : S.source.nodeEvents inside n = some es) (h : Ready S es c)
    (hinto : Receives S into c) :
    ∃ m c', copyNode S.source S.capture copyInner into n c = some ((), c') ∧
      NodesCopied S into [n] [m] es c c' := by
  obtain ⟨node, nested, hn, hnest, rfl⟩ := nodeEvents_eq_some hes
  obtain ⟨inputs, c₁, hrun₁, hm₁, hnames⟩ := inputs_meets h.left
  have h₁ := h.next hm₁
  obtain ⟨types, htys⟩ : ∃ types, node.outputs.mapM S.source.typeOf? = some types := by
    refine exists_mapM fun v hv => ?_
    obtain ⟨value, hvalue⟩ := h₁.left.present _ (mem_map_of_mem hv)
    exact ⟨value.ty, (congrArg _ hvalue).trans rfl⟩
  obtain ⟨c₂, hrun₂, hm₂, hcreated, hrenames⟩ := create_meets inputs h₁.left htys
  have h₂ := h₁.next hm₂
  obtain ⟨copies, c₃, hrun₃, hcop⟩ := copyNestedAll_copied hinner hnest h₂
    (show _ ≤ c₁.target.freshNode.index from h₁.outgrows.nodes) hcreated
  have hm := hcop.node _ hcreated
  -- the copy is open while its blocks are copied and when it is placed
  have hbefore := Meets.trans h (hm₁.mono (fun _ => id) (by simp))
    (Meets.trans h₁ (hm₂.mono (fun _ => id) (by simp)) hcop.meets)
  obtain ⟨block₃, hblock₃⟩ := (exists_block?_iff _ into).mpr
    (hinto.1.trans_le hbefore.spares.outgrows.blocks)
  have happend : Spares S.dst S.home (some into) (some c₁.target.freshNode) c₃.target
      (c₃.target.append into c₁.target.freshNode) :=
    (spares_mapNode ..).trans (spares_mapBlock ..)
  have hinside := (hcop.meets.mono (by simp) fun _ => id).withTarget happend
  have hafter := Meets.trans h₁ (hm₂.mono (by simp) (by simp)) hinside
  have hgrown := hm₁.spares.outgrows.trans hm₂.spares.outgrows
  refine ⟨c₁.target.freshNode, c₃.withTarget (c₃.target.append into c₁.target.freshNode),
    copyNode_parts hn hrun₁ htys hrun₂ hrun₃ (appendNode_some hblock₃ hm), ⟨?_, ?_⟩,
    fun block hb => ?_⟩
  · have hwhole := Meets.trans h (hm₁.mono (by simp) (by simp)) hafter
    exact { hwhole with spares := hwhole.spares.closeNode hm₁.spares.outgrows.nodes }
  · have hpl : (c₃.target.append into c₁.target.freshNode).node? c₁.target.freshNode =
        some { node with
          inputs, outputs := c₁.target.freshValues types.length, blocks := copies,
          owner := some into } := by
      simp [append, hm]
    refine .node hn hm₁.spares.outgrows.nodes hpl (hnames.imp fun v w => hafter.keeps v w)
      ?_ ?_ .noNode
    · refine hrenames.imp fun v w hrename =>
        hrename.mono hinside.keeps hm₁.spares.outgrows fun w hw hlt => ?_
      exact hinside.spares.value w (h₁.outgrows.values.trans hw) hlt
    · refine hcop.isCopy.mono (fun _ _ => id) hgrown (agrees_of_spares happend h₂.outgrows ?_ ?_)
      · rintro _ ⟨⟩
        exact hinto.1.trans_le hgrown.blocks
      · rintro _ ⟨⟩
        exact index_lt_of_node? hcreated
  · have hpl : (c₃.target.append into c₁.target.freshNode).block? into =
        some { block₃ with nodes := block₃.nodes ++ [c₁.target.freshNode] } := by
      simp [append, hblock₃]
    have hkept : S.dst.blocks.length ≤ into.index → block₃ = block := fun hnew => by
      rw [hbefore.spares.block into hnew hinto.1 (by simp)] at hblock₃
      exact some.inj (hblock₃.symm.trans hb)
    refine ⟨_, hpl, ?_, fun hnew => by rw [hkept hnew]⟩
    rcases hinto.2 with rfl | hnew
    · have hnodes := hbefore.spares.home (by simp)
      rw [hb, hblock₃] at hnodes
      rw [some.inj hnodes]
    · rw [hkept hnew]

theorem copyNodes_copied {ns : List NodeId}
    (hruns : Forall₂ (fun n run => S.source.nodeEvents inside n = some run) ns runs)
    (h : Ready S runs.flatten c) (hinto : Receives S into c) :
    ∃ ms c', ns.forM (copyNode S.source S.capture copyInner into) c = some ((), c') ∧
      NodesCopied S into ns ms runs.flatten c c' := by
  induction hruns generalizing c with
  | nil =>
    exact ⟨[], c, rfl, ⟨.refl .., .noNode⟩, fun block hb => ⟨block, hb, by simp, fun _ => by simp⟩⟩
  | cons hrun _ ih =>
    obtain ⟨m, c₁, hrun₁, hcop⟩ := copyNode_copied hinner hrun (Ready.left h) hinto
    obtain ⟨ms, c', hrun', hcop'⟩ := ih (h.next hcop.meets)
      ⟨hinto.1.trans_le hcop.meets.spares.outgrows.blocks, hinto.2⟩
    obtain ⟨hm, hcopy, hcopy'⟩ := Copies.both h hcop.toCopies hcop'.toCopies
      (by rintro _ ⟨⟩; exact hinto.1) (by simp)
    refine ⟨m :: ms, c', bind_some.mpr ⟨(), c₁, hrun₁, hrun'⟩, ⟨hm, .consNode hcopy hcopy'⟩,
      fun block hb => ?_⟩
    obtain ⟨made, hmade, hns, hwhole⟩ := hcop.placed block hb
    obtain ⟨made', hmade', hns', hwhole'⟩ := hcop'.placed made hmade
    refine ⟨made', hmade', by simp [hns', hns], fun hnew => ?_⟩
    rw [hwhole' hnew, hwhole hnew]
    simp

omit hinner in
theorem copyBlockWithin_copied (depth : Nat) :
    CopiesOrdered S (S.source.eventsWithin depth) (copyBlockWithin S.source S.capture depth) := by
  induction depth with
  | zero => exact fun hes => nomatch hes
  | succ depth ih =>
    intro b into es c hes h hinto
    obtain ⟨_, block, runs, hdepth, hb, hruns, rfl⟩ := eventsWithin_eq_some hes
    obtain rfl := Nat.succ.inj hdepth
    obtain ⟨ms, c', hrun, hcop⟩ := copyNodes_copied ih hruns h hinto
    refine ⟨block, ms, c', hb, ?_, hcop⟩
    rw [copyBlockWithin_succ]
    exact bind_some.mpr ⟨block, c, lift_some.mpr ⟨hb, rfl⟩, hrun⟩

end

/-! ## Blocks of well-scoped graphs -/

/-- The nodes of `block`, in which `events` happen, have been copied to the end of the block `into`:
what the block defines is called by new values, each by its own, and its free values are called by
what the environment answered for them. -/
structure IsClone (source : Graph) (capture : Capture) (into : BlockId) (block : Block)
    (events : List Event) (start finish : Copying) : Prop where
  placed : ∃ home made ms, start.target.block? into = some home ∧
    finish.target.block? into = some made ∧ made.nodes = home.nodes ++ ms ∧
    IsCopy source finish.nameOf start.target finish.target (.nodes block.nodes ms)
  keeps : ∀ v w, start.nameOf v = some w → finish.nameOf v = some w
  renames : ∃ ws, Forall₂ (fun v w => finish.nameOf v = some w) (defined events) ws ∧
    ws.Pairwise (fun w w' => w.index < w'.index) ∧ ∀ w ∈ ws, start.target.values.length ≤ w.index
  captured : finish.captured = start.captured ++ free start.hasName events
  answers : ∀ v ∈ free start.hasName events, ∃ w before after,
    capture v before = some (w, after) ∧ finish.nameOf v = some w

variable {source : Graph} {b into : BlockId} {block : Block}

/-- A new input of the graph is an answer. -/
theorem spares_input {dst g : Graph} (hroot : 0 < dst.blocks.length)
    (hb : g.block? root = some block)
    (ty : Ty) : Spares dst root none none g (g.withParam root ty) :=
  (spares_withParam root ty).closeHome hroot (by simp [Graph.withParam, hb])

theorem captureFrom_answers (source dst : Graph) (hroot : 0 < dst.blocks.length) :
    Answers (Lift.captureFrom source) source dst root := by
  intro v value g hv hdst
  obtain ⟨block, hb⟩ := (exists_block?_iff g root).mpr (hroot.trans_le hdst.blocks)
  have hm : (g.withParam root value.ty).value? g.freshValue =
      some ⟨value.ty, .param root block.params.length, none⟩ := by
    refine (value?_pushValue g g.freshValue _).trans ?_
    simp [hb]
  refine ⟨g.freshValue, _, ?_, (spares_input hroot hb value.ty).label le_rfl value.name⟩
  exact bind_eq_some_iff.mpr ⟨value, hv, bind_eq_some_iff.mpr
    ⟨(g.freshValue, g.withParam root value.ty), addParam_some hb value.ty,
      bind_eq_some_iff.mpr ⟨_, setName_some hm value.name, rfl⟩⟩⟩

/-- A closure that multiplies a tensor from outside with itself. -/
def squaring : Graph where
  values := [⟨.tensor, .param root 0, some "x"⟩, ⟨.nothing, .output ⟨0⟩ 0, none⟩,
    ⟨.tensor, .output ⟨1⟩ 0, none⟩]
  nodes := [
    { op := .closure, inputs := [], outputs := [⟨1⟩], blocks := [⟨1⟩], owner := some root },
    { op := .primitive .mul, inputs := [⟨0⟩, ⟨0⟩], outputs := [⟨2⟩], owner := some ⟨1⟩ }]
  blocks := [{ params := [⟨0⟩], nodes := [⟨0⟩], results := [⟨1⟩] },
    { nodes := [⟨1⟩], results := [⟨2⟩], owner := some ⟨0⟩ }]

theorem squaring_coherent : squaring.Coherent where
  output := by
    rintro ⟨_ | _ | _⟩ node v hnode hv <;> simp [squaring, node?] at hnode <;> subst hnode
    · obtain rfl := mem_singleton.mp hv
      exact ⟨_, 0, rfl, rfl⟩
    · obtain rfl := mem_singleton.mp hv
      exact ⟨_, 0, rfl, rfl⟩
  param := by
    rintro ⟨_ | _ | _⟩ block v hblock hv <;> simp [squaring, block?] at hblock <;> subst hblock
    · obtain rfl := mem_singleton.mp hv
      exact ⟨_, 0, rfl, rfl⟩
    · cases hv
  placed := by
    rintro ⟨_ | _ | _⟩ block n hblock hn <;> simp [squaring, block?] at hblock <;> subst hblock
    · obtain rfl := mem_singleton.mp hn
      exact ⟨_, rfl, rfl⟩
    · obtain rfl := mem_singleton.mp hn
      exact ⟨_, rfl, rfl⟩
  nested := by
    rintro ⟨_ | _ | _⟩ node b hnode hb <;> simp [squaring, node?] at hnode <;> subst hnode
    · obtain rfl := mem_singleton.mp hb
      exact ⟨_, rfl, rfl⟩
    · cases hb

theorem squaring_proper : squaring.Proper where
  coherent := squaring_coherent
  root n node hn :=
    (by decide : ∀ node ∈ squaring.nodes, root ∉ node.blocks) node (mem_of_getElem? hn)
  nodes b block hb :=
    (by decide : ∀ block ∈ squaring.blocks, block.nodes.Nodup) block (mem_of_getElem? hb)
  params b block hb :=
    (by decide : ∀ block ∈ squaring.blocks, block.params.Nodup) block (mem_of_getElem? hb)
  outputs n node hn :=
    (by decide : ∀ node ∈ squaring.nodes, node.outputs.Nodup) node (mem_of_getElem? hn)
  blocks n node hn :=
    (by decide : ∀ node ∈ squaring.nodes, node.blocks.Nodup) node (mem_of_getElem? hn)
  walk := ⟨[⟨0⟩, ⟨1⟩], rfl⟩

end Copying

end Flowgraph
