import Flowgraph.Proofs.Lifting.Provenance

/-!
# What lifting does

`Lifting` says once what can happen to a graph whose closures are lifted: a fork is lowered to carry
the lifted body of its closure, which may drop the closure, and a closure is lifted, for which its
body is extracted and the closures of the extracted body are lifted in turn.  Statements about
lifted graphs are inductions over it.

`Progress` is the first of these: what lifting leaves of a graph.
-/

namespace Flowgraph

namespace Graph

/-- The node stands in a block that can be reached. -/
def Placed (g : Graph) (n : NodeId) : Prop :=
  ∃ b block, g.Reachable b ∧ g.block? b = some block ∧ n ∈ block.nodes

/-- A fork of a closure as a fork that carries the body. -/
def lowered (g : Graph) (n : NodeId) (inputs : List ValueId) (subgraph : Graph) : Graph :=
  g.mapNode n fun fork => { fork with op := .fork, inputs, subgraph := some subgraph }

/-- A closure with its body as a graph of its own. -/
def lifted (g : Graph) (n : NodeId) (captured : List ValueId) (subgraph : Graph) : Graph :=
  g.mapNode n fun node =>
    { node with inputs := captured, blocks := [], subgraph := some subgraph }

/-- The node taken out of its block. -/
def removed (g : Graph) (n : NodeId) : Graph :=
  let outside :=
    match (g.node? n).bind NodeOf.owner with
    | none => g
    | some b => g.mapBlock b fun block =>
      { block with nodes := block.nodes.filter fun placed => placed ≠ n }
  outside.mapNode n fun node => { node with owner := none }

theorem node?_removed (g : Graph) (n m : NodeId) : (g.removed n).node? m =
    if n = m then (g.node? m).map fun node => { node with owner := none } else g.node? m := by
  unfold removed
  cases (g.node? n).bind NodeOf.owner <;> exact node?_mapNode ..

theorem removeNode_eq_some {g g' : Graph} {n : NodeId}
    (h : g.removeNode n = some g') : g' = g.removed n := by
  obtain ⟨node, hn, hr⟩ := Option.bind_eq_some_iff.mp h
  unfold removed
  rw [hn, Option.bind_some]
  cases hown : node.owner with simp only [hown] at hr
  | none => exact modifyNode_eq_some hr
  | some b =>
    obtain ⟨middle, hmid, hlast⟩ := Option.bind_eq_some_iff.mp hr
    rw [modifyNode_eq_some hlast, modifyBlock_eq_some hmid]

end Graph

open Flowgraph.Graph

/-- The closure is dropped, or stays. -/
def Drops (g g' : Graph) (closure : ValueId) (producer : NodeId) : Prop :=
  g' = g ∨ g.uses closure = some [] ∧ g' = g.removed producer

/-- What is left of a node when lifting has been there. -/
def Settled (node : Node) : Prop :=
  node.op ≠ .forkClosure ∧ (node.op = .closure → node.blocks = [] ∧ node.subgraph.isSome)

/-- Everything in the block, and in the blocks nested there, is settled.  A fork has no blocks that
would need it. -/
inductive SettledFrom (g : Graph) : BlockId → Prop
  | intro {b : BlockId} {block : Block} (hblock : g.block? b = some block)
      (hnodes : ∀ n ∈ block.nodes, ∀ node, g.node? n = some node → Settled node)
      (hnested : ∀ n ∈ block.nodes, ∀ node, g.node? n = some node → node.op ≠ .fork →
        ∀ inner ∈ node.blocks, SettledFrom g inner) : SettledFrom g b

/-- The node forks a closure whose producer carries the body. -/
structure Graph.ForkOf (g : Graph) (n : NodeId) (fork : Node) (closure : ValueId)
    (args : List ValueId) (producer : NodeId) (node : Node) (subgraph : Graph) : Prop where
  here : g.node? n = some fork
  op : fork.op = .forkClosure
  inputs : fork.inputs = closure :: args
  output : g.OutputOf closure producer
  there : g.node? producer = some node
  made : node.op = .closure
  carries : node.subgraph = some subgraph

/-- What can happen to a graph whose closures are lifted. -/
inductive Lifting : Graph → Graph → Prop
  | refl (g : Graph) : Lifting g g
  | lower {g dropped g' subgraph : Graph} {n producer : NodeId} {fork node : Node}
      {closure : ValueId} {args : List ValueId} (hplaced : g.Placed n)
      (hforks : g.ForkOf n fork closure args producer node subgraph)
      (hdrop : Drops (g.lowered n (args ++ node.inputs) subgraph) dropped closure producer)
      (hrest : Lifting dropped g') : Lifting g g'
  | lift {g extracted subgraph g' : Graph} {n : NodeId} {node : Node} {body : BlockId}
      {others : List BlockId} {captured : List ValueId}
      (hplaced : g.Placed n) (hnode : g.node? n = some node) (hop : node.op = .closure)
      (hblocks : node.blocks = body :: others)
      (hextract : Copying.Extracts g body extracted captured)
      (hinner : Lifting extracted subgraph) (hsettled : SettledFrom subgraph root)
      (hrest : Lifting (g.lifted n captured subgraph) g') : Lifting g g'

theorem Lifting.trans {first second third : Graph} (h : Lifting first second)
    (h' : Lifting second third) : Lifting first third := by
  induction h with
  | refl => exact h'
  | lower hpl hforks hdrop _ ih => exact .lower hpl hforks hdrop (ih h')
  | lift hpl hn hop hbs hextract hin hset _ _ ih =>
    exact .lift hpl hn hop hbs hextract hin hset (ih h')

/-! ## Progress -/

/-- A closure that carries its body has no block. -/
def Graph.Emptied (g : Graph) : Prop :=
  ∀ n node, g.node? n = some node → node.op = .closure → node.subgraph.isSome → node.blocks = []

/-- What lifting makes of a node. -/
structure NodeProgress (node node' : Node) : Prop where
  outputs : node'.outputs = node.outputs
  op : node'.op = node.op ∨ node.op = .forkClosure ∧ node'.op = .fork
  blocks : node'.blocks = node.blocks ∨ node.op = .closure ∧ node'.blocks = []
  subgraph : node.subgraph.isSome → node'.subgraph.isSome

/-- What lifting makes of a block: only closures whose body was lifted leave it. -/
structure BlockProgress (g' : Graph) (block block' : Block) : Prop where
  params : block'.params = block.params
  results : block'.results = block.results
  nodes : block'.nodes.Sublist block.nodes
  left : ∀ n ∈ block.nodes, n ∈ block'.nodes ∨
    ∃ node', g'.node? n = some node' ∧ node'.op = .closure ∧ node'.blocks = []

structure Progress (g g' : Graph) : Prop where
  values : g'.values = g.values
  node : ∀ n node', g'.node? n = some node' →
    ∃ node, g.node? n = some node ∧ NodeProgress node node'
  block : ∀ b block', g'.block? b = some block' →
    ∃ block, g.block? b = some block ∧ BlockProgress g' block block'
  nodes : g'.nodes.length = g.nodes.length
  blocks : g'.blocks.length = g.blocks.length

theorem NodeProgress.refl (node : Node) : NodeProgress node node :=
  ⟨rfl, Or.inl rfl, Or.inl rfl, id⟩

theorem NodeProgress.trans {first second third : Node} (h : NodeProgress first second)
    (h' : NodeProgress second third) : NodeProgress first third where
  outputs := h'.outputs.trans h.outputs
  op := by
    rcases h.op, h'.op with ⟨heq | ⟨hfork, hfork'⟩, heq' | ⟨hlater, hlater'⟩⟩
    · exact Or.inl (heq'.trans heq)
    · exact Or.inr ⟨heq ▸ hlater, hlater'⟩
    · exact Or.inr ⟨hfork, heq'.trans hfork'⟩
    · exact Or.inr ⟨hfork, hlater'⟩
  blocks := by
    rcases h.blocks, h'.blocks with ⟨heq | ⟨hcl, hnone⟩, heq' | ⟨hlater, hnone'⟩⟩
    · exact Or.inl (heq'.trans heq)
    · refine Or.inr ⟨?_, hnone'⟩
      rcases h.op with hop | ⟨-, hop⟩
      · exact hop ▸ hlater
      · cases hop.symm.trans hlater
    · exact Or.inr ⟨hcl, heq'.trans hnone⟩
    · exact Or.inr ⟨hcl, hnone'⟩
  subgraph hsome := h'.subgraph (h.subgraph hsome)

section Progress

variable {g g' first second third : Graph} {n : NodeId} {node fork : Node} {f : Node → Node}
  {b : BlockId}

theorem Progress.exists_node (h : Progress g g') (hn : g.node? n = some node) :
    ∃ node', g'.node? n = some node' ∧ NodeProgress node node' := by
  obtain ⟨node', hn'⟩ := (exists_node?_iff g' n).mpr (h.nodes ▸ index_lt_of_node? hn)
  obtain ⟨again, hagain, hprog⟩ := h.node n node' hn'
  cases hn.symm.trans hagain
  exact ⟨node', hn', hprog⟩

theorem Progress.exists_block (h : Progress g g') {block : Block} (hb : g.block? b = some block) :
    ∃ block', g'.block? b = some block' ∧ BlockProgress g' block block' := by
  obtain ⟨block', hb'⟩ := (exists_block?_iff g' b).mpr (h.blocks ▸ index_lt_of_block? hb)
  obtain ⟨again, hagain, hprog⟩ := h.block b block' hb'
  cases hb.symm.trans hagain
  exact ⟨block', hb', hprog⟩

theorem Progress.refl (g : Graph) : Progress g g where
  values := rfl
  node _ node' hn' := ⟨node', hn', .refl node'⟩
  block _ block' hb' := ⟨block', hb', rfl, rfl, .refl _, fun _ => Or.inl⟩
  nodes := rfl
  blocks := rfl

theorem Progress.trans (h : Progress first second) (h' : Progress second third) :
    Progress first third where
  values := h'.values.trans h.values
  node n node'' hnode'' := by
    obtain ⟨node', hn', hlater⟩ := h'.node n node'' hnode''
    obtain ⟨node, hnode, hearlier⟩ := h.node n node' hn'
    exact ⟨node, hnode, hearlier.trans hlater⟩
  block b block'' hblock'' := by
    obtain ⟨block', hb', hlater⟩ := h'.block b block'' hblock''
    obtain ⟨block, hb, hearlier⟩ := h.block b block' hb'
    refine ⟨block, hb, hlater.params.trans hearlier.params,
      hlater.results.trans hearlier.results, hlater.nodes.trans hearlier.nodes, fun n hn => ?_⟩
    rcases hearlier.left n hn with hin | ⟨node', hn', hop, hnone⟩
    · exact hlater.left n hin
    · obtain ⟨node'', hnode'', hprog⟩ := h'.exists_node hn'
      refine Or.inr ⟨node'', hnode'', ?_, ?_⟩
      · rcases hprog.op with heq | ⟨hfork, -⟩
        · exact heq.trans hop
        · cases hop.symm.trans hfork
      · rcases hprog.blocks with heq | ⟨-, hnone'⟩
        · exact heq.trans hnone
        · exact hnone'
  nodes := h'.nodes.trans h.nodes
  blocks := h'.blocks.trans h.blocks

theorem progress_mapNode (hf : ∀ node, g.node? n = some node → NodeProgress node (f node)) :
    Progress g (g.mapNode n f) where
  values := rfl
  node m node' hn' := by
    obtain ⟨node, hn, rfl | ⟨rfl, rfl⟩⟩ := exists_of_mapNode hn'
    · exact ⟨node', hn, .refl node'⟩
    · exact ⟨node, hn, hf node hn⟩
  block _ block' hb' := ⟨block', hb', rfl, rfl, .refl _, fun _ => Or.inl⟩
  nodes := by simp
  blocks := rfl

theorem progress_removed (hn : g.node? n = some node)
    (hop : node.op = .closure) (hnone : node.blocks = []) : Progress g (g.removed n) := by
  have hown : ∀ outside : Graph, Progress outside
      (outside.mapNode n fun node => { node with owner := none }) := fun outside =>
    progress_mapNode fun node _ => ⟨rfl, Or.inl rfl, Or.inl rfl, id⟩
  unfold Graph.removed
  cases (g.node? n).bind NodeOf.owner with
  | none => exact hown g
  | some b =>
    refine Progress.trans ?_ (hown _)
    refine ⟨rfl, fun m node' hn' => ⟨node', hn', .refl node'⟩, fun c block' hb' => ?_, rfl, by simp⟩
    obtain ⟨block, hb, rfl | ⟨heq, rfl⟩⟩ := exists_of_mapBlock hb'
    · exact ⟨block', hb, rfl, rfl, .refl _, fun _ => Or.inl⟩
    · refine ⟨block, hb, rfl, rfl, List.filter_sublist, fun m hm => ?_⟩
      by_cases heq : m = n
      · subst heq
        exact Or.inr ⟨node, hn, hop, hnone⟩
      · exact Or.inl (List.mem_filter.mpr ⟨hm, by simpa using heq⟩)

theorem progress_lowered (hfork : g.node? n = some fork) (hop : fork.op = .forkClosure)
    (inputs : List ValueId) (subgraph : Graph) : Progress g (g.lowered n inputs subgraph) :=
  progress_mapNode fun node hn => by
    cases hfork.symm.trans hn
    exact ⟨rfl, Or.inr ⟨hop, rfl⟩, Or.inl rfl, fun _ => rfl⟩

theorem progress_lifted (hn : g.node? n = some node)
    (hop : node.op = .closure) (captured : List ValueId) (subgraph : Graph) :
    Progress g (g.lifted n captured subgraph) :=
  progress_mapNode fun again hagain => by
    cases hn.symm.trans hagain
    exact ⟨rfl, Or.inl rfl, Or.inr ⟨hop, rfl⟩, fun _ => rfl⟩

theorem emptied_mapNode (h : g.Emptied)
    (hf : ∀ node, g.node? n = some node → (f node).op = .closure →
      (f node).subgraph.isSome → (f node).blocks = []) : (g.mapNode n f).Emptied := by
  intro m node' hn' hop hsome
  obtain ⟨node, hn, rfl | ⟨rfl, rfl⟩⟩ := exists_of_mapNode hn'
  · exact h m node' hn hop hsome
  · exact hf node hn hop hsome

theorem emptied_removed (h : g.Emptied) (n : NodeId) : (g.removed n).Emptied := by
  intro m node' hn' hop hsome
  rw [node?_removed] at hn'
  split at hn'
  next =>
    obtain ⟨node, hn, rfl⟩ := Option.map_eq_some_iff.mp hn'
    exact h m node hn hop hsome
  next => exact h m node' hn' hop hsome

/-- Progress in which every node keeps its blocks. -/
structure Firm (g g' : Graph) : Prop extends Progress g g' where
  kept : ∀ n node node', g.node? n = some node → g'.node? n = some node' →
    node'.blocks = node.blocks

theorem Firm.refl (g : Graph) : Firm g g where
  toProgress := .refl g
  kept _ _ _ hn hn' := congrArg _ (Option.some.inj (hn'.symm.trans hn))

theorem Firm.trans (h : Firm first second) (h' : Firm second third) : Firm first third where
  toProgress := h.toProgress.trans h'.toProgress
  kept n node node'' hn hnode'' := by
    obtain ⟨node', hn', -⟩ := h.exists_node hn
    exact (h'.kept n node' node'' hn' hnode'').trans (h.kept n node node' hn hn')

theorem Firm.reachable (h : Firm g g') (hb : g.Reachable b) : g'.Reachable b := by
  induction hb with
  | root => exact .root
  | nested _ hblock hn hnode hin ih =>
    obtain ⟨block', hb', hprog⟩ := h.exists_block hblock
    obtain ⟨node', hnode', -⟩ := h.exists_node hnode
    have hinner' := h.kept _ _ _ hnode hnode' ▸ hin
    rcases hprog.left _ hn with hn' | ⟨again, hagain, -, hnone⟩
    · exact .nested ih hb' hn' hnode' hinner'
    · cases hnode'.symm.trans hagain
      rw [hnone] at hinner'
      cases hinner'

theorem Firm.placed (h : Firm g g') (hnode : g.node? n = some node) (hop : node.op ≠ .closure)
    (hpl : g.Placed n) : g'.Placed n := by
  obtain ⟨b, block, hreach, hb, hn⟩ := hpl
  obtain ⟨block', hb', hprog⟩ := h.exists_block hb
  refine ⟨b, block', h.reachable hreach, hb', ?_⟩
  rcases hprog.left n hn with hn' | ⟨node', hnode', hop', -⟩
  · exact hn'
  · obtain ⟨again, hagain, hns⟩ := h.node n node' hnode'
    cases hnode.symm.trans hagain
    rcases hns.op with heq | ⟨-, hfork⟩
    · exact absurd (heq ▸ hop') hop
    · cases hfork.symm.trans hop'

section Forks

variable {dropped subgraph : Graph} {producer : NodeId} {closure : ValueId}
  {args inputs : List ValueId} (h : g.ForkOf n fork closure args producer node subgraph)
include h

theorem Graph.ForkOf.ne : n ≠ producer := by
  rintro rfl
  cases Option.some.inj (h.here.symm.trans h.there)
  cases h.op.symm.trans h.made

theorem Graph.ForkOf.node?_lowered (inputs : List ValueId) :
    (g.lowered n inputs subgraph).node? producer = some node := by
  simp [lowered, h.ne, h.there]

theorem Graph.ForkOf.firm (hemptied : g.Emptied)
    (hdrop : Drops (g.lowered n inputs subgraph) dropped closure producer) :
    Firm g dropped ∧ dropped.Emptied := by
  have hlow : Firm g (g.lowered n inputs subgraph) := by
    refine ⟨progress_lowered h.here h.op inputs subgraph, fun m old new hold hnew => ?_⟩
    rw [lowered, node?_mapNode, hold] at hnew
    split at hnew <;> cases hnew <;> rfl
  have hstill : (g.lowered n inputs subgraph).Emptied :=
    emptied_mapNode hemptied fun _ _ hfalse => nomatch hfalse
  rcases hdrop with rfl | ⟨-, rfl⟩
  · exact ⟨hlow, hstill⟩
  · have hnone : node.blocks = [] :=
      hemptied producer node h.there h.made (by simp [h.carries])
    refine ⟨hlow.trans ⟨progress_removed (h.node?_lowered inputs) h.made hnone,
      fun m old new hold hnew => ?_⟩, emptied_removed hstill producer⟩
    rw [node?_removed, hold] at hnew
    split at hnew <;> cases hnew <;> rfl

end Forks

theorem Lifting.progress (h : Lifting g g') (hemptied : g.Emptied) :
    Progress g g' ∧ g'.Emptied := by
  induction h with
  | refl g => exact ⟨.refl g, hemptied⟩
  | lower _ hforks hdrop _ ih =>
    obtain ⟨hsteady, hstill⟩ := hforks.firm hemptied hdrop
    obtain ⟨hprog, hlast⟩ := ih hstill
    exact ⟨hsteady.toProgress.trans hprog, hlast⟩
  | lift _ hn hop _ _ _ _ _ _ ih =>
    obtain ⟨hprog, hlast⟩ := ih (emptied_mapNode hemptied fun _ _ _ _ => rfl)
    exact ⟨(progress_lifted hn hop _ _).trans hprog, hlast⟩

end Progress

end Flowgraph
