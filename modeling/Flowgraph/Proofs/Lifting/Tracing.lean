import Flowgraph.Proofs.Operations

/-!
# Where lifted graphs come from

Everything in a lifted graph goes back to something in the graph that was lowered, and so does
everything in the bodies that it carries: a body is what lifting made of the block of a closure.
`Trace` says what the parts of a graph go back to, and `Tracing` is what holds of the trace while
closures are being lifted (`Lifting.tracing`).  At the end the closures and forks of the graph fit
the bodies that they carry: `Graph.LiftsTo`.
-/

namespace Flowgraph

open List Option

open Flowgraph.Graph Ledger

variable {n m : NodeId} {body body' : BlockId} {v : ValueId} {producer : NodeId}
  {args values : List ValueId} {l : Ledger}

namespace Graph

variable {A : Prop} {node : Node}

/-- The node is a closure with this body, or a fork of one. -/
inductive Runs (source : Graph) : NodeId → BlockId → Prop
  | closure {n : NodeId} {node : Node} {body : BlockId} (hnode : source.node? n = some node)
      (hop : node.op = .closure) (hblocks : node.blocks = [body]) : Runs source n body
  | fork {n c : NodeId} {fork node : Node} {closure : ValueId} {args : List ValueId}
      {body : BlockId} (hfork : source.node? n = some fork) (hforks : fork.op = .forkClosure)
      (hinputs : fork.inputs = closure :: args) (hproducer : source.OutputOf closure c)
      (hnode : source.node? c = some node) (hop : node.op = .closure)
      (hblocks : node.blocks = [body]) : Runs source n body

/-- The types of what the graph takes and of what it returns. -/
def HasInterface (g : Graph) (inputs outputs : List Ty) : Prop :=
  g.HasBlockType [] root ⟨inputs, outputs⟩

/-- The closure carries a body, which takes the parameters of the block that the closure had, and
then what the node takes. -/
def ClosureFits (source g : Graph) (body : BlockId) (node : Node) : Prop :=
  ∃ params results captured subgraph, source.HasBlockType [] body ⟨params, results⟩ ∧
    g.Settled [] node.inputs captured ∧ node.subgraph = some subgraph ∧
      subgraph.HasInterface (params ++ captured) results

/-- The fork carries a body that takes what the node takes, and gives the future of its result. -/
def ForkFits (g : Graph) (node : Node) : Prop :=
  ∃ args params result subgraph, g.Settled [] node.inputs args ∧
    g.Settled [] node.outputs [.future result] ∧ node.subgraph = some subgraph ∧
      subgraph.HasInterface params [result] ∧
        Forall₂ (fun arg param => arg.isSubtype param = true) args params

/-- The graph is what lifting makes of a block of the lowered graph `source`, and every body in it
is what lifting makes of the block of a closure.  The block is that of the closure that the node
goes back to, or of the closure that this one forks. -/
inductive LiftsTo (source : Graph) : BlockId → Graph → Prop
  | intro {b : BlockId} {g : Graph} (origin : NodeId → NodeId)
      (inside : ∀ n, g.Placed n → source.Inside b (origin n))
      (settled : ∀ n node, g.Placed n → g.node? n = some node → node.op ≠ .forkClosure)
      (closures : ∀ n node, g.Placed n → g.node? n = some node → node.op = .closure →
        node.blocks = [] ∧ ∃ body, source.Runs (origin n) body ∧ source.ClosureFits g body node)
      (forks : ∀ n node, g.node? n = some node → node.op = .fork → g.ForkFits node)
      (carriers : ∀ n node subgraph, g.node? n = some node → node.subgraph = some subgraph →
        ∃ body, source.Runs (origin n) body)
      (bodies : ∀ n node subgraph body, g.node? n = some node → node.subgraph = some subgraph →
        source.Runs (origin n) body → LiftsTo source body subgraph) : LiftsTo source b g

variable {source g : Graph}

theorem Runs.unique (h : source.Runs n body) (h' : source.Runs n body') : body = body' := by
  cases h with
  | closure hn hop hbs =>
    cases h' with
    | closure hn' _ hbs' =>
      cases hn.symm.trans hn'
      exact singleton_inj.mp (hbs.symm.trans hbs')
    | fork hfork hforks =>
      cases hn.symm.trans hfork
      exact nomatch hop.symm.trans hforks
  | fork hfork hforks hins hprod hn _ hbs =>
    cases h' with
    | closure hn' hop' =>
      cases hfork.symm.trans hn'
      exact nomatch hforks.symm.trans hop'
    | fork hfork' _ hinputs' hproducer' hn' _ hbs' =>
      cases hfork.symm.trans hfork'
      obtain ⟨rfl, -⟩ := cons.inj (hins.symm.trans hinputs')
      obtain rfl := hprod.unique hproducer'
      cases hn.symm.trans hn'
      exact singleton_inj.mp (hbs.symm.trans hbs')

theorem HasBlockType.unique {ty ty' : BlockType} (h : g.HasBlockType [] body ty)
    (h' : g.HasBlockType [] body ty') : ty = ty' := by
  obtain ⟨block, hb, hps, hres⟩ := h
  obtain ⟨block', hb', hparams', hres'⟩ := h'
  cases hb.symm.trans hb'
  obtain ⟨params, results⟩ := ty
  obtain ⟨params', results'⟩ := ty'
  obtain rfl : params = params' := hps.unique hparams'
  obtain rfl : results = results' := hres.unique hres'
  rfl

theorem outputOf_of_producer? (h : g.producer? v = some (some n)) : g.OutputOf v n := by
  obtain ⟨value, hv, horig⟩ := bind_eq_some_iff.mp h
  cases hproduced : value.origin with
  | param => simp [hproduced] at horig
  | output m slot =>
    simp only [hproduced, some.injEq] at horig
    exact ⟨value, slot, hv, horig ▸ hproduced⟩

theorem Lawful.closure (h : source.Lawful A [] [] node) (hop : node.op = .closure) :
    ∃ body params result, node.blocks = [body] ∧
      source.HasBlockType [] body ⟨params, [result]⟩ := by
  obtain ⟨ty, hty, hlaw, -⟩ := h
  have hcl : ty.op = .closure := hty.op.trans hop
  simp only [NodeType.Lawful, hcl] at hlaw
  obtain ⟨-, params, result, hbs⟩ := hlaw
  have htys := hty.blocks
  rw [hbs] at htys
  obtain ⟨body, _, hbody, hnil, heq⟩ := forall₂_cons_right_iff.mp htys
  exact ⟨body, params, result, heq.trans (by rw [forall₂_nil_right_iff.mp hnil]), hbody⟩

theorem Lawful.op_ne_fork (h : source.Lawful A [] [] node) : node.op ≠ .fork := by
  obtain ⟨ty, hty, hlaw, -⟩ := h
  intro hop
  simp [NodeType.Lawful, hty.op.trans hop] at hlaw

/-- A fork of a closure in a lowered graph. -/
structure ForksClosure (source : Graph) (fork : Node) (closure : ValueId) (args : List ValueId)
    (params : List Ty) (result : Ty) (c : NodeId) (target : Node) (body : BlockId) : Prop where
  inputs : fork.inputs = closure :: args
  producer : source.OutputOf closure c
  node : source.node? c = some target
  op : target.op = .closure
  blocks : target.blocks = [body]
  bodyType : source.HasBlockType [] body ⟨params, [result]⟩
  fits : ∃ types, source.Settled [] args types ∧
    Forall₂ (fun arg param => arg.isSubtype param = true) types params
  outputs : source.Settled [] fork.outputs [.future result]
  plain : fork.blocks = []

theorem Lawful.fork {fork : Node} (h : source.Lawful A [] [] fork) (hop : fork.op = .forkClosure) :
    ∃ closure args params result c node body,
      source.ForksClosure fork closure args params result c node body := by
  obtain ⟨ty, hty, -, hforks⟩ := h
  obtain ⟨closure, args, closureTy, argTys, params, result, hins,
    ⟨c, node, outputs, -, hprod, hn, hcl⟩, htys, hfit, houts, hnone⟩ := hforks hop
  have hbody := hcl.blocks
  obtain ⟨body, _, hbody, hnil, hbs⟩ := forall₂_cons_right_iff.mp hbody
  obtain rfl := forall₂_nil_right_iff.mp hnil
  have hargs := hty.inputs
  rw [hins, htys] at hargs
  have hplain := hty.blocks
  rw [hnone] at hplain
  exact ⟨closure, args, params, result, c, node, body, hins, outputOf_of_producer? hprod, hn,
    hcl.op.symm, hbs, hbody, ⟨argTys, (forall₂_cons.mp hargs).2, hfit⟩,
    houts ▸ hty.outputs, forall₂_nil_right_iff.mp hplain⟩

end Graph

/-! ## Traces -/

/-- What the parts of a graph go back to. -/
structure Trace where
  value : ValueId → ValueId
  node : NodeId → NodeId
  block : BlockId → BlockId

/-- What lifting has made so far of a node, which was `old` at `n`. -/
inductive NodeTrace (source g : Graph) (trace : Trace) (n : NodeId) (old node : Node) : Prop
  | same (hop : node.op = old.op) (hinputs : node.inputs.map trace.value = old.inputs)
      (hblocks : node.blocks.map trace.block = old.blocks) (hsubgraph : node.subgraph = none)
  | lifted {body : BlockId} {subgraph : Graph} (hop : node.op = .closure)
      (hruns : source.Runs n body) (hblocks : node.blocks = [])
      (hfits : source.ClosureFits g body node) (hsubgraph : node.subgraph = some subgraph)
      (hlifted : source.LiftsTo body subgraph)
  | lowered {body : BlockId} {subgraph : Graph} (hop : node.op = .fork)
      (hruns : source.Runs n body) (hblocks : node.blocks = []) (hfits : g.ForkFits node)
      (hsubgraph : node.subgraph = some subgraph) (hlifted : source.LiftsTo body subgraph)

/-- What the graph goes back to, while its closures are lifted. -/
structure Tracing (source : Graph) (b : BlockId) (g : Graph) (trace : Trace) : Prop where
  root : trace.block root = b
  type : ∀ w ty, g.typeOf? w = some ty → source.typeOf? (trace.value w) = some ty
  output : ∀ w n, g.OutputOf w n → source.OutputOf (trace.value w) (trace.node n)
  node : ∀ n node, g.node? n = some node → ∃ old, source.node? (trace.node n) = some old ∧
    node.outputs.map trace.value = old.outputs ∧ NodeTrace source g trace (trace.node n) old node
  block : ∀ c block, g.block? c = some block → ∃ old, source.block? (trace.block c) = some old ∧
    (∀ n ∈ block.nodes, trace.node n ∈ old.nodes) ∧ block.results.map trace.value = old.results
  params : ∀ n node c block old, g.node? n = some node → c ∈ node.blocks →
    g.block? c = some block → source.block? (trace.block c) = some old →
      block.params.map trace.value = old.params

section

variable {A : Prop} {source g g' : Graph} {trace trace' : Trace} {b : BlockId}
  {old node node' : Node}

/-- The node may be another one, traced in another way, if it takes what goes back to the same
values and has the same types. -/
theorem NodeTrace.transfer (h : NodeTrace source g trace n old node)
    (hop' : node'.op = node.op) (hsub' : node'.subgraph = node.subgraph)
    (hinputs : node'.inputs.map trace'.value = node.inputs.map trace.value)
    (hblocks : node'.blocks.map trace'.block = node.blocks.map trace.block)
    (hins' : ∀ {types}, g.Settled [] node.inputs types → g'.Settled [] node'.inputs types)
    (houts' : ∀ {types}, g.Settled [] node.outputs types → g'.Settled [] node'.outputs types) :
    NodeTrace source g' trace' n old node' := by
  have hnone : node.blocks = [] → node'.blocks = [] := by
    intro hnil
    rw [hnil] at hblocks
    exact map_eq_nil_iff.mp hblocks
  cases h with
  | same hop hins hbs hsub =>
    exact .same (hop'.trans hop) (hinputs.trans hins) (hblocks.trans hbs) (hsub'.trans hsub)
  | lifted hop hruns hbs hfits hsub hlifts =>
    obtain ⟨params, results, captured, subgraph, hps, hcapt, hsubgraph, hr⟩ := hfits
    exact .lifted (hop'.trans hop) hruns (hnone hbs)
      ⟨params, results, captured, subgraph, hps, hins' hcapt, hsub'.trans hsubgraph, hr⟩
      (hsub'.trans hsub) hlifts
  | lowered hop hruns hbs hfits hsub hlifts =>
    obtain ⟨args, params, result, subgraph, hargs, houts, hsubgraph, hr⟩ := hfits
    exact .lowered (hop'.trans hop) hruns (hnone hbs)
      ⟨args, params, result, subgraph, hins' hargs, houts' houts, hsub'.trans hsubgraph, hr⟩
      (hsub'.trans hsub) hlifts

theorem NodeTrace.withOwner (h : NodeTrace source g trace n old node) (owner : Option BlockId)
    (htype : ∀ v, g'.typeOf? v = g.typeOf? v) :
    NodeTrace source g' trace n old { node with owner } :=
  have hset : ∀ {values types}, g.Settled [] values types → g'.Settled [] values types :=
    fun h => h.mono fun v _ hv hty => ⟨hv, (htype v).trans hty⟩
  h.transfer rfl rfl rfl rfl hset hset

namespace Tracing

section

variable (h : Tracing source b g trace)
include h

theorem mapNode {f : Node → Node} (houtputs : ∀ node, (f node).outputs = node.outputs)
    (hbs : ∀ node, (f node).blocks ⊆ node.blocks)
    (hf : ∀ node old, g.node? n = some node → source.node? (trace.node n) = some old →
      node.outputs.map trace.value = old.outputs →
        NodeTrace source g trace (trace.node n) old node →
      NodeTrace source g trace (trace.node n) old (f node)) :
        Tracing source b (g.mapNode n f) trace where
  __ := h
  node m made hm := by
    obtain ⟨node, hn, rfl | ⟨rfl, rfl⟩⟩ := exists_of_mapNode hm
    · obtain ⟨old, hold, houts, htrace⟩ := h.node m made hn
      exact ⟨old, hold, houts, htrace.withOwner made.owner fun _ => rfl⟩
    · obtain ⟨old, hold, houts, htrace⟩ := h.node n node hn
      exact ⟨old, hold, houtputs node ▸ houts,
        (hf node old hn hold houts htrace).withOwner (f node).owner fun _ => rfl⟩
  params m made c block old hm hc := by
    obtain ⟨node, hn, rfl | ⟨-, rfl⟩⟩ := exists_of_mapNode hm
    · exact h.params m made c block old hn hc
    · exact h.params m node c block old hn (hbs node hc)

theorem removed (n : NodeId) : Tracing source b (g.removed n) trace where
  root := h.root
  type w ty hty := h.type w ty ((typeOf?_removed g n w).symm.trans hty)
  output w m hout := by
    refine h.output w m ?_
    obtain ⟨value, slot, hv, horig⟩ := hout
    refine ⟨value, slot, ?_, horig⟩
    unfold Graph.removed at hv
    split at hv <;> exact hv
  node m made hmade := by
    obtain ⟨node, hn, owner, rfl⟩ := exists_node?_of_removed hmade
    obtain ⟨old, hold, houts, htrace⟩ := h.node m node hn
    exact ⟨old, hold, houts, htrace.withOwner owner (typeOf?_removed g n)⟩
  block c made hmade := by
    obtain ⟨block, hb, -, hresults, hns⟩ := exists_block?_of_removed hmade
    obtain ⟨old, hold, hsub, hres⟩ := h.block c block hb
    exact ⟨old, hold, fun m hm => hsub m (hns.subset hm), hresults ▸ hres⟩
  params m made c block' old hmade hc hb' hold := by
    obtain ⟨node, hn, owner, rfl⟩ := exists_node?_of_removed hmade
    obtain ⟨block, hb, hps, -⟩ := exists_block?_of_removed hb'
    exact hps ▸ h.params m node c block old hn hc hb hold

theorem settled {types}
    (hset : g.Settled [] values types) : source.Settled [] (values.map trace.value) types := by
  induction hset with
  | nil => exact .nil
  | cons hv _ ih => exact .cons ⟨not_mem_nil, h.type _ _ hv.2⟩ ih

theorem lowered (hlaw : ∀ n node, source.node? n = some node → source.Lawful A [] [] node)
    (hwell : g.WellTyped A) (hlow : g.ForkOf n fork v args producer node subgraph) :
    Tracing source b (g.lowered n (args ++ node.inputs) subgraph) trace := by
  refine h.mapNode (fun _ => rfl) (fun _ => Subset.refl _) fun found old hfd hold houts htrace => ?_
  cases hlow.here.symm.trans hfd
  cases htrace with
  | lifted hop' | lowered hop' => exact nomatch hlow.op.symm.trans hop'
  | same hs hins hbs _ =>
    have holdOp : old.op = .forkClosure := hs.symm.trans hlow.op
    obtain ⟨target, targs, params, result, c, closureNode, body, hforks⟩ :=
      (hlaw _ old hold).fork holdOp
    rw [hlow.inputs, map_cons, hforks.inputs] at hins
    obtain ⟨htgt, htargs⟩ := cons.inj hins
    -- the closure goes back to the closure that is forked in the lowered graph
    have hsrc := h.output v producer hlow.output
    rw [htgt] at hsrc
    obtain rfl := hsrc.unique hforks.producer
    obtain ⟨oldClosure, holdClosure, -, htraceClosure⟩ := h.node producer node hlow.there
    cases hforks.node.symm.trans holdClosure
    cases htraceClosure with
    | same _ _ _ hnone => exact nomatch hlow.carries.symm.trans hnone
    | lowered hop' => exact nomatch hlow.made.symm.trans hop'
    | lifted _ hruns _ hfits hsub hlifts =>
      obtain rfl := hruns.unique (.closure hforks.node hforks.op hforks.blocks)
      cases hlow.carries.symm.trans hsub
      obtain ⟨_, _, captured, _, hps, hcapt, hsub', hinterface⟩ := hfits
      cases hlow.carries.symm.trans hsub'
      obtain ⟨rfl, rfl⟩ := BlockType.mk.inj (hforks.bodyType.unique hps)
      obtain ⟨ty, hty, -⟩ := hwell n fork hlow.here
      have hinputTypes := hty.inputs
      rw [hlow.inputs] at hinputTypes
      obtain ⟨_, argTys, -, hargs, -⟩ := forall₂_cons_left_iff.mp hinputTypes
      obtain ⟨types, htys, hfit⟩ := hforks.fits
      have hargs' := h.settled hargs
      rw [htargs] at hargs'
      obtain rfl := hargs'.unique htys
      have houtputs := h.settled hty.outputs
      rw [houts] at houtputs
      have hret := houtputs.unique hforks.outputs
      have hnone : fork.blocks = [] := by
        rw [hforks.plain] at hbs
        exact map_eq_nil_iff.mp hbs
      exact .lowered rfl (.fork hold holdOp hforks.inputs hforks.producer hforks.node hforks.op
        hforks.blocks) hnone ⟨argTys ++ captured, params ++ captured, result, subgraph,
          rel_append hargs hcapt, hret ▸ hty.outputs, rfl, hinterface,
          rel_append hfit (forall₂_same.mpr fun ty _ => ty.isSubtype_refl)⟩ rfl hlifts

end

end Tracing

end

/-! ## Copies -/

/-- What a copy goes back to, by way of what it was copied from. -/
def Ledger.compose (l : Ledger) (trace : Trace) : Trace where
  value w := trace.value (l.values.getD w.index w)
  node m := trace.node (l.nodes.getD m.index m)
  block c := trace.block (l.blocks.getD c.index c)

namespace Ledger

variable {l : Ledger} {trace : Trace}

theorem compose_value {w} (h : l.Stands w v) : (l.compose trace).value w = trace.value v := by
  have hv : l.values[w.index]? = some v := h
  simp [compose, List.getD, hv]

theorem compose_node (h : l.StandsNode m n) : (l.compose trace).node m = trace.node n := by
  have hn : l.nodes[m.index]? = some n := h
  simp [compose, List.getD, hn]

theorem compose_block {made c : BlockId} (h : l.blocks[made.index]? = some c) :
    (l.compose trace).block made = trace.block c := by
  simp [compose, List.getD, h]

theorem map_eq_of_forall₂ {α β γ : Type} {R : α → β → Prop} {f : α → γ} {g : β → γ} {as : List α}
    {bs : List β} (h : Forall₂ R as bs) (hR : ∀ a b, R a b → f a = g b) : as.map f = bs.map g := by
  induction h with
  | nil => rfl
  | cons hfirst _ ih => rw [map_cons, map_cons, hR _ _ hfirst, ih]

theorem compose_values {ws vs : List ValueId} (h : Forall₂ l.Stands ws vs) :
    ws.map (l.compose trace).value = vs.map trace.value :=
  map_eq_of_forall₂ h fun _ _ => compose_value

end Ledger

section

variable {source g copy : Graph} {trace : Trace} {b body : BlockId} {l : Ledger}

theorem MirrorsBody.blocks_root (h : MirrorsBody g copy body l) : l.blocks[0]? = some body := by
  obtain ⟨block, made, l₁, -, -, -, -, -, hmir, hreads⟩ := h.root
  refine getElem?_of_prefix (hmir.extends.trans hreads.extends).blocks ?_
  simp [start]

theorem NodeTrace.copied {old node made : Node}
    (h : NodeTrace source g trace n old node) (hmir : MirrorsBody g copy body l)
    (hcopy : NodeCopy copy l m made node) : NodeTrace source copy (l.compose trace) n old made := by
  refine h.transfer hcopy.op hcopy.subgraph (compose_values hcopy.inputs) ?_
    (hmir.settled hcopy.inputs) (hmir.settled hcopy.outputs)
  exact map_eq_of_forall₂ hcopy.blocks fun _ _ hb => compose_block hb.2

theorem Tracing.extracted (h : Tracing source b g trace) (htraced : g.Traced)
    (hmir : MirrorsBody g copy body l) :
    Tracing source (trace.block body) copy (l.compose trace) := by
  have hcop := hmir.copied
  have hns : ∀ {made block : Block} {old : Block},
      Forall₂ l.StandsNode made.nodes block.nodes → (∀ n ∈ block.nodes, trace.node n ∈ old.nodes) →
      ∀ m ∈ made.nodes, (l.compose trace).node m ∈ old.nodes := by
    intro made block old hstd hsub m hm
    obtain ⟨n, hn, hstand⟩ := exists_of_forall₂ hstd hm
    rw [compose_node hstand]
    exact hsub n hn
  refine ⟨compose_block hmir.blocks_root, fun w ty hty => ?_, fun w m hout => ?_,
    fun m made hmade => ?_, fun c made hmade => ?_, fun m made c block' old hmade hc hb' hold => ?_⟩
  · obtain ⟨value, hvalue, rfl⟩ := map_eq_some_iff.mp hty
    obtain ⟨v, old, hstd, hold, hs⟩ := hcop.value w value hvalue
    rw [compose_value hstd, hs]
    exact h.type v old.ty (by rw [typeOf?, hold, map_some])
  · obtain ⟨n, node, v, hn, hnode, hv, hmem⟩ := hcop.origin w m hout
    rw [compose_value hv, compose_node hn]
    exact h.output v n (htraced.output n node v hnode hmem)
  · obtain ⟨n, node, hn, hnode, hcopy⟩ := hcop.node m made hmade
    obtain ⟨old, hold, houts, htrace⟩ := h.node n node hnode
    rw [compose_node hn]
    exact ⟨old, hold, (compose_values hcopy.outputs).trans houts, htrace.copied hmir hcopy⟩
  · by_cases hroot : c = Graph.root
    · subst hroot
      obtain ⟨block, found, hb, hfd, -, hresults, hstd, -⟩ := hcop.root
      cases hmade.symm.trans hfd
      obtain ⟨old, hold, hsub, hres⟩ := h.block body block hb
      exact ⟨old, (compose_block hmir.blocks_root).symm ▸ hold, hns hstd hsub,
        (compose_values hresults).trans hres⟩
    · obtain ⟨from', block, hfrom, hb, hcopy⟩ := hcop.block c made hmade hroot
      obtain ⟨old, hold, hsub, hres⟩ := h.block from' block hb
      exact ⟨old, (compose_block hfrom.2).symm ▸ hold, hns hcopy.nodes hsub,
        (compose_values hcopy.results).trans hres⟩
  · obtain ⟨n, node, hn, hnode, hcopy⟩ := hcop.node m made hmade
    obtain ⟨from', hmem, hstd⟩ := exists_of_forall₂ hcopy.blocks hc
    obtain ⟨again, block, hagain, hb, hcop⟩ := hcop.block c block' hb' hstd.1
    cases hstd.2.symm.trans hagain.2
    rw [compose_block hstd.2] at hold
    exact (compose_values hcop.params).trans (h.params n node from' block old hnode hmem hb hold)

end

/-! ## Lifting -/

section

variable {A : Prop} {source g g' subgraph : Graph} {trace : Trace} {b c : BlockId}
  {extracted : Graph} {n : NodeId} {node : Node} {body : BlockId}

theorem Progress.hasInterface (h : Progress g g') {inputs outputs : List Ty}
    (hinterface : g.HasInterface inputs outputs) : g'.HasInterface inputs outputs := by
  obtain ⟨block, hb, hps, hres⟩ := hinterface
  obtain ⟨block', hb', hprog⟩ := h.exists_block hb
  have htype : ∀ v ty, v ∉ [] → g.typeOf? v = some ty → v ∉ [] ∧ g'.typeOf? v = some ty := by
    intro v ty hv hty
    exact ⟨hv, by rwa [typeOf?, value?, h.values]⟩
  exact ⟨block', hb', hprog.params ▸ hps.mono htype, hprog.results ▸ hres.mono htype⟩

theorem Tracing.lifted (h : Tracing source b g trace)
    (hlaw : ∀ n node, source.node? n = some node → source.Lawful A [] [] node)
    (hwell : g.WellTyped A) {others : List BlockId} (hn : g.node? n = some node)
    (hop : node.op = .closure) (hbs : node.blocks = body :: others)
    (hmir : MirrorsBody g extracted body l) (hprog : Progress extracted subgraph)
    (hlifts : source.LiftsTo (trace.block body) subgraph) :
    Tracing source b (g.lifted n l.captured subgraph) trace := by
  refine h.mapNode (fun _ => rfl) (fun _ => nil_subset _) fun found old hfd hold _ htrace => ?_
  cases hn.symm.trans hfd
  cases htrace with
  | lifted _ _ hnone => exact nomatch hbs.symm.trans hnone
  | lowered hop' => exact nomatch hop.symm.trans hop'
  | same hs _ hsameBlocks _ =>
    have holdOp : old.op = .closure := hs.symm.trans hop
    obtain ⟨oldBody, params, result, holdBlocks, hbodyType⟩ := (hlaw _ old hold).closure holdOp
    rw [hbs, map_cons, holdBlocks] at hsameBlocks
    obtain ⟨rfl, -⟩ := cons.inj hsameBlocks
    -- the types of the parameters and of the result, here and in the lowered graph
    obtain ⟨ty, hty, -⟩ := hwell n node hn
    have htys := hty.blocks
    rw [hbs] at htys
    obtain ⟨⟨ps, rs⟩, _, ⟨block, hb, hps, hrs⟩, -⟩ := forall₂_cons_left_iff.mp htys
    obtain ⟨oldBlock, holdBlock, -, hres⟩ := h.block body block hb
    have hparams := h.params n node body block oldBlock hn (hbs ▸ (.head _)) hb holdBlock
    have hsrc : source.HasBlockType [] (trace.block body) ⟨ps, rs⟩ :=
      ⟨oldBlock, holdBlock, hparams ▸ h.settled hps, hres ▸ h.settled hrs⟩
    obtain ⟨captured, hcapt⟩ := hmir.captured_settled
    obtain ⟨again, made, hagain, hm, hins, houts, -⟩ := hmir.copied.root
    cases hb.symm.trans hagain
    have hinterface : extracted.HasInterface (ps ++ captured) rs :=
      ⟨made, hm, hmir.settled hins (rel_append hps hcapt), hmir.settled houts hrs⟩
    exact .lifted hop (.closure hold holdOp holdBlocks) rfl
      ⟨ps, rs, captured, subgraph, hsrc, hcapt, rfl, hprog.hasInterface hinterface⟩ rfl hlifts

theorem Tracing.nests (h : Tracing source b g trace) (hreach : g.Reachable c) :
    Relation.ReflTransGen source.Nests (trace.block c) b := by
  induction hreach with
  | root => exact h.root ▸ .refl
  | @nested c inner block n node _ hb hn hnode hin ih =>
    obtain ⟨oldBlock, holdBlock, hsub, -⟩ := h.block c block hb
    obtain ⟨old, hold, -, htrace⟩ := h.node n node hnode
    have hmem : trace.block inner ∈ old.blocks := by
      cases htrace with
      | same _ _ hbs => exact hbs ▸ mem_map_of_mem hin
      | lifted _ _ hnone | lowered _ _ hnone => exact nomatch hnone ▸ hin
    exact .head ⟨oldBlock, _, old, holdBlock, hsub n hn, hold, hmem⟩ ih

theorem SettledFrom.reachable (h : SettledFrom g root)
    (hforks : ∀ n node, g.node? n = some node → node.op = .fork → node.blocks = [])
    (hreach : g.Reachable c) : SettledFrom g c := by
  induction hreach with
  | root => exact h
  | @nested c inner block n node _ hb hn hnode hin ih =>
    obtain ⟨hagain, -, hnest⟩ := ih
    cases hb.symm.trans hagain
    refine hnest n hn node hnode (fun hop => ?_) inner hin
    exact nomatch hforks n node hnode hop ▸ hin

theorem Tracing.liftsTo (h : Tracing source b g trace)
    (hlaw : ∀ n node, source.node? n = some node → source.Lawful A [] [] node)
    (hset : SettledFrom g Graph.root) : source.LiftsTo b g := by
  -- no lowered graph has such forks, so that each of them was lowered by lifting
  have hforks : ∀ n node, g.node? n = some node → node.op = .fork →
      node.blocks = [] ∧ g.ForkFits node := by
    intro n node hnode hop
    obtain ⟨old, hold, -, htrace⟩ := h.node n node hnode
    cases htrace with
    | same hs => exact absurd (hs.symm.trans hop) (hlaw _ old hold).op_ne_fork
    | lifted hop' => exact nomatch hop.symm.trans hop'
    | lowered _ _ hnone hfits => exact ⟨hnone, hfits⟩
  have hpl : ∀ n node, g.Placed n → g.node? n = some node → Settled node := by
    rintro n node ⟨c, block, hreach, hb, hn⟩ hnode
    obtain ⟨hagain, hns, -⟩ := hset.reachable
      (fun n node hnode hop => (hforks n node hnode hop).1) hreach
    cases hb.symm.trans hagain
    exact hns n hn node hnode
  have hcarrier : ∀ n node subgraph, g.node? n = some node → node.subgraph = some subgraph →
      ∃ body, source.Runs (trace.node n) body ∧ source.LiftsTo body subgraph := by
    intro n node subgraph hnode hsubgraph
    obtain ⟨old, hold, -, htrace⟩ := h.node n node hnode
    cases htrace with
    | same _ _ _ hnone => exact nomatch hsubgraph.symm.trans hnone
    | @lifted body _ _ hruns _ _ hsub hlifts | @lowered body _ _ hruns _ _ hsub hlifts =>
      cases hsubgraph.symm.trans hsub
      exact ⟨body, hruns, hlifts⟩
  refine .intro trace.node (fun n hn => ?_) (fun n node hn hnode => (hpl n node hn hnode).1)
    (fun n node hn hnode hop => ?_) (fun n node hnode hop => (hforks n node hnode hop).2)
    (fun n node subgraph hnode hsubgraph => ?_)
    (fun n node subgraph body hnode hsubgraph hruns => ?_)
  · obtain ⟨c, block, hreach, hb, hmem⟩ := hn
    obtain ⟨oldBlock, holdBlock, hsub, -⟩ := h.block c block hb
    exact ⟨trace.block c, oldBlock, h.nests hreach, holdBlock, hsub n hmem⟩
  · obtain ⟨hnone, hsome⟩ := (hpl n node hn hnode).2 hop
    obtain ⟨old, hold, -, htrace⟩ := h.node n node hnode
    cases htrace with
    | same _ _ _ hplain => simp [hplain] at hsome
    | lowered hop' => exact nomatch hop.symm.trans hop'
    | @lifted body _ _ hruns _ hfits => exact ⟨hnone, body, hruns, hfits⟩
  · obtain ⟨body, hruns, -⟩ := hcarrier n node subgraph hnode hsubgraph
    exact ⟨body, hruns⟩
  · obtain ⟨again, hagain, hlifts⟩ := hcarrier n node subgraph hnode hsubgraph
    exact hruns.unique hagain ▸ hlifts

/-- What the steps of lifting rely on. -/
structure Sorted (A : Prop) (g : Graph) : Prop where
  orderly : g.Orderly
  wellTyped : g.WellTyped A
  emptied : g.Emptied

theorem Sorted.lower (h : Sorted A g) (hlow : g.ForkOf n fork v args producer node subgraph)
    (hdrop : Drops (g.lowered n (args ++ node.inputs) subgraph) g' v producer) : Sorted A g' := by
  have horderly := orderly_respects.lowered h.orderly hlow
  have hwell := h.wellTyped.lowered hlow
  obtain ⟨-, hstill⟩ := hlow.firm h.emptied hdrop
  rcases hdrop with rfl | ⟨-, rfl⟩
  · exact ⟨horderly, hwell, hstill⟩
  · exact ⟨⟨horderly.homed.removed _, horderly.tree.removed _⟩, hwell.removed _, hstill⟩

theorem Sorted.extract (h : Sorted A g) {captured}
    (hextract : Copying.Extracts g body extracted captured) : Sorted A extracted := by
  obtain ⟨l, rfl, hmir⟩ := hextract.mirrorsBody
  exact ⟨hextract.orderly, h.wellTyped.extracted hmir hextract.orderly.tree,
    Lift.emptied_copied hmir.copied h.emptied⟩

theorem Sorted.lift (h : Sorted A g) (hn : g.node? n = some node)
    (hop : node.op = .closure) (hmir : MirrorsBody g extracted body l) (subgraph : Graph) :
    Sorted A (g.lifted n l.captured subgraph) :=
  ⟨orderly_respects.lifted h.orderly hn hop hmir subgraph,
    h.wellTyped.lifted hn hop hmir.captured_settled subgraph,
    emptied_mapNode h.emptied fun _ _ _ _ => rfl⟩

theorem Lifting.tracing (hlaw : ∀ n node, source.node? n = some node → source.Lawful A [] [] node)
    (h : Lifting g g') (hsorted : Sorted A g) (htracing : Tracing source b g trace) :
    Tracing source b g' trace := by
  induction h generalizing b trace with
  | refl => exact htracing
  | @lower g dropped g' subgraph n producer fork node closure args _ hforks hdrop _ ih =>
      have hlow := htracing.lowered hlaw hsorted.wellTyped hforks
      have hafter := hsorted.lower hforks hdrop
      rcases hdrop with rfl | ⟨-, rfl⟩
      · exact ih hafter hlow
      · exact ih hafter (hlow.removed _)
  | @lift g extracted subgraph g' n node body others captured _ hn hop hbs hextract
      hin hset _ ihInner ihRest =>
      have hinside := hsorted.extract hextract
      obtain ⟨l, rfl, hmir⟩ := hextract.mirrorsBody
      have hbody := ihInner hinside (htracing.extracted
        (hsorted.orderly.tree.coherent hsorted.orderly.homed).traced hmir)
      have hprog := (hin.progress hinside.emptied).1
      exact ihRest (hsorted.lift hn hop hmir subgraph)
        (htracing.lifted hlaw hsorted.wellTyped hn hop hbs hmir hprog (hbody.liftsTo hlaw hset))

theorem tracing_refl (hunl : g.Unlifted) : Tracing g root g ⟨id, id, id⟩ where
  root := rfl
  type _ _ := id
  output _ _ := id
  node _ node hn := ⟨node, hn, map_id _, .same rfl (map_id _) (map_id _) (hunl _ node hn).1⟩
  block _ block hb := ⟨block, hb, fun _ => id, map_id _⟩
  params _ _ _ _ _ _ _ hb hold :=
    (map_id _).trans (congrArg Block.params (some.inj (hb.symm.trans hold)))

end

/-! ## Compiled graphs -/

theorem Def.toGraph_sorted {definition : Def} {host settings signature} {g : Graph}
    (h : definition.toGraph host settings = .ok (signature, g)) :
    (∀ n node, g.node? n = some node → g.Lawful False [] [] node) ∧
      g.Unlifted ∧ Sorted False g := by
  obtain ⟨_, hlawful⟩ : ∃ signatures, LawfulBut False [] [] g signatures :=
    Def.toGraph_lawful False.elim h
  have hlaw := fun n node => hlawful.node n node not_mem_nil
  obtain ⟨_, hbuilds, -⟩ := Def.toGraph_builds h
  have hunl := hbuilds.unlifted unlifted_empty
  refine ⟨hlaw, hunl, ⟨hbuilds.homed homed_empty, hbuilds.treelike treelike_empty⟩,
    fun n node hn => ?_, hunl.emptied⟩
  obtain ⟨ty, hty, hlawTy, -⟩ := hlaw n node hn
  exact ⟨ty, hty, hlawTy.fits⟩

/-- A compiled graph whose closures are lifted is what lifting makes of the root of the lowered
graph: in it and in all the bodies it carries, no fork of a closure and no block of a closure is
left, and closures and forks fit their bodies. -/
theorem Def.compile_liftsTo {definition : Def} {host : Host} {settings : Settings}
    (hlift : settings.liftClosures = true) {compiled : Compiled}
    (h : definition.compile host settings = .ok compiled) :
    ∃ source, definition.toGraph host settings = .ok (compiled.signature, source) ∧
      source.LiftsTo root compiled.graph := by
  obtain ⟨source, hsource, ⟨hoff, -⟩ | ⟨-, hlifted⟩⟩ := Def.compile_ok h
  · simp [hlift] at hoff
  refine ⟨source, hsource, ?_⟩
  obtain ⟨hlaw, hunlifted, hsorted⟩ := Def.toGraph_sorted hsource
  obtain ⟨hlifting, hsettled⟩ := liftClosures_run hunlifted.emptied hlifted
  exact (hlifting.tracing hlaw hsorted (tracing_refl hunlifted)).liftsTo hlaw hsettled

/-- A closure is forked in the body and in another closure, and the other closure is returned. -/
theorem forkedTwice_liftsTo : ∃ compiled, forkedTwice.compile Host.empty {} = .ok compiled ∧
    (∃ node ∈ compiled.graph.nodes, node.op = .fork) ∧
    (∃ node ∈ compiled.graph.nodes, ∃ body ∈ node.subgraph, ∃ inner ∈ body.nodes,
      inner.op = .fork) ∧
    ∃ source, forkedTwice.toGraph Host.empty {} = .ok (compiled.signature, source) ∧
      source.LiftsTo root compiled.graph := by
  obtain ⟨compiled, hcompiled, hfork, hinner⟩ : ∃ compiled,
      forkedTwice.compile Host.empty {} = .ok compiled ∧
        (∃ node ∈ compiled.graph.nodes, node.op = .fork) ∧ ∃ node ∈ compiled.graph.nodes,
          ∃ body ∈ node.subgraph, ∃ inner ∈ body.nodes, inner.op = .fork := by
    decide +kernel
  exact ⟨compiled, hcompiled, hfork, hinner, Def.compile_liftsTo rfl hcompiled⟩

end Flowgraph
