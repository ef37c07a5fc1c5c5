import Flowgraph.Proofs.Compilation
import Flowgraph.Proofs.Lifting.ScopeChanges

/-!
# Lifting and scopes

Lifting keeps a well-scoped graph well scoped, and the bodies that it moves out are well scoped by
themselves, provided that no block returns a closure that is forked
(`Graph.liftClosures_scopedThroughout`).  Without that the closure may be dropped while a block
still returns it: the nodes that use it are counted, and the returns are not.
`returnedFork_outOfScope` is such a program.
-/

namespace Flowgraph

open List

variable {g g' copy : Graph} {v : ValueId} {f : Node → Node}

open Flowgraph.Graph

/-- The graph and the bodies that its nodes carry are well scoped, and so on down.  What is used
comes from a parameter or from a node that is still in a block. -/
inductive Graph.ScopedThroughout : Graph → Prop
  | intro {g : Graph} (hscoped : g.WellScoped)
      (hplaced : ∀ point v n, g.Uses point v → g.OutputOf v n →
        ∃ b block, g.block? b = some block ∧ n ∈ block.nodes)
      (hbodies : ∀ n node subgraph, g.node? n = some node → node.subgraph = some subgraph →
        ScopedThroughout subgraph) : ScopedThroughout g

/-- A graph as lowering builds it: everything is where it says it is, and can be walked; a closure
has one output, and no node carries a body yet. -/
structure Graph.WellBuilt (g : Graph) : Prop where
  coherent : g.Coherent
  distinct : ∀ block ∈ g.blocks, block.nodes.Nodup
  root : ∀ node ∈ g.nodes, root ∉ node.blocks
  walk : (g.walk Graph.root).isSome
  plain : ∀ node ∈ g.nodes, node.subgraph.isNone
  closure : ∀ node ∈ g.nodes, node.op = .closure → node.outputs.length = 1

/-- No block returns a closure that is forked. -/
def Graph.KeepsForked (g : Graph) : Prop :=
  ∀ node ∈ g.nodes, node.op = .forkClosure → ∀ closure ∈ node.inputs.head?,
    ∀ block ∈ g.blocks, closure ∉ block.results

/-! ## The invariant -/

/-- What lifting keeps, of the graph and of the bodies that are lifted. -/
structure Liftable (g : Graph) : Prop where
  inScope : g.InScope (fun _ => False) (.block root)
  traced : g.Traced
  closure : ∀ n node, g.node? n = some node → node.op = .closure → node.outputs.length = 1
  forked : g.KeepsForked
  bodies : ∀ n node subgraph, g.node? n = some node → node.subgraph = some subgraph →
    subgraph.ScopedThroughout

section Liftable

variable {g g' : Graph} {n : NodeId}

theorem Liftable.scopedThroughout (h : Liftable g) : g.ScopedThroughout := by
  have hscop := h.inScope.wellScoped
  refine .intro hscop (fun point v n huse hout => ?_) h.bodies
  obtain ⟨outer, -, hhere⟩ := hscop point v huse
  cases hhere with
  | param hb hv => exact absurd (h.traced.param _ _ v hb hv) hout.not_paramOf
  | output hn hnode hv =>
    obtain rfl := hout.unique (h.traced.output _ _ v hnode hv)
    obtain ⟨block, hb, hmem⟩ := mem_nodes_of_mem_before hn
    exact ⟨_, block, hb, hmem⟩

theorem Graph.Traced.mapNode (h : g.Traced) (houts : ∀ node, (f node).outputs = node.outputs) :
    (g.mapNode n f).Traced := by
  refine ⟨fun m made v hm hv => ?_, h.param⟩
  obtain ⟨node, hn, rfl | ⟨-, rfl⟩⟩ := exists_of_mapNode hm
  · exact h.output m made v hn hv
  · exact h.output m node v hn (houts node ▸ hv)

theorem Graph.Traced.removed (h : g.Traced) (n : NodeId) : (g.removed n).Traced := by
  have hvs : ∀ v, (g.removed n).value? v = g.value? v := by
    intro v
    unfold Graph.removed
    cases (g.node? n).bind NodeOf.owner <;> rfl
  have hout : ∀ {v m}, g.OutputOf v m → (g.removed n).OutputOf v m := by
    rintro v m ⟨value, slot, hvalue, horig⟩
    exact ⟨value, slot, (hvs v).trans hvalue, horig⟩
  have hp : ∀ {v b}, g.ParamOf v b → (g.removed n).ParamOf v b := by
    rintro v b ⟨value, slot, hvalue, horig⟩
    exact ⟨value, slot, (hvs v).trans hvalue, horig⟩
  refine ⟨fun m made v hm hv => ?_, fun b made v hm hv => ?_⟩
  · obtain ⟨node, hn, owner, rfl⟩ := exists_node?_of_removed hm
    exact hout (h.output m node v hn hv)
  · obtain ⟨block, hb, hps, -⟩ := exists_block?_of_removed hm
    exact hp (h.param b block v hb (hps ▸ hv))

theorem keepsForked_iff : g.KeepsForked ↔ ∀ n node closure args, g.node? n = some node →
    node.op = .forkClosure → node.inputs = closure :: args →
    ∀ b block, g.block? b = some block → closure ∉ block.results := by
  constructor
  · intro h n node closure args hn hop hins b block hb
    exact h node (mem_of_getElem? hn) hop closure (by simp [hins]) block (mem_of_getElem? hb)
  · intro h node hn hop closure hcl block hb
    obtain ⟨i, hi⟩ := mem_iff_getElem?.mp hn
    obtain ⟨j, hj⟩ := mem_iff_getElem?.mp hb
    obtain ⟨args, hargs⟩ := head?_eq_some_iff.mp hcl
    exact h ⟨i⟩ node closure args hi hop hargs ⟨j⟩ block hj

theorem Liftable.mapNode (h : Liftable g) (houts : ∀ node, (f node).outputs = node.outputs)
    (hbs : ∀ node, ∀ b ∈ (f node).blocks, b ∈ node.blocks)
    (hop : ∀ node, g.node? n = some node → (f node).op = node.op ∨ (f node).op = .fork)
    (hforked : ∀ node, g.node? n = some node → (f node).op ≠ .forkClosure)
    (hbodies : ∀ node subgraph, g.node? n = some node → (f node).subgraph = some subgraph →
      subgraph.ScopedThroughout) (hins : ∀ env node, g.node? n = some node → g.Closed env →
      (∀ v ∈ node.inputs, env v) → (∀ b ∈ node.blocks, g.InScope env (.block b)) →
      ∀ v ∈ (f node).inputs, env v) : Liftable (g.mapNode n f) := by
  have hlook : ∀ {m made}, (g.mapNode n f).node? m = some made →
      g.node? m = some made ∨ ∃ node, g.node? n = some node ∧ made = f node := by
    intro m made hm
    obtain ⟨node, hn, rfl | ⟨rfl, rfl⟩⟩ := exists_of_mapNode hm
    · exact Or.inl hn
    · exact Or.inr ⟨node, hn, rfl⟩
  refine ⟨h.inScope.mapNode (fun _ _ hfalse => hfalse.elim) h.traced houts hbs hins,
    h.traced.mapNode houts, fun m made hm hcl => ?_, ?_, fun m made subgraph hm hsub => ?_⟩
  · rcases hlook hm with hs | ⟨node, hn, rfl⟩
    · exact h.closure m made hs hcl
    · rw [houts]
      rcases hop node hn with heq | hfork
      · exact h.closure n node hn (heq ▸ hcl)
      · cases hfork.symm.trans hcl
  · rw [keepsForked_iff]
    intro m made closure args hm hfork hargs
    rcases hlook hm with hs | ⟨node, hn, rfl⟩
    · exact keepsForked_iff.mp h.forked m made closure args hs hfork hargs
    · exact absurd hfork (hforked node hn)
  · rcases hlook hm with hs | ⟨node, hn, rfl⟩
    · exact h.bodies m made subgraph hs hsub
    · exact hbodies node subgraph hn hsub

theorem Liftable.removed (h : Liftable g)
    (houts : ∀ node, g.node? n = some node → ∀ w ∈ node.outputs, w = v)
    (hins : ∀ m node, g.Placed m → g.node? m = some node → v ∉ node.inputs)
    (hres : ∀ b block, g.block? b = some block → v ∉ block.results) : Liftable (g.removed n) := by
  refine ⟨h.inScope.removed .root houts hins hres (fun _ => Or.inr) (fun _ => id) rfl,
    h.traced.removed n, fun m made hm hcl => ?_, ?_, fun m made subgraph hm hsub => ?_⟩
  · obtain ⟨node, hn, owner, rfl⟩ := exists_node?_of_removed hm
    exact h.closure m node hn hcl
  · rw [keepsForked_iff]
    intro m made closure args hm hfork hargs b block' hb'
    obtain ⟨node, hn, owner, rfl⟩ := exists_node?_of_removed hm
    obtain ⟨block, hb, -, hres', -⟩ := exists_block?_of_removed hb'
    rw [hres']
    exact keepsForked_iff.mp h.forked m node closure args hn hfork hargs b block hb
  · obtain ⟨node, hn, owner, rfl⟩ := exists_node?_of_removed hm
    exact h.bodies m node subgraph hn hsub

theorem Liftable.copied (h : Liftable g) {body : BlockId} {captured : List ValueId}
    {l : Ledger} (hcop : Copied g copy body captured l)
    (hsc : copy.InScope (fun _ => False) (.block root)) : Liftable copy := by
  obtain ⟨block, made, hb, hm, -, hret, -, horig⟩ := hcop.root
  refine ⟨hsc, ⟨fun m node v hn hv => ?_, fun b block' v hb' hv => ?_⟩,
    fun m node hn hop => ?_, ?_, fun m node subgraph hn hsub => ?_⟩
  · obtain ⟨_, _, -, -, hcopy⟩ := hcop.node m node hn
    exact hcopy.origin v hv
  · by_cases hroot : b = root
    · subst hroot
      cases hm.symm.trans hb'
      exact horig v hv
    · obtain ⟨_, _, -, -, hcopy⟩ := hcop.block b block' hb' hroot
      exact hcopy.origin v hv
  · obtain ⟨n, old, -, hold, hcopy⟩ := hcop.node m node hn
    rw [hcopy.outputs.length_eq]
    exact h.closure n old hold (hcopy.op ▸ hop)
  · rw [keepsForked_iff]
    intro m node closure args hn hfork hargs b block' hb' hmem
    obtain ⟨n, old, -, hold, hcopy⟩ := hcop.node m node hn
    have hins := hcopy.inputs
    rw [hargs] at hins
    obtain ⟨v, rest, hstd, -, hr⟩ := forall₂_cons_left_iff.mp hins
    have hkept := keepsForked_iff.mp h.forked n old v rest hold (hcopy.op ▸ hfork) hr
    obtain ⟨from', source, hsrc, hres⟩ : ∃ b block, g.block? b = some block ∧
        Forall₂ l.Stands block'.results block.results := by
      by_cases hroot : b = root
      · subst hroot
        cases hm.symm.trans hb'
        exact ⟨body, block, hb, hret⟩
      · obtain ⟨old, source, -, hsrc, hcopy⟩ := hcop.block b block' hb' hroot
        exact ⟨old, source, hsrc, hcopy.results⟩
    obtain ⟨u, hu, hstands'⟩ := Ledger.exists_of_forall₂ hres hmem
    exact hkept from' source hsrc (Option.some.inj (hstd.symm.trans hstands') ▸ hu)
  · obtain ⟨n, old, -, hold, hcopy⟩ := hcop.node m node hn
    exact h.bodies n old subgraph hold (hcopy.subgraph ▸ hsub)

end Liftable

theorem Lifting.liftable (h : Lifting g g') (hliftable : Liftable g) : Liftable g' := by
  induction h with
  | refl => exact hliftable
  | @lower g dropped g' subgraph n producer fork node closure args hpl hforks hdrop _ ih =>
      apply ih
      have hlow : Liftable (g.lowered n (args ++ node.inputs) subgraph) := by
        refine hliftable.mapNode (fun _ => rfl) (fun _ _ => id) (fun _ _ => Or.inr rfl)
          (fun _ _ hfalse => by cases hfalse) (fun _ carried _ hcarried => ?_) ?_
        · obtain rfl := Option.some.inj hcarried
          exact hliftable.bodies producer node subgraph hforks.there hforks.carries
        · intro env again hagain hclosed huses _ v hv
          cases hforks.here.symm.trans hagain
          rw [hforks.inputs] at huses
          rcases mem_append.mp hv with harg | hcapt
          · exact huses v (mem_cons_of_mem _ harg)
          · exact hclosed closure producer (huses closure mem_cons_self) hforks.output node
              hforks.there v hcapt
      rcases hdrop with rfl | ⟨huses, rfl⟩
      · exact hlow
      · refine hlow.removed (v := closure) (fun made hmade w hw => ?_)
          (fun m made hpl hmade => not_mem_inputs_of_uses huses hpl hmade)
          (keepsForked_iff.mp hliftable.forked n fork closure args hforks.here hforks.op
            hforks.inputs)
        obtain rfl := Option.some.inj (hmade.symm.trans (hforks.node?_lowered _))
        -- The fork sees the closure, so that the closure is the one output of its producer.
        obtain ⟨b, block, hreach, hb, hn⟩ := hpl
        have huse : g.Uses ⟨b, some n⟩ closure :=
          .input hreach hb hn hforks.here (hforks.inputs ▸ mem_cons_self)
        obtain ⟨outer, -, hhere⟩ := hliftable.inScope.wellScoped _ _ huse
        cases hhere with
        | param hb' hv =>
          exact absurd (hliftable.traced.param _ _ _ hb' hv) hforks.output.not_paramOf
        | output hm hn' hv =>
          obtain rfl := hforks.output.unique (hliftable.traced.output _ _ _ hn' hv)
          obtain rfl := Option.some.inj (hforks.there.symm.trans hn')
          obtain ⟨only, hsingle⟩ := length_eq_one_iff.mp
            (hliftable.closure producer made hforks.there hforks.made)
          rw [hsingle] at hw hv
          exact (mem_singleton.mp hw).trans (mem_singleton.mp hv).symm
  | @lift g extracted subgraph g' n node body others captured hpl hnode hop hbs hextract
      _ _ _ ihinner ihrest =>
      apply ihrest
      obtain ⟨l, rfl, hmir⟩ := hextract.mirrorsBody
      have hbody : body ∈ node.blocks := hbs ▸ mem_cons_self
      -- The body is read where the closure stands.
      obtain ⟨around, haround⟩ : ∃ around, g.InScope around (.block body) := by
        obtain ⟨b, block, hreach, hb, hn⟩ := hpl
        obtain ⟨env, hsc, -⟩ := hliftable.inScope.reachable hreach
        cases hsc with
        | block hagain hns =>
        cases hb.symm.trans hagain
        obtain ⟨again, inside, hagain, -, hin, -⟩ := hns.before hn
        cases hnode.symm.trans hagain
        exact ⟨inside, hin body hbody⟩
      have hinside := ihinner (hliftable.copied hmir.copied (hmir.inScope haround).1)
      refine hliftable.mapNode (fun _ => rfl) (fun _ _ hnone => by cases hnone)
        (fun _ _ => Or.inl rfl) (fun again hagain => ?_) (fun _ carried _ hcarried => ?_) ?_
      · cases hnode.symm.trans hagain
        simp [hop]
      · obtain rfl := Option.some.inj hcarried
        exact hinside.scopedThroughout
      · intro env again hagain _ _ hscopes v hv
        cases hnode.symm.trans hagain
        exact (hmir.inScope (hscopes body hbody)).2 v hv

theorem Graph.WellBuilt.liftable (hbuilt : g.WellBuilt)
    (hscop : g.WellScoped) (hforked : g.KeepsForked) : Liftable g where
  inScope := by
    obtain ⟨nodes, hwalk⟩ := Option.isSome_iff_exists.mp hbuilt.walk
    exact inScope_of_wellScoped hbuilt.coherent
      (fun _ _ hb => hbuilt.distinct _ (mem_of_getElem? hb)) hscop
      (fun _ _ hn => hbuilt.root _ (mem_of_getElem? hn)) ⟨nodes, hwalk⟩
  traced := hbuilt.coherent.traced
  closure _ _ hn := hbuilt.closure _ (mem_of_getElem? hn)
  forked := hforked
  bodies _ _ _ hn hsub := by
    have hnone := hbuilt.plain _ (mem_of_getElem? hn)
    rw [hsub] at hnone
    cases hnone

theorem Graph.WellBuilt.emptied (hbuilt : g.WellBuilt) : g.Emptied := by
  intro n node hn _ hsome
  have hnone := hbuilt.plain node (mem_of_getElem? hn)
  rw [Option.isNone_iff_eq_none.mp hnone] at hsome
  cases hsome

/-- Lifting a well-scoped graph gives a graph that is well scoped throughout, as long as no block
returns a closure that is forked. -/
theorem Graph.liftClosures_scopedThroughout {graph lifted : Graph} (hbuilt : graph.WellBuilt)
    (hscoped : graph.WellScoped) (hforked : graph.KeepsForked)
    (h : graph.liftClosures = .ok lifted) : lifted.ScopedThroughout :=
  ((liftClosures_run hbuilt.emptied h).1.liftable
    (hbuilt.liftable hscoped hforked)).scopedThroughout

/-! ## Programs -/

instance decidableLifts (g : Graph) (P : Graph → Prop) [DecidablePred P] :
    Decidable (∃ lifted, g.liftClosures = .ok lifted ∧ P lifted) :=
  match g.liftClosures with
  | .error _ => .isFalse fun ⟨_, heq, _⟩ => nomatch heq
  | .ok lifted =>
    decidable_of_iff (P lifted)
      ⟨fun hp => ⟨lifted, rfl, hp⟩, fun ⟨_, heq, hp⟩ => Except.ok.inj heq ▸ hp⟩

instance (g : Graph) : Decidable g.KeepsForked :=
  inferInstanceAs (Decidable (∀ _ ∈ _, _))

/-- A compiled graph is coherent, and the rest of what lifting relies on can be evaluated. -/
theorem Def.wellBuilt_of_compile {definition : Def} {compiled : Compiled}
    (h : definition.compile Host.empty { liftClosures := false } = .ok compiled)
    (hdist : ∀ block ∈ compiled.graph.blocks, block.nodes.Nodup)
    (hroot : ∀ node ∈ compiled.graph.nodes, root ∉ node.blocks)
    (hwalk : (compiled.graph.walk root).isSome)
    (hplain : ∀ node ∈ compiled.graph.nodes, node.subgraph.isNone)
    (hcl : ∀ node ∈ compiled.graph.nodes, node.op = .closure → node.outputs.length = 1) :
    compiled.graph.WellBuilt := by
  obtain ⟨t, output, hwf, -, -, hg⟩ := Def.toGraph_emission (Def.toGraph_of_compile rfl h)
  exact ⟨hg ▸ hwf.coherent.withResult root output, hdist, hroot, hwalk, hplain, hcl⟩

/-- `def g(): return 1`, `u = fork(g)`, then `return g if c else g`. -/
def returnedFork : Def where
  name := ⟨"f", .null⟩
  params := [⟨⟨"c", .null⟩, some (.var .null "bool")⟩]
  body :=
    [.define .null
      { name := ⟨"g", .null⟩, params := [], body := [.ret .null (some (.const .null (.int 1)))] },
    .assign .null (.var .null "u") none
      (some (.call .null (.var .null "fork") [.var .null "g"] [])),
    .ret .null (some (.ternary .null (.var .null "c") (.var .null "g") (.var .null "g")))]

/-- What of `Graph.WellBuilt` is evaluated. -/
def Graph.LooksBuilt (g : Graph) : Prop :=
  (∀ block ∈ g.blocks, block.nodes.Nodup) ∧ (∀ node ∈ g.nodes, root ∉ node.blocks) ∧
    (g.walk root).isSome ∧ (∀ node ∈ g.nodes, node.subgraph.isNone) ∧
    ∀ node ∈ g.nodes, node.op = .closure → node.outputs.length = 1

instance (g : Graph) : Decidable g.LooksBuilt :=
  inferInstanceAs (Decidable (_ ∧ _))

/-- The value comes from no block and no node in a block. -/
def Graph.Nowhere (g : Graph) (v : ValueId) : Prop :=
  ∀ block ∈ g.blocks, v ∉ block.params ∧ ∀ n ∈ block.nodes, ∀ node ∈ g.node? n, v ∉ node.outputs

instance (g : Graph) (v : ValueId) : Decidable (g.Nowhere v) :=
  inferInstanceAs (Decidable (∀ _ ∈ _, _))

theorem Graph.Nowhere.not_visible (h : g.Nowhere v) (point : InsertPoint) :
    ¬ g.Visible point v := by
  rintro ⟨outer, -, hhere⟩
  cases hhere with
  | param hb hv => exact (h _ (mem_of_getElem? hb)).1 hv
  | output hn hnode hv =>
    obtain ⟨block, hb, hmem⟩ := mem_nodes_of_mem_before hn
    exact (h block (mem_of_getElem? hb)).2 _ hmem _ hnode hv

/-- A block nested in the root returns a value that comes from nowhere. -/
def Graph.ReturnsDropped (g : Graph) : Prop :=
  ∃ block ∈ g.block? root, ∃ n ∈ block.nodes, ∃ node ∈ g.node? n,
    ∃ inner ∈ node.blocks, ∃ side ∈ g.block? inner, ∃ v ∈ side.results, g.Nowhere v

set_option synthInstance.maxSize 1000 in
instance (g : Graph) : Decidable g.ReturnsDropped :=
  inferInstanceAs (Decidable (∃ _ ∈ _, _))

theorem Graph.ReturnsDropped.not_wellScoped (h : g.ReturnsDropped) : ¬ g.WellScoped := by
  obtain ⟨block, hb, n, hn, node, hnode, inner, hin, side, hside, v, hv, hnowhere⟩ := h
  have huse : g.Uses ⟨inner, none⟩ v := .result (.nested .root hb hn hnode hin) hside hv
  exact fun hscop => hnowhere.not_visible _ (hscop _ v huse)

/-- The two sides of the choice return the closure, and it is dropped when its fork is lowered. -/
theorem returnedFork_outOfScope : ∃ compiled,
    returnedFork.compile Host.empty { liftClosures := false } = .ok compiled ∧
      compiled.graph.WellBuilt ∧ compiled.graph.WellScoped ∧
      ∃ lifted, compiled.graph.liftClosures = .ok lifted ∧ ¬ lifted.WellScoped := by
  obtain ⟨compiled, hcompiled, ⟨hdistinct, hroot, hwalk, hplain, hclosure⟩, hnear, lifted, hlifted,
      hdropped⟩ :
      ∃ compiled, returnedFork.compile Host.empty { liftClosures := false } = .ok compiled ∧
        compiled.graph.LooksBuilt ∧ compiled.graph.AllNear ∧
        ∃ lifted, compiled.graph.liftClosures = .ok lifted ∧ lifted.ReturnsDropped := by
    decide +kernel
  exact ⟨compiled, hcompiled,
    Def.wellBuilt_of_compile hcompiled hdistinct hroot hwalk hplain hclosure,
      hnear.wellScoped, lifted,
    hlifted, hdropped.not_wellScoped⟩

/-- `def g(y: int): return x + y`, `u = fork(g, 1)`, `def h(): return fork(g, 2)` and `return h` -/
def forkedTwice : Def where
  name := ⟨"f", .null⟩
  params := [⟨⟨"x", .null⟩, some (.var .null "int")⟩]
  body :=
    [.define .null
      { name := ⟨"g", .null⟩
        params := [⟨⟨"y", .null⟩, some (.var .null "int")⟩]
        body := [.ret .null (some (.binary .null .add (.var .null "x") (.var .null "y")))] },
    .assign .null (.var .null "u") none
      (some (.call .null (.var .null "fork") [.var .null "g", .const .null (.int 1)] [])),
    .define .null
      { name := ⟨"h", .null⟩
        params := []
        body := [.ret .null
          (some (.call .null (.var .null "fork") [.var .null "g", .const .null (.int 2)] []))] },
    .ret .null (some (.var .null "h"))]

/-- The closure is forked both in the body and in another closure, and is dropped. -/
theorem forkedTwice_scopedThroughout : ∃ compiled,
    forkedTwice.compile Host.empty { liftClosures := false } = .ok compiled ∧
      compiled.graph.WellBuilt ∧ compiled.graph.WellScoped ∧ compiled.graph.KeepsForked ∧
      ∃ lifted, compiled.graph.liftClosures = .ok lifted ∧ lifted.ScopedThroughout := by
  obtain ⟨compiled, hcompiled, ⟨hdistinct, hroot, hwalk, hplain, hclosure⟩, hnear, hforked, lifted,
      hlifted, -⟩ :
      ∃ compiled, forkedTwice.compile Host.empty { liftClosures := false } = .ok compiled ∧
        compiled.graph.LooksBuilt ∧ compiled.graph.AllNear ∧ compiled.graph.KeepsForked ∧
        ∃ lifted, compiled.graph.liftClosures = .ok lifted ∧
          ∃ node ∈ lifted.nodes, node.op = .closure ∧ node.owner = none := by
    decide +kernel
  have hbuilt := Def.wellBuilt_of_compile hcompiled hdistinct hroot hwalk hplain hclosure
  exact ⟨compiled, hcompiled, hbuilt, hnear.wellScoped, hforked, lifted, hlifted,
    liftClosures_scopedThroughout hbuilt hnear.wellScoped hforked hlifted⟩

end Flowgraph
