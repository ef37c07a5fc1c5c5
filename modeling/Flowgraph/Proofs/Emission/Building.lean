import Flowgraph.Proofs.Emission.Preservation
import Flowgraph.Proofs.Graph.Arena

/-!
# How lowering builds its graph

`Graph.Builds` is what an emission does to the graph and to the pool of its numbers: nodes are
attached, and values, blocks, inputs and results are added to what is there.  It forgets where the
insertion point stands and what the names mean.
-/

namespace Flowgraph

open Flowgraph.Graph LowerState

namespace Graph

/-- A graph with the pool of its numbers. -/
abbrev Stock := Graph × List (Literal × ValueId)

/-- The updates that lowering uses, one after the other. -/
inductive Builds : Stock → Stock → Prop
  | refl (k : Stock) : Builds k k
  | trans {first second third : Stock} : Builds first second → Builds second third →
      Builds first third
  | attach {k : Stock} {arrange : List NodeId → List NodeId} {node : Node} {types : List Ty}
      (b : BlockId) (harrange : Arranges k.1.freshNode arrange) (hblocks : node.blocks = [])
      (hsubgraph : node.subgraph = none) (hclosure : node.op = .closure → types.length = 1)
      (hnumber : node.number? = none) : Builds k (k.1.attach b arrange node types, k.2)
  | number {k : Stock} {value : Literal} {ty : Ty} (hnumber : value.numberType? = some ty)
      (hnew : ∀ entry ∈ k.2, entry.1 ≠ value) : Builds k (k.1.placeAtRoot k.2.length
          { op := .constant, inputs := [], attrs := [("value", value)] } [ty],
        (value, k.1.freshValue) :: k.2)
  | output {k : Stock} {n : NodeId} {node : Node} (hnode : k.1.node? n = some node)
      (hop : node.op = .branch) (ty : Ty) : Builds k (k.1.withOutput n ty, k.2)
  | param {k : Stock} {b : BlockId} (hb : b.index < k.1.blocks.length) (ty : Ty) :
      Builds k (k.1.withParam b ty, k.2)
  | block {k : Stock} {n : NodeId} (hn : n.index < k.1.nodes.length) :
      Builds k (k.1.withBlock n, k.2)
  | input (k : Stock) (n : NodeId) (v : ValueId) : Builds k (k.1.withInput n v, k.2)
  | result (k : Stock) (b : BlockId) (v : ValueId) : Builds k (k.1.withResult b v, k.2)
  | retype {k : Stock} {v : ValueId} (hv : ∀ entry ∈ k.2, entry.2 ≠ v) (ty : Ty) :
      Builds k (k.1.retype v ty, k.2)
  | named (k : Stock) (v : ValueId) (label : Option String) : Builds k (k.1.named v label, k.2)

/-- No node carries a body, and a closure has one output. -/
def Unlifted (g : Graph) : Prop :=
  ∀ n node, g.node? n = some node →
    node.subgraph = none ∧ (node.op = .closure → node.outputs.length = 1)

namespace Builds

variable {k k' : Stock}

theorem keeps (h : Builds k k') : k.1.blocks.length ≤ k'.1.blocks.length ∧
    ∀ n node, k.1.node? n = some node → ∃ node', k'.1.node? n = some node' ∧
      node'.op = node.op := by
  have hattach : ∀ (g : Graph) (b : BlockId) (arrange : List NodeId → List NodeId) (made : Node)
      (types : List Ty), g.blocks.length ≤ (g.attach b arrange made types).blocks.length ∧
        ∀ n node, g.node? n = some node → ∃ node',
          (g.attach b arrange made types).node? n = some node' ∧ node'.op = node.op := by
    refine fun g b _ _ _ => ⟨by simp [Graph.attach], fun n node hn => ⟨node, ?_, rfl⟩⟩
    rw [node?_attach, if_neg (ne_freshNode hn), hn]
  have hmap : ∀ (g : Graph) (n : NodeId) (f : Node → Node), (∀ node, (f node).op = node.op) →
      ∀ m node, g.node? m = some node → ∃ node', (g.mapNode n f).node? m = some node' ∧
        node'.op = node.op := by
    intro g n f hf m node hn
    rw [node?_mapNode, hn]
    split
    · exact ⟨_, rfl, hf node⟩
    · exact ⟨node, rfl, rfl⟩
  induction h with
  | refl | retype | named => exact ⟨Nat.le_refl _, fun _ node hn => ⟨node, hn, rfl⟩⟩
  | trans _ _ ih ih' =>
    refine ⟨Nat.le_trans ih.1 ih'.1, fun n node hn => ?_⟩
    obtain ⟨node₁, hnode₁, hop₁⟩ := ih.2 n node hn
    obtain ⟨node₂, hnode₂, hop₂⟩ := ih'.2 n node₁ hnode₁
    exact ⟨node₂, hnode₂, hop₂.trans hop₁⟩
  | attach | number => exact hattach ..
  | output | input => exact ⟨Nat.le_refl _, hmap _ _ _ fun _ => rfl⟩
  | param => exact ⟨by simp [withParam, pushValue], fun _ node hn => ⟨node, hn, rfl⟩⟩
  | block => exact ⟨by simp [withBlock, pushBlock], hmap _ _ _ fun _ => rfl⟩
  | result => exact ⟨by simp [withResult], fun _ node hn => ⟨node, hn, rfl⟩⟩

theorem place {node : Node} {types : List Ty} (k : Stock) (p : InsertPoint)
    (hbs : node.blocks = []) (hsub : node.subgraph = none)
    (hcl : node.op = .closure → types.length = 1) (hnum : node.number? = none) :
    Builds k (k.1.place p node types, k.2) :=
  .attach p.block (arranges_placeIn p.before _) hbs hsub hcl hnum

/-! ## What building keeps -/

theorem homed (h : Builds k k') (hhomed : k.1.Homed) : k'.1.Homed := by
  induction h with
  | refl => exact hhomed
  | trans _ _ ih ih' => exact ih' (ih hhomed)
  | attach | number => exact hhomed.attach _ _ _ _
  | output hn _ ty => exact hhomed.withOutput hn ty
  | @param k b hb ty =>
    obtain ⟨block, hblock⟩ := (exists_block?_iff k.1 b).mpr hb
    exact hhomed.withParam hblock ty
  | block => exact hhomed.withBlock _
  | input => exact hhomed.mapNode _ fun _ => rfl
  | result => exact hhomed.mapBlock _ fun _ => rfl
  | retype | named => exact hhomed.mapValue _ fun _ => rfl

theorem treelike (h : Builds k k') (htree : k.1.Treelike) : k'.1.Treelike := by
  induction h with
  | refl => exact htree
  | trans _ _ ih ih' => exact ih' (ih htree)
  | attach _ harr hbs => exact htree.attach harr hbs _
  | number => exact htree.attach (arranges_atPosition _ _) rfl _
  | output => exact htree.withOutput _ _
  | param => exact htree.withParam _ _
  | @block k n hn =>
    obtain ⟨node, hnode⟩ := (exists_node?_iff k.1 n).mpr hn
    exact htree.withBlock hnode
  | input _ n => exact htree.mapNode n (fun _ => rfl) fun _ => .refl _
  | result _ b v => exact htree.withResult b v
  | retype | named => exact htree.trim (.of_eq (fun _ => rfl) fun _ => rfl)

theorem unlifted (h : Builds k k') (hunl : k.1.Unlifted) : k'.1.Unlifted := by
  have hmap : ∀ (g : Graph) {n : NodeId} {f : Node → Node}, g.Unlifted →
      (∀ node, g.node? n = some node → (f node).op = node.op ∧ (f node).subgraph = node.subgraph ∧
          (node.op = .closure → (f node).outputs = node.outputs)) → (g.mapNode n f).Unlifted := by
    intro g n f hunl hf m node' hn'
    obtain ⟨node, hn, rfl | ⟨heq, rfl⟩⟩ := exists_of_mapNode hn'
    · exact hunl m node' hn
    · obtain ⟨hop, hsub, houts⟩ := hf node (heq ▸ hn)
      obtain ⟨hnone, hone⟩ := hunl m node hn
      exact ⟨hsub.trans hnone, fun hcl =>
        houts (hop ▸ hcl) ▸ hone (hop ▸ hcl)⟩
  have hattach : ∀ {g : Graph} {b : BlockId} {arrange : List NodeId → List NodeId} {node : Node}
      {types : List Ty}, g.Unlifted → node.subgraph = none →
        (node.op = .closure → types.length = 1) → (g.attach b arrange node types).Unlifted := by
    intro g b arrange node types hunl hsub hcl m made hm
    rw [node?_attach] at hm
    split at hm
    · cases hm
      exact ⟨hsub, fun hop => by simp [freshValues, hcl hop]⟩
    · exact hunl m made hm
  induction h with
  | refl => exact hunl
  | trans _ _ ih ih' => exact ih' (ih hunl)
  | attach b _ _ hsub hcl => exact hattach hunl hsub hcl
  | number => exact hattach hunl rfl fun hop => by cases hop
  | output hn hop =>
    refine hmap (pushValue _ _) hunl fun found hfd => ⟨rfl, rfl, fun hcl => ?_⟩
    cases hn.symm.trans hfd
    simp [hop] at hcl
  | param => exact hunl
  | block => exact hmap (pushBlock _ _) hunl fun _ _ => ⟨rfl, rfl, fun _ => rfl⟩
  | input => exact hmap _ hunl fun _ _ => ⟨rfl, rfl, fun _ => rfl⟩
  | result => exact hunl
  | retype => exact hunl
  | named => exact hunl

end Builds

end Graph

/-! ## Emissions build -/

variable {s t : LowerState} {node : Node} {n : NodeId}

abbrev LowerState.stock (s : LowerState) : Stock := (s.graph, s.builder.pool)

theorem LowerState.builds_withResults (s : LowerState) (b : BlockId) (results : List ValueId) :
    Builds s.stock (s.withResults b results).stock :=
  List.foldlRecOn (motive := fun g => Builds s.stock (g, s.builder.pool)) results _ (.refl _)
    fun _ h v _ => h.trans (.result _ b v)

theorem LowerState.builds_withOutputs (hn : s.graph.node? n = some node) (hop : node.op = .branch)
    (types : List Ty) : Builds s.stock (s.withOutputs n types).stock := by
  induction types generalizing s node with
  | nil => exact .refl _
  | cons ty rest ih =>
    have hfirst : Builds s.stock (s.withGraph (s.graph.withOutput n ty)).stock := .output hn hop ty
    obtain ⟨node', hn', hop'⟩ := hfirst.keeps.2 n node hn
    exact hfirst.trans (ih (s := s.withGraph (s.graph.withOutput n ty)) hn' (hop'.trans hop))

theorem LowerState.builds_declareAll {b : BlockId} (hb : b.index < s.graph.blocks.length)
    (params : List ParamDecl) : Builds s.stock (s.declareAll b params).stock := by
  refine List.foldlRecOn (motive := fun t : LowerState => Builds s.stock t.stock) params _ (.refl _)
    fun t h param _ => h.trans ?_
  exact ((Builds.param (Nat.lt_of_lt_of_le hb h.keeps.1) param.ty).trans
    (.named _ _ param.label)).trans (.place _ t.point rfl rfl (fun hop => by
      simp [storeNode] at hop) rfl)

theorem Merge.builds {a b : Lower.BranchSide} (h : Merge n a b s t)
    (hn : s.graph.node? n = some node) (hop : node.op = .branch) : Builds s.stock t.stock := by
  have hreturn :
    ∀ (s : LowerState) (b : BlockId) (name : String) (side : Lower.SideType) (span : Span)
      (label : Option String), Builds s.stock (s.returnFrom b name side span label).stock :=
    fun s b name side span label => ((Builds.place s.stock _ rfl rfl (fun hop => by
      simp [loadNode] at hop) rfl).trans (.named _ _ label)).trans (.result _ b _)
  induction h generalizing node with
  | refl => exact .refl _
  | trans _ _ ih ih' =>
    have hfirst := ih hn hop
    obtain ⟨node', hn', hop'⟩ := hfirst.keeps.2 n node hn
    exact hfirst.trans (ih' hn' (hop'.trans hop))
  | @joined s name typeA typeB joined span labelA labelB label _ _ _ =>
    have hreturns := (hreturn s a.block name (a.typed s.scope name typeA) span labelA).trans
      (hreturn _ b.block name (b.typed s.scope name typeB) span labelB)
    obtain ⟨node', hn', hop'⟩ := hreturns.keeps.2 n node hn
    exact hreturns.trans (((Builds.output hn' (hop'.trans hop) joined).trans
      (.named _ _ label)).trans (.place _ _ rfl rfl (fun hop => by simp [storeNode] at hop) rfl))
  | shared => exact .refl _
  | @survivor s name binding _ => cases binding <;> exact .refl _
  | defer => exact .refl _

theorem Graph.lt_of_freshNode_place {g : Graph} {p : InsertPoint} {types : List Ty} :
    g.freshNode.index < (g.place p node types).nodes.length := by
  simp [place, attach, freshNode]

theorem Graph.Builds.lt_nodes {k k' : Stock} (h : Builds k k') (hn : n.index < k.1.nodes.length) :
    n.index < k'.1.nodes.length := by
  obtain ⟨node, hnode⟩ := (exists_node?_iff k.1 n).mpr hn
  obtain ⟨node', hn', -⟩ := h.keeps.2 n node hnode
  exact index_lt_of_node? hn'

section Loop

variable {s₁ s₂ s₃ : LowerState} {trip first next : ValueId} {span : Span}

theorem LowerState.builds_loopBody (trip first : ValueId)
    (hfirst : Builds (s.beforeLoop span).stock s₁.stock) :
    Builds s.stock (s.loopBody s₁ trip first).stock ∧
      s.graph.freshNode.index < (s.loopBody s₁ trip first).graph.nodes.length := by
  have hpl : Builds s.stock (s.beforeLoop span).stock :=
    .place s.stock s.point rfl rfl (fun hop => by simp at hop) rfl
  have hn₁ := hfirst.lt_nodes (n := s.graph.freshNode) lt_of_freshNode_place
  have hins : Builds s₁.stock ((s₁.graph.withInput s.graph.freshNode trip).withInput
      s.graph.freshNode first, s₁.builder.pool) := (Builds.input ..).trans (.input ..)
  have hopn : Builds s₁.stock (s.loopBody s₁ trip first).stock := by
    have hb := hins.trans (.block (hins.lt_nodes hn₁))
    refine hb.trans (.param ?_ .int)
    show s₁.graph.blocks.length < (s₁.graph.blocks ++ _).length
    simp
  exact ⟨(hpl.trans hfirst).trans hopn, hopn.lt_nodes hn₁⟩

theorem LowerState.builds_loop (hfirst : Builds (s.beforeLoop span).stock s₁.stock)
    (hbody : Builds (s.loopBody s₁ trip first).stock s₂.stock)
    (hnext : Builds (s.loopNext s₂).stock s₃.stock) :
    Builds s.stock (s.afterLoop s₂ s₃ next).stock := by
  obtain ⟨hopn, hn⟩ := builds_loopBody trip first hfirst
  have hb : Builds s₂.stock (s.loopNext s₂).stock := .block (hbody.lt_nodes hn)
  exact ((hopn.trans hbody).trans (hb.trans hnext)).trans
    (builds_withResults (s₃.leave s.point) s₂.graph.freshBlock [next])

end Loop

theorem Emission.builds {A : Prop} {H : List ValueId} (h : Emission A H s t)
    (hwf : WellFormed H s) : Builds s.stock t.stock := by
  induction h with
  | refl => exact .refl _
  | trans hfirst _ ih ih' => exact (ih hwf).trans (ih' (hfirst.sound hwf).1)
  | @node _ s _ _ hplain hbs hsub _ _ _ hnum =>
    exact .place s.stock s.point hbs hsub (fun hop => by simp [hop, Op.isPlain] at hplain) hnum
  | pooled _ _ hnum hnew => exact .number hnum hnew
  | named => exact .named ..
  | input => exact .param hwf.blocks_pos _
  | read => exact .place _ _ rfl rfl (fun hop => by simp [loadNode] at hop) rfl
  | store | narrow => exact .place _ _ rfl rfl (fun hop => by simp [storeNode] at hop) rfl
  | entity => exact .refl _
  | defer => exact .refl _
  | merged => exact .refl _
  | narrowing _ ih => exact ih hwf.narrowing
  | inLoop kind _ ih => exact ih (hwf.of_same rfl (.refl _))
  | @branch _ s s₁ s₂ t condition span a b resultsA resultsB outputs hcond _ hbs ha hendA hb hendB _
      hmerge iha ihb =>
    have hpts := BranchParts.of_sound hwf hcond hbs ha.sound hendA hb.sound hendB
    have hpl : Builds s.stock (s.place { op := .branch, inputs := [condition], span } []).stock :=
      .place s.stock s.point rfl rfl (fun hop => by simp at hop) rfl
    have hn : s.graph.freshNode.index < (s.place { op := .branch, inputs := [condition], span }
        []).graph.nodes.length := lt_of_freshNode_place
    have hfirst := Builds.block (k := (s.place { op := .branch, inputs := [condition], span }
      []).stock) hn
    -- The sides and their results, as seen from the branch node.
    have hA := (hfirst.trans (.block (hfirst.lt_nodes hn))).trans (iha hpts.first.start)
    have hmid := hA.trans (builds_withResults (s₁.leave s.point) a.block resultsA)
    have hlast := (hmid.trans (ihb hpts.second.start)).trans
      (builds_withResults (s₂.leave s.point) b.block resultsB)
    obtain ⟨node, hnode, hop⟩ := hlast.keeps.2 _ _ (node?_place_fresh s.point)
    have houts := builds_withOutputs hnode hop outputs
    obtain ⟨node', hn', hop'⟩ := houts.keeps.2 _ node hnode
    exact ((hpl.trans hlast).trans houts).trans (hmerge.builds hn' (hop'.trans hop))
  | loop span hfirst htrip _ hcond _ hbody hnext hret _ ihfirst ihbody ihnext =>
    have hpts := LoopParts.of_sound hwf hfirst.sound htrip hcond
      (fun hstart => hbody.sound hstart.entry) hnext.sound fun _ => hret
    exact builds_loop (ihfirst hpts.start.start) (ihbody hpts.body.start) (ihnext hpts.again.start)
  | @comprehension _ s s₀ s₁ s₂ trip first v ty filled span hiter hfirst htrip _ hcond _
      hbody helem _ _ ihiter ihfirst ihbody =>
    have hpts := ComprehensionParts.of_sound hwf hiter.sound hfirst.sound htrip hcond hbody.sound
      helem ty filled
    have hlist : Builds s.stock (s.placeList span).stock :=
      .place s.stock s.point rfl rfl (fun hop => by simp at hop) rfl
    have hfill : Builds s₂.stock (s₂.fill s.graph.freshValue v ty filled span).stock := by
      refine (Builds.retype (fun entry he heq => ?_) _).trans
        (.place _ _ rfl rfl (fun hop => by simp at hop) rfl)
      -- The list is hidden while it is filled, and no value of the pool is.
      exact (hpts.fill.start.held_pooled he).1 (heq ▸ .head _)
    refine (hlist.trans (ihiter hpts.iter.start)).trans (builds_loop (ihfirst hpts.loop.start.start)
      ((ihbody hpts.body.start).trans hfill) ?_)
    exact .place _ _ rfl rfl (fun hop => by simp [constantNode] at hop) rfl
  | @closure _ s s₁ result ty params span name body _ _ hbody hret _ ih =>
    have hpts := ClosureParts.of_sound hwf hbody.sound hret
    have hopn : Builds s.stock (s.openClosure span).stock :=
      (Builds.place s.stock s.point rfl rfl (fun _ => rfl) rfl).trans (.block lt_of_freshNode_place)
    have hb : s.graph.freshBlock.index < (s.openClosure span).graph.blocks.length := by
      show s.graph.blocks.length < (s.graph.blocks.modify _ _ ++ _).length
      simp
    have hdecl := hopn.trans (builds_declareAll (s := (s.openClosure span).enterBody
      s.graph.freshBlock (some s.graph.freshNode) body) hb params)
    exact (hdecl.trans (ih hpts.declared.start)).trans
      (builds_withResults (s₁.leaveBody s.point) s.graph.freshBlock [result])
  | fork => exact .place _ _ rfl rfl (fun hop => by simp at hop) rfl

end Flowgraph
