import Flowgraph.Proofs.Lowering.Names

/-!
# Running inside blocks

What happens when an action runs in a block of a new node.  The facts that held before the node was
placed hold in its blocks as well (`Carries`), so that the parts of a branch, a loop or a closure
are verified from the same facts as their surroundings.
-/

namespace Flowgraph

open Build Flowgraph.Graph List

/-! ## Facts from outside a block hold inside -/

/-- What is known about the values of `s` is true in `t`. -/
structure Carries (H : List ValueId) (s t : LowerState) : Prop where
  type : ∀ v, v ∉ H → ∀ ty, s.graph.typeOf? v = some ty → t.graph.typeOf? v = some ty
  defined : ∀ v, s.graph.Defined s.point v → t.graph.Defined t.point v
  signatures : s.signatures ⊆ t.signatures

namespace Carries

variable {A : Prop} {H : List ValueId} {s t u : LowerState} {fact : Fact}

theorem trans (h : Carries H s t) (h' : Carries H t u) : Carries H s u :=
  ⟨fun v hv ty hty => h'.type v hv ty (h.type v hv ty hty), fun v hv =>
    h'.defined v (h.defined v hv),
    Subset.trans h.signatures h'.signatures⟩

theorem of_advances (hwf : WellFormed H s) (h : Advances H s t) : Carries H s t where
  type _ hv _ hty := h.typeOf? hv hty
  defined _ hv := h.point ▸ hv.mono h.grows hwf.hasAnchor
  signatures := h.signatures.subset

theorem holds (h : Carries H s t) (hlast : fact.isLasting = true)
    (hφ : fact.Holds A H s) : fact.Holds A H t :=
  hφ.carry h.type h.defined h.signatures hlast

theorem holds_all (h : Carries H s t) (hsc : ∀ name, t.scope.typeOf? name = s.scope.typeOf? name)
    (hφ : fact.Holds A H s) : fact.Holds A H t :=
  hφ.carry_all h.type h.defined h.signatures hsc

end Carries

namespace Between

variable {H : List ValueId} {base s entry : LowerState} {n : NodeId} {b : BlockId}

theorem typeOf? (h : Between H base n s) {v : ValueId} (hv : v ∉ H) {ty : Ty}
    (hty : base.graph.typeOf? v = some ty) : s.graph.typeOf? v = some ty :=
  (h.graph.type v hv (lt_of_typeOf? hty)).trans hty

theorem carries_inside (h : Between H base n s)
    (henc : s.graph.Encloses ⟨base.point.block, some n⟩ b)
    (he : entry.graph = s.graph) (hpoint : entry.point = ⟨b, none⟩)
    (hsigs : entry.signatures = s.signatures) : Carries H base entry where
  type v hv ty hty := he ▸ h.typeOf? hv hty
  defined v hv := by
    rw [he, hpoint]
    exact .of_within (.outward henc (.here _)) (h.visible v hv)
  signatures := hsigs ▸ h.signatures.subset

end Between

namespace Scope

theorem SameBindings.typeOf? {scope scope' : Scope} (h : scope.SameBindings scope')
    (name : String) : scope'.typeOf? name = scope.typeOf? name :=
  h.kept.typeOf? (h.slot? name)

end Scope

namespace Lower

variable {α : Type} {A : Prop} {H : List ValueId} {ctx : LowerContext} {s t s₁ : LowerState}
  {action : Lower α} {a : α} {block b : BlockId} {n : NodeId} {v result condition : ValueId}
  {ty : Ty} {span : Span} {body : BodyContext} {answer : α × Option Frame}

/-! ## Runs -/

theorem atPoint_ok {enter : Build InsertPoint} {point : InsertPoint}
    (henter : enter s.builder = some (s.point, { s.builder with point }))
    (h : atPoint enter action ctx s = .ok (a, t)) :
    ∃ u, action ctx (s.moveTo point) = .ok (a, u) ∧ u.moveTo s.point = t := by
  obtain ⟨_, builder, hsteps, h⟩ := build_run h
  obtain ⟨rfl, rfl⟩ := Prod.mk.inj (Option.some.inj (henter.symm.trans hsteps))
  obtain ⟨_, u, haction, h⟩ := bind_ok h
  obtain ⟨_, builder, hsteps, h⟩ := build_run h
  cases hsteps
  obtain ⟨rfl, rfl⟩ := pure_ok h
  exact ⟨u, haction, rfl⟩

theorem inBlock_ok (h : inBlock block action ctx s = .ok (a, t)) :
    ∃ u, action ctx (s.moveTo ⟨block, none⟩) = .ok (a, u) ∧ u.moveTo s.point = t :=
  atPoint_ok rfl h

theorem inBlock_run (h : action ctx (s.moveTo ⟨block, none⟩) = .ok (a, t)) :
    inBlock block action ctx s = .ok (a, t.moveTo s.point) :=
  bind_iff.mpr ⟨_, _, build_eq_ok rfl, bind_iff.mpr ⟨_, _, h, rfl⟩⟩

theorem inBranch_ok (h : inBranch block action ctx s = .ok (answer, t)) :
    ∃ u, action ctx (s.enter block) = .ok (answer.1, u) ∧ answer.2 = u.scope.current? ∧
      u.leave s.point = t := by
  obtain ⟨w, hinside, hf, rfl⟩ := withFrame_ok h
  obtain ⟨u, haction, rfl⟩ := inBlock_ok hinside
  exact ⟨u, haction, hf, rfl⟩

theorem inBranch_run (h : action ctx (s.enter block) = .ok (a, t)) :
    inBranch block action ctx s = .ok ((a, t.scope.current?), t.leave s.point) :=
  bind_iff.mpr ⟨_, _, rfl, bind_iff.mpr ⟨_, _, inBlock_run h, rfl⟩⟩

theorem addBlock_ok (h : addBlock n ctx s = .ok (b, t)) :
    s.graph.freshBlock = b ∧ s.withBlock n = t := by
  obtain ⟨builder, hsteps, rfl⟩ := build_ok h
  obtain ⟨g, hg, rfl⟩ := create_some.mp hsteps
  obtain ⟨rfl, rfl⟩ := addBlock_eq_some hg
  exact ⟨rfl, rfl⟩

theorem addResult_ok {a : Unit} (h : addResult b v ctx s = .ok (a, t)) :
    s.withResults b [v] = t := by
  obtain ⟨builder, hsteps, rfl⟩ := build_ok h
  obtain ⟨g, hg, rfl⟩ := update_some.mp hsteps
  obtain rfl := addResult_eq_some hg
  rfl

theorem addOutput_ok (h : addOutput n ty ctx s = .ok (v, t)) :
    s.graph.freshValue = v ∧ s.withGraph (s.graph.withOutput n ty) = t := by
  obtain ⟨builder, hsteps, rfl⟩ := build_ok h
  obtain ⟨g, hg, rfl⟩ := create_some.mp hsteps
  obtain ⟨rfl, rfl⟩ := addOutput_eq_some hg
  exact ⟨rfl, rfl⟩

theorem addOutput_run (hn : s.graph.node? n = some node) : addOutput n ty ctx s =
    .ok (s.graph.freshValue, s.withGraph (s.graph.withOutput n ty)) := by
  obtain ⟨⟨v, g⟩, hg⟩ : ∃ made, s.graph.addOutput n ty = some made := by simp [Graph.addOutput, hn]
  obtain ⟨rfl, rfl⟩ := addOutput_eq_some hg
  exact build_eq_ok (create_some.mpr ⟨_, hg, rfl⟩)

theorem addParam_ok (h : addParam b ty ctx s = .ok (v, t)) :
    s.graph.freshValue = v ∧ s.withGraph (s.graph.withParam b ty) = t := by
  obtain ⟨builder, hsteps, rfl⟩ := build_ok h
  obtain ⟨g, hg, rfl⟩ := create_some.mp hsteps
  obtain ⟨rfl, rfl⟩ := addParam_eq_some hg
  exact ⟨rfl, rfl⟩

theorem addNodeInput_ok {a : Unit} (h : addNodeInput n v ctx s = .ok (a, t)) :
    s.withGraph (s.graph.withInput n v) = t := by
  obtain ⟨builder, hsteps, rfl⟩ := build_ok h
  obtain ⟨g, hg, rfl⟩ := update_some.mp hsteps
  obtain rfl := modifyNode_eq_some hg
  rfl

theorem insertBranching_ok {branching : Branching} (hwf : WellFormed H s)
    (h : insertBranching condition span ctx s = .ok (branching, t)) :
    branching = ⟨s.graph.freshNode, ⟨s.graph.blocks.length⟩, ⟨s.graph.blocks.length + 1⟩⟩ ∧
      s.openBranch condition span = t := by
  obtain ⟨_, builder, hsteps, h⟩ := build_run h
  obtain ⟨rfl, rfl⟩ := insert_some hwf.coherent hwf.anchored hsteps
  obtain ⟨_, _, htrue, h⟩ := bind_ok h
  obtain ⟨rfl, rfl⟩ := addBlock_ok htrue
  obtain ⟨_, _, hfalse, h⟩ := bind_ok h
  obtain ⟨rfl, rfl⟩ := addBlock_ok hfalse
  obtain ⟨rfl, rfl⟩ := pure_ok h
  refine ⟨?_, rfl⟩
  simp [LowerState.withBlock, LowerState.withGraph, freshBlock, Graph.withBlock,
    mapNode, pushBlock, Graph.place, Graph.attach]

theorem insertClosure_ok {answer : NodeId × BlockId} (hwf : WellFormed H s)
    (h : insertClosure span ctx s = .ok (answer, t)) :
    answer = (s.graph.freshNode, s.graph.freshBlock) ∧ s.openClosure span = t := by
  obtain ⟨_, builder, hsteps, h⟩ := build_run h
  obtain ⟨rfl, rfl⟩ := insert_some hwf.coherent hwf.anchored hsteps
  obtain ⟨_, _, hb, h⟩ := bind_ok h
  obtain ⟨rfl, rfl⟩ := addBlock_ok hb
  obtain ⟨rfl, rfl⟩ := pure_ok h
  refine ⟨?_, rfl⟩
  simp [freshBlock, Graph.place, Graph.attach]

/-! ## Branches -/

/-- What lowering a side of a branch does, from the state `entry` at its start to the state `t` at
its end, if the facts about the surroundings hold at its start. -/
structure SideEmits (A : Prop) (H : List ValueId) (entry : LowerState)
    (side : BranchSide) (results : List ValueId) (outputs : List Ty) (t : LowerState) : Prop
    extends SideEnds A H side results outputs t where
  emission : Emission A H entry t

/-- The start of a block from a state outside of it. -/
structure Enters (A : Prop) (H : List ValueId) (ctx : LowerContext)
    (s entry : LowerState) : Prop where
  ready : Ready A H ctx entry
  carries : Carries H s entry
  scope : ∀ name, entry.scope.typeOf? name = s.scope.typeOf? name

theorem Enters.holds {s entry : LowerState} (h : Enters A H ctx s entry) {fact : Fact}
    (hφ : fact.Holds A H s) : fact.Holds A H entry :=
  h.carries.holds_all h.scope hφ

section Branch

variable {s₁ s₂ : LowerState} {condition : ValueId} {a b : BranchSide}
  {resultsA resultsB : List ValueId} {outputs : List Ty}

section

variable (hready : Ready A H ctx s) (hcondition : Held H s condition)
include hready hcondition

theorem enterSide (span : Span) (block : BlockId) (hb : block ∈ s.sideBlocks) :
    Enters A H ctx s ((s.openBranch condition span).enter block) := by
  have hopen := Between.openBranch hready.toWellFormed hcondition span
  have henc := hopen.encloses (node?_openBranch s condition span) hb
  exact ⟨⟨(hopen.enter henc).wellFormed, hready.context, fun hA =>
    ((hready.regular hA).openBranch condition span).enter block⟩,
    hopen.carries_inside henc rfl rfl rfl, fun _ => rfl⟩

theorem enterOther (resultsA : List ValueId) (block other : BlockId) (hb : block ∈ s.sideBlocks)
    (hother : other ∈ s.sideBlocks)
    (hemit : Emission A H ((s.openBranch condition span).enter block) s₁)
    (hheld : ∀ v ∈ resultsA, Held H s₁ v) :
    Enters A H ctx s (((s₁.leave s.point).withResults block resultsA).enter other) := by
  have hopen := Between.openBranch hready.toWellFormed hcondition span
  have hn := node?_openBranch s condition span
  have hnew : s.graph.blocks.length ≤ block.index := by
    rcases mem_pair.mp hb with rfl | rfl <;> simp
  have hready₀ := (enterSide hready hcondition span block hb).ready
  have hready₁ := hemit.ready hready₀
  obtain ⟨hwf₁, hadv₁⟩ := hemit.sound hready₀.toWellFormed
  have henc := hopen.encloses hn hb
  have hin₁ := (hopen.enter henc).advance henc hnew hready.anchored hwf₁ hadv₁
  have hmid := (hopen.leave hin₁ s.point).withResults hnew resultsA fun v hv =>
    hin₁.point ▸ (hheld v hv).2
  have hencloses' := (hopen.encloses hn hother).mono
    (hadv₁.grows.trans (grows_withResults (s₁.leave s.point) block resultsA))
  have hs : s.scope.SameBindings ((s₁.leave s.point).withResults block resultsA).scope :=
    hadv₁.scope.pop
  exact ⟨⟨(hmid.enter hencloses').wellFormed, hready.context, fun hA =>
    (((hready₁.regular hA).leave _).withResults _ _).enter _⟩,
    hmid.carries_inside hencloses' rfl rfl rfl, fun name => hs.typeOf? name⟩

theorem branch_sound (htruth : (Fact.settled condition .bool).Holds A H s)
    (hbs : s.Sides a.block b.block)
    (hA : SideEmits A H ((s.openBranch condition span).enter a.block) a resultsA outputs s₁)
    (hB : SideEmits A H (((s₁.leave s.point).withResults a.block resultsA).enter b.block)
      b resultsB outputs s₂) (houts : A → ∀ ty ∈ outputs, ty.Regular) :
    Merging H s s.graph.freshNode a b ((s₂.leave s.point).withResults b.block resultsB) ∧
      s.scope.SameBindings ((s₂.leave s.point).withResults b.block resultsB).scope ∧
      ∀ t, Merge s.graph.freshNode a b (((s₂.leave s.point).withResults b.block
          resultsB).withOutputs s.graph.freshNode outputs) t → Emission A H s t := by
  have hpts := BranchParts.of_sound hready.toWellFormed hcondition hbs hA.emission.sound
    hA.toSideEnds hB.emission.sound hB.toSideEnds
  have hfirst : s.scope.SameBindings ((s₁.leave s.point).withResults a.block resultsA).scope :=
    hpts.first.advances.scope.pop
  refine ⟨hpts.merging hready.toWellFormed hA.toSideEnds hB.toSideEnds,
    hfirst.trans hpts.second.advances.scope.pop, fun t hmerge => ?_⟩
  exact .branch span hcondition (fun hA => (htruth hA).2) hbs hA.emission
    hA.toSideEnds hB.emission hB.toSideEnds houts hmerge

end

end Branch

/-! ## Closures -/

theorem withBody_ok (h : withBody body action ctx s = .ok (a, t)) :
    ∃ u, action ctx (s.mapBodies (body :: ·)) = .ok (a, u) ∧ u.mapBodies tail = t := by
  obtain ⟨_, _, hpush, h⟩ := bind_ok h
  cases hpush
  obtain ⟨_, u, haction, h⟩ := bind_ok h
  obtain ⟨_, _, hpop, h⟩ := bind_ok h
  cases hpop
  obtain ⟨rfl, rfl⟩ := pure_ok h
  exact ⟨u, haction, rfl⟩

theorem inBody_ok {closure : Option NodeId}
    (h : withFrame block true closure (withBody body (inBlock block action)) ctx s =
      .ok (answer, t)) : ∃ u, action ctx (s.enterBody block closure body) = .ok (answer.1, u) ∧
      u.leaveBody s.point = t := by
  obtain ⟨_, hbody, -, rfl⟩ := withFrame_ok h
  obtain ⟨_, hinside, rfl⟩ := withBody_ok hbody
  obtain ⟨u, haction, rfl⟩ := inBlock_ok hinside
  exact ⟨u, haction, rfl⟩

theorem node?_openClosure (s : LowerState) (span : Span) :
    (s.openClosure span).graph.node? s.graph.freshNode = some
      { op := .closure, inputs := [], outputs := [s.graph.freshValue],
        owner := some s.point.block, span, blocks := [s.graph.freshBlock] } := by
  have hpl : (s.graph.place s.point { op := .closure, inputs := [], span } [.nothing]).node?
      s.graph.freshNode = some
        { op := .closure, inputs := [], outputs := [s.graph.freshValue],
          owner := some s.point.block, span } :=
    node?_place_fresh s.point
  rw [LowerState.openClosure, LowerState.withGraph, LowerState.graph, node?_withBlock hpl,
    freshBlock_place]
  rfl

theorem closure_runs (params : List ParamDecl)
    (hwf : WellFormed H s) (hdecl : A → ∀ declared ∈ body.declared, declared.Regular)
    (hps : A → ∀ param ∈ params, param.ty.Regular)
    (hbody : Emission A H (((s.openClosure span).enterBody s.graph.freshBlock
      (some s.graph.freshNode) body).declareAll s.graph.freshBlock params) s₁)
    (hret : Held H s₁ result) (hty : s₁.graph.typeOf? result = some ty) (name : String) :
    Emission A H s
        (((s₁.leaveBody s.point).withResults s.graph.freshBlock [result]).sign s.graph.freshValue
          ⟨name, params.map fun param => (param.name, param.ty), ty⟩) ∧
      s.scope.SameBindings (s₁.leaveBody s.point).scope ∧
      ((s₁.leaveBody s.point).withResults s.graph.freshBlock [result]).graph.output?
        s.graph.freshNode = some s.graph.freshValue ∧
      Held H (((s₁.leaveBody s.point).withResults s.graph.freshBlock [result]).sign
        s.graph.freshValue ⟨name, params.map fun param => (param.name, param.ty), ty⟩)
        s.graph.freshValue := by
  obtain ⟨hopen, henc⟩ := Between.openClosure hwf span
  have hnew : s.graph.blocks.length ≤ s.graph.freshBlock.index := Nat.le_refl _
  have hstart := (hopen.enterBody henc body).declareAll hnew params
  obtain ⟨hwf₁, hadv₁⟩ := hbody.sound hstart.wellFormed
  have hin := hstart.advance (henc.mono hstart.grows) hnew hwf.anchored hwf₁ hadv₁
  have hend : Between H s s.graph.freshNode
      ((s₁.leaveBody s.point).withResults s.graph.freshBlock [result]) :=
    (hopen.leaveBody hin s.point).withResults hnew [result] (by simpa using hin.point ▸ hret.2)
  have hn : ∃ node, ((s₁.leaveBody s.point).withResults s.graph.freshBlock [result]).graph.node?
      s.graph.freshNode = some node ∧ node.outputs.head? = some s.graph.freshValue := by
    have hgrows := (hstart.grows.trans hadv₁.grows).trans
      (grows_withResults (s₁.leaveBody s.point) s.graph.freshBlock [result])
    obtain ⟨node, hn, hnodeGrows⟩ := hgrows.node _ _ (node?_openClosure s span)
    obtain ⟨more, hmore, -⟩ := hnodeGrows.outputs
    exact ⟨node, hn, by rw [hmore]; rfl⟩
  refine ⟨.closure span name body hdecl hps hbody hret hty, hin.scope.pop, ?_, ?_, ?_⟩
  · obtain ⟨node, hn, hhead⟩ := hn
    rw [output?, hn]
    exact hhead
  · exact hwf.freshValue_not_mem
  · obtain ⟨node, hn, hhead⟩ := hn
    exact (DefinedHere.output hend.placed hn (mem_of_head? hhead)).defined

end Lower

end Flowgraph
