import Flowgraph.Proofs.Emission.Lawfulness
import Flowgraph.Proofs.Scopes.Lifetime

/-!
# Names after a branch

A branch gives each name that its sides assign its `fate`, which depends on what that name means and
on nothing else.  A name with a joined type is read at the ends of both sides, and the branch has an
output for it (`BranchCarries`); the graph shows nothing of the others.  The names are taken in
order: `mergeStep_carries` is about one of them and `mergeSteps_carry` about all.

What a side assigns is what its frame holds as assigned at its end.  A test that is decided may have
narrowed the name there in the meantime, and then the assignment is not seen.
-/

namespace Flowgraph

open Flowgraph.Graph List Lower LowerState Scope

variable {H : List ValueId} {ctx : LowerContext} {base s t u : LowerState} {n : NodeId}
  {a b : BranchSide} {name : String} {span : Span} {names : List String} {g g' start : Graph}
  {condition v : ValueId} {node : Node}

/-! ## The graph -/

/-- Where a side reads a name that it returns: at its end or, if it did not assign the name, before
the outermost closure between there and the frame of the name. -/
def LowerState.endPoint (s : LowerState) (side : BranchSide) (name : String) : InsertPoint :=
  s.returnPoint side.block (if (side.frame.assigned? name).isSome then none
    else (s.scope.find? name).map Found.frame)

theorem Scope.Kept.closureCrossedFrom?_eq {scope scope' : Scope} (h : scope.Kept scope')
    (frame : Nat) : scope'.closureCrossedFrom? frame = scope.closureCrossedFrom? frame := by
  have hshells : ∀ scope : Scope, scope.closureCrossedFrom? frame =
      (⟨scope.frames.map Frame.shell⟩ : Scope).closureCrossedFrom? frame := by
    intro scope
    simp only [closureCrossedFrom?, length_map, ← map_take, filter_map, filterMap_map]
    rfl
  rw [hshells, hshells scope, h.shells]

theorem WellFormed.endPoint_eq (hu : WellFormed H u) (hgrows : Grows u.graph s.graph)
    (hkept : u.scope.Kept s.scope) (hfind : s.scope.find? name = u.scope.find? name)
    (side : BranchSide) : s.endPoint side name = u.endPoint side name := by
  rw [LowerState.endPoint, LowerState.endPoint, hfind]
  generalize (if (side.frame.assigned? name).isSome then none
    else (u.scope.find? name).map Found.frame) = source
  cases source with
  | none => rfl
  | some frame =>
    have hcrossed := hkept.closureCrossedFrom?_eq frame
    cases hcr : u.scope.closureCrossedFrom? frame with
    | none => simp only [LowerState.returnPoint, LowerState.readPoint, hcrossed, hcr]
    | some closure =>
      -- the closure is a node of both graphs, with one owner
      obtain ⟨node, hn⟩ := (hu.anchored_readPoint frame).hasAnchor hu.coherent closure
        (by rw [LowerState.readPoint, hcr])
      obtain ⟨node', hn', hnode⟩ := hgrows.node closure node hn
      simp only [LowerState.returnPoint, LowerState.readPoint, hcrossed, hcr, hn, hn',
        Option.bind_some, hnode.owner]

namespace Graph

variable {isOpen : BlockId → Prop} {p : InsertPoint} {side : BranchSide}

/-- The value is read from the name at the point, after the nodes that `start` has before it. -/
def Reads (start g : Graph) (name : String) (p : InsertPoint) (v : ValueId) : Prop :=
  g.Anchored p ∧ ∃ m node, g.node? m = some node ∧ node.op = .load ∧
    node.attrs = [("name", .str name)] ∧ node.outputs = [v] ∧ m ∈ g.before p ∧
      ∀ k ∈ start.before p, k ∈ g.before ⟨p.block, some m⟩

/-- The side returns values that are read from the names at its end, one after the other. -/
def ReadsAll (u : LowerState) (g : Graph) (side : BranchSide) (names : List String) : Prop :=
  ∃ results, (g.block? side.block).map Block.results = some results ∧
    Forall₂ (fun name v => Reads u.graph g name (u.endPoint side name) v) names results

/-- The graph grows, and the nodes that read variables stay. -/
structure LoadsStay (g g' : Graph) : Prop where
  grows : Grows g g'
  node : ∀ m node, g.node? m = some node → node.op = .load → g'.node? m = some node

theorem Since.loadsStay (h : Since H isOpen g g') : LoadsStay g g' :=
  ⟨h.grows, fun m _ hn _ => (h.node m (index_lt_of_node? hn)).trans hn⟩

section

variable (hc : g.Coherent) (hstay : LoadsStay g g')
include hc hstay

theorem Reads.mono (h : Reads start g name p v) : Reads start g' name p v := by
  obtain ⟨hp, m, node, hn, hop, hattrs, houts, hbefore, hafter⟩ := h
  have hm : g.HasAnchor ⟨p.block, some m⟩ := by
    rintro _ ⟨⟩
    exact ⟨node, hn⟩
  exact ⟨hp.mono hstay.grows, m, node, hstay.node m node hn hop, hop, hattrs, houts,
    hstay.grows.mem_before (hp.hasAnchor hc) hbefore,
    fun k hk => hstay.grows.mem_before hm (hafter k hk)⟩

theorem ReadsAll.mono (h : ReadsAll u g side names)
    (hres : (g'.block? side.block).map Block.results =
    (g.block? side.block).map Block.results) : ReadsAll u g' side names := by
  obtain ⟨results, hresults, hreads⟩ := h
  exact ⟨results, hres.trans hresults, hreads.imp fun _ _ hread => hread.mono hc hstay⟩

end

theorem ReadsAll.of_hasBlockType (h : g.HasBlockType H side.block ⟨[], []⟩) :
    ReadsAll u g side [] := by
  obtain ⟨block, hb, -, hres⟩ := h
  exact ⟨[], by rw [hb, Option.map_some, forall₂_nil_right_iff.mp hres], .nil⟩

section ReturnFrom

variable (hc : s.graph.Coherent) (b : BlockId) (name : String) (ty : SideType) (span : Span)
  (label : Option String)
include hc

theorem since_load : Since [] (fun _ => True) s.graph ((s.graph.place (s.returnPoint b ty.source)
    (loadNode name span) [ty.ty]).named s.graph.freshValue label) :=
  ((Since.refl [] (fun _ => True) s.graph).place hc (Or.inl trivial) rfl [ty.ty]).named
    s.graph.freshValue label

theorem loadsStay_returnFrom : LoadsStay s.graph (s.returnFrom b name ty span label).graph where
  grows := (since_load hc b name ty span label).grows.withResult b _
  node := (since_load hc b name ty span label).loadsStay.node

theorem ReadsAll.returnFrom_of_ne (h : ReadsAll u s.graph side names) (hne : b ≠ side.block) :
    ReadsAll u (s.returnFrom b name ty span label).graph side names := by
  refine h.mono hc (loadsStay_returnFrom hc b name ty span label) ?_
  obtain ⟨_, hres, -⟩ := h
  obtain ⟨block, hb, -⟩ := Option.map_eq_some_iff.mp hres
  rw [LowerState.returnFrom, LowerState.withGraph, LowerState.graph, Graph.withResult,
    block?_mapBlock, if_neg hne]
  exact (since_load hc b name ty span label).results _ (index_lt_of_block? hb)

end ReturnFrom

theorem ReadsAll.returnFrom (hu : Merging H base n a b u) (hm : Merging H base n a b s)
    (hgrows : Grows u.graph s.graph) (h : ReadsAll u s.graph a names) (ty : SideType) (span : Span)
    (label : Option String) (hpoint : s.returnPoint a.block ty.source = u.endPoint a name) :
    ReadsAll u (s.returnFrom a.block name ty span label).graph a (names ++ [name]) := by
  have hc := hm.wellFormed.coherent
  have hsince := since_load hc a.block name ty span label
  have hanchored := (hm.returnPoint ty.source).1
  obtain ⟨results, hres, hreads⟩ := h
  have hstay := loadsStay_returnFrom hc a.block name ty span label
  refine ⟨results ++ [s.graph.freshValue], ?_,
    rel_append (hreads.imp fun _ _ hread => hread.mono hc hstay) (.cons ?_ .nil)⟩
  · obtain ⟨block, hb, -⟩ := Option.map_eq_some_iff.mp hres
    obtain ⟨block', hb', rfl⟩ := Option.map_eq_some_iff.mp
      ((hsince.results _ (index_lt_of_block? hb)).trans hres)
    rw [LowerState.returnFrom, withGraph, graph, withResult,
      block?_mapBlock, if_pos rfl, hb']
    rfl
  · have hbefore : (s.graph.place (s.returnPoint a.block ty.source) (loadNode name span)
        [ty.ty]).before _ = _ := before_place hc hanchored
    have hnew : Reads u.graph ((s.graph.place (s.returnPoint a.block ty.source) (loadNode name span)
        [ty.ty]).named s.graph.freshValue label) name (s.returnPoint a.block ty.source)
          s.graph.freshValue := by
      refine ⟨hanchored.mono hsince.grows, s.graph.freshNode, _, node?_place_fresh _, rfl, rfl, rfl,
        hbefore ▸ mem_append_right _ (mem_singleton_self _), fun k hk => ?_⟩
      show k ∈ (s.graph.place _ (loadNode name span) [ty.ty]).before _
      rw [before_place_fresh hc hanchored]
      rw [hpoint] at hk ⊢
      exact hgrows.mem_before ((hu.returnPoint _).1.hasAnchor hu.wellFormed.coherent) hk
    rw [← hpoint]
    exact hnew.mono ((hc.place rfl _ _).named _ label)
      ⟨(Grows.refl _).withResult _ _, fun _ _ hn _ => hn⟩


theorem since_store (hc : s.graph.Coherent) (n : NodeId) (name : String) (ty : Ty) (span : Span)
    (label : Option String) : Since [] (fun _ => True) (s.graph.withOutput n ty)
      (s.storeOutput n name ty span label).graph :=
  ((Since.refl [] (fun _ => True) _).named s.graph.freshValue label).place
    ((hc.withOutput n ty).named _ label) (Or.inl trivial)
      (show (storeNode name s.graph.freshValue span).blocks = [] from rfl) []

theorem loadsStay_storeOutput (hc : s.graph.Coherent) (hn : s.graph.node? n = some node)
    (hop : node.op = .branch) (name : String) (ty : Ty) (span : Span) (label : Option String) :
    LoadsStay s.graph (s.storeOutput n name ty span label).graph := by
  have hsince := since_store hc n name ty span label
  refine ⟨((Grows.refl s.graph).withOutput n ty).trans hsince.grows, fun m load hm hload => ?_⟩
  have hne : n ≠ m := by
    rintro rfl
    cases hn.symm.trans hm
    cases hop.symm.trans hload
  refine hsince.loadsStay.node m load ?_ hload
  rw [withOutput, node?_mapNode, if_neg hne, node?_pushValue, hm]

theorem ReadsAll.storeOutput (hc : s.graph.Coherent) (h : ReadsAll u s.graph side names)
    (hn : s.graph.node? n = some node) (hop : node.op = .branch) (name : String) (ty : Ty)
    (span : Span) (label : Option String) :
    ReadsAll u (s.storeOutput n name ty span label).graph side names := by
  refine h.mono hc (loadsStay_storeOutput hc hn hop name ty span label) ?_
  obtain ⟨_, hres, -⟩ := h
  obtain ⟨block, hb, -⟩ := Option.map_eq_some_iff.mp hres
  exact (since_store hc n name ty span label).results _ (index_lt_of_block? hb)

end Graph

/-- A name that both sides return: its types at their ends, and the type of the output. -/
structure BranchOutput where
  name : String
  first : Ty
  second : Ty
  joined : Ty

/-- The graph goes on from the state in which both sides were lowered.  The sides return the names,
and the branch has an output for each. -/
structure BranchCarries (H : List ValueId) (u : LowerState) (g : Graph) (n : NodeId)
    (condition : ValueId) (a b : BranchSide) (outputs : List BranchOutput) : Prop where
  branch : BranchAt H g n condition a.block b.block (outputs.map BranchOutput.first)
    (outputs.map BranchOutput.second) (outputs.map BranchOutput.joined)
  grows : Grows u.graph g
  first : ReadsAll u g a (outputs.map BranchOutput.name)
  second : ReadsAll u g b (outputs.map BranchOutput.name)

variable {outputs : List BranchOutput}

theorem BranchCarries.joined (hu : Merging H base n a b u) (hm : Merging H base n a b s)
    (hbase : base.graph.Anchored base.point) (h : BranchCarries H u s.graph n condition a b outputs)
    (sideA sideB : SideType) (joined : Ty) (span : Span) (labelA labelB label : Option String)
    (hpointA : s.returnPoint a.block sideA.source = u.endPoint a name)
    (hpointB : (s.returnFrom a.block name sideA span labelA).returnPoint b.block sideB.source =
      u.endPoint b name) :
    BranchCarries H u (((s.returnFrom a.block name sideA span labelA).returnFrom b.block name sideB
      span labelB).storeOutput n name joined span label).graph n condition a b
        (outputs ++ [⟨name, sideA.ty, sideB.ty, joined⟩]) := by
  have hmA := hm.returnFrom hbase name sideA span labelA
  have hmB := (hmA.swap.returnFrom hbase name sideB span labelB).swap
  have hc := hm.wellFormed.coherent
  have hcA := hmA.wellFormed.coherent
  obtain ⟨hat, hgrows, hfirst, hsecond⟩ := h
  have hatB := ((hat.returnFrom hm.wellFormed name sideA span labelA).swap.returnFrom
    hmA.wellFormed name sideB span labelB).swap
  obtain ⟨node, hn, hop, -⟩ := hatB.node
  have hstore := loadsStay_storeOutput hmB.wellFormed.coherent hn hop name joined span label
  have hgrowsA := hgrows.trans (loadsStay_returnFrom hc a.block name sideA span labelA).grows
  have hgrowsB := hgrowsA.trans (loadsStay_returnFrom hcA b.block name sideB span labelB).grows
  have hreadsA := (hfirst.returnFrom hu hm hgrows sideA span labelA hpointA).returnFrom_of_ne hcA
    b.block name sideB span labelB hat.distinct.symm
  have hreadsB := (hsecond.returnFrom_of_ne hc a.block name sideA span labelA
    hat.distinct).returnFrom hu.swap hmA.swap hgrowsA sideB span labelB hpointB
  refine ⟨?_, hgrowsB.trans hstore.grows, ?_, ?_⟩
  · simpa using hatB.storeOutput hmB.wellFormed name joined span label
  · rw [map_append]
    exact hreadsA.storeOutput hmB.wellFormed.coherent hn hop name joined span label
  · rw [map_append]
    exact hreadsB.storeOutput hmB.wellFormed.coherent hn hop name joined span label

/-! ## Merging -/

namespace Lower

/-- The output that the branch gets for a name, if it gets one. -/
def outputOf (a b : BranchSide) (scope : Scope) (name : String) : Option BranchOutput :=
  match fate a b scope name with
  | .joined first second joined => some ⟨name, first, second, joined⟩
  | _ => none

theorem outputOf_eq_some {scope : Scope} {output : BranchOutput} :
    outputOf a b scope name = some output ↔ name = output.name ∧
      fate a b scope name = .joined output.first output.second output.joined := by
  obtain ⟨other, first, second, joined⟩ := output
  rw [outputOf]
  cases fate a b scope name <;> simp

theorem mergeStep_carries (hu : Merging H base n a b u) (hm : Merging H base n a b s)
    (hbase : base.graph.Anchored base.point)
    (hc : BranchCarries H u s.graph n condition a b outputs)
    (hkept : u.scope.Kept s.scope) (hfind : s.scope.find? name = u.scope.find? name)
    (ctx : LowerContext) (span : Span) :
    (fate a b u.scope name = .clash ∧ ∃ typeA typeB, mergeStep n a b span name ctx s =
      .error (.fault (.type span (.branchMismatch name typeA typeB)))) ∨
    ∃ t, mergeStep n a b span name ctx s = .ok ((), t) ∧ BranchCarries H u t.graph n condition a b
        (outputs ++ (outputOf a b u.scope name).toList) := by
  rw [outputOf, ← fate_congr hfind]
  generalize hresult : mergeStep n a b span name ctx s = result
  cases mergeStep_runs hresult with
  | @joined typeA typeB joined _ _ _ hrun hfate =>
    obtain ⟨labelA, labelB, label, hmerged⟩ := mergeVariable_run hm hbase ctx name _ _ _ span
    have hgrows := hc.grows.trans (loadsStay_returnFrom hm.wellFormed.coherent a.block name
      (a.typed s.scope name typeA) span labelA).grows
    rw [hfate]
    exact Or.inr ⟨_, hrun.symm.trans hmerged, hc.joined hu hm hbase _ _ joined span labelA labelB
      label (hu.wellFormed.endPoint_eq hc.grows hkept hfind a)
        (hu.wellFormed.endPoint_eq hgrows hkept hfind b)⟩
  | @clash typeA typeB hrun hfate => exact Or.inl ⟨hfate, typeA, typeB, hrun.symm⟩
  | bound _ hrun hfate | deferred hrun _ _ hfate | kept hrun hfate =>
    simp only [hfate, Option.toList_none, append_nil]
    exact Or.inr ⟨_, hrun.symm, hc⟩

/-- The branch gets its outputs one after the other, up to a name with a clash.  What is done for
one name has no say in the fates of the others, nor in where they are read. -/
theorem mergeSteps_carry (hu : Merging H base n a b u) (hm : Merging H base n a b s)
    (hbase : base.graph.Anchored base.point)
    (hc : BranchCarries H u s.graph n condition a b outputs) (hkept : u.scope.Kept s.scope)
    (hfind : ∀ name ∈ names, s.scope.find? name = u.scope.find? name) (hnodup : names.Nodup) :
    (∃ name ∈ names, fate a b u.scope name = .clash ∧ ∃ typeA typeB,
      names.forM (mergeStep n a b span) ctx s =
        .error (.fault (.type span (.branchMismatch name typeA typeB)))) ∨
    ∃ t, names.forM (mergeStep n a b span) ctx s = .ok ((), t) ∧
      BranchCarries H u t.graph n condition a b
        (outputs ++ names.filterMap (outputOf a b u.scope)) := by
  induction names generalizing s outputs with
  | nil => exact Or.inr ⟨s, rfl, by simpa using hc⟩
  | cons name rest ih =>
    obtain ⟨hnot, hnodup⟩ := nodup_cons.mp hnodup
    rcases mergeStep_carries hu hm hbase hc hkept (hfind name mem_cons_self) ctx span with
      ⟨hclash, typeA, typeB, hrun⟩ | ⟨t, hrun, hc'⟩
    · refine Or.inl ⟨name, mem_cons_self, hclash, typeA, typeB, ?_⟩
      show Except.bind (mergeStep n a b span name ctx s) _ = _
      rw [hrun]
      rfl
    · have hsettles := mergeStep_settles hrun
      have hkept' := hkept.trans (hsettles.assigns (mem_singleton_self name)).isLocal.kept
      have hfind' : ∀ other ∈ rest, t.scope.find? other = u.scope.find? other := fun other hin =>
        (hsettles.apart (ne_of_mem_of_not_mem hin hnot)).find.trans
          (hfind other (mem_cons_of_mem _ hin))
      rcases ih ((mergeStep_ok hm hbase hrun).sound hbase hm) hc' hkept' hfind' hnodup with
        ⟨other, hin, hclash, typeA, typeB, hfail⟩ | ⟨t', hruns, hcarries⟩
      · exact Or.inl ⟨other, mem_cons_of_mem _ hin, hclash, typeA, typeB,
          (bind_of_ok hrun).trans hfail⟩
      · refine Or.inr ⟨t', (bind_of_ok hrun).trans hruns, ?_⟩
        cases hout : outputOf a b u.scope name <;> simpa [hout] using hcarries

/-! ## Branches -/

theorem BranchOpens.run {cond : Operand} {body orelse : Lower Unit} {bodyRaises orelseRaises : Bool}
    (h : BranchOpens ctx span cond body orelse bodyRaises orelseRaises s n a b u) :
    branch span cond body orelse bodyRaises orelseRaises ctx s = mergeSides n a b span ctx u := by
  obtain ⟨hcond, hknown, hinsert, hrefT, hbody, honTrue, hrefF, horelse, honFalse⟩ := h
  rw [branch, bind_of_ok hcond]
  simp only [hknown]
  rw [bind_of_ok hinsert, inNarrowedBranch,
    bind_of_ok (inBranch_run ((bind_of_ok hrefT).trans hbody))]
  dsimp only
  rw [inNarrowedBranch, bind_of_ok (inBranch_run ((bind_of_ok hrefF).trans horelse))]
  simp only [honTrue, honFalse]
  rfl

/-- The sides of a branch statement are lowered from the state. -/
def BranchSplits (ctx : LowerContext) (span : Span) (cond : Expr) (body orelse : List Stmt) :
    LowerState → NodeId → BranchSide → BranchSide → LowerState → Prop :=
  BranchOpens ctx span cond.operand (Stmt.lowerAll body) (Stmt.lowerAll orelse)
    (Stmt.lastAlwaysRaises body) (Stmt.lastAlwaysRaises orelse)

variable {cond : Expr} {body orelse : List Stmt}

theorem BranchSplits.merging (hwf : WellFormed H s)
    (h : BranchSplits ctx span cond body orelse s n a b u) :
    ∃ base condition, base.graph.Anchored base.point ∧ Merging H base n a b u ∧
      BranchCarries H u u.graph n condition a b [] := by
  cases h with
  | @intro s₁ _ _ v₁ _ v₂ condition _ onTrue onFalse hcond _ hinsert hrefT hbody honTrue hrefF
      horelse honFalse =>
    have hready : Ready False H ctx s := ⟨hwf, False.elim, False.elim⟩
    obtain ⟨hemit, -, hfacts⟩ := condition_emits (Γ := []) cond.operand_sound ctx s _ _ hready
      (by simp) hcond
    have hready₁ := hemit.ready hready
    have hwf₁ := hready₁.toWellFormed
    obtain ⟨rfl, rfl⟩ := insertBranching_ok hwf₁ hinsert
    have hheld : Held H s₁ condition.value := hfacts (.held _) (.head _)
    obtain ⟨hA, hB⟩ := branchSides_emit
      (narrowed_executes (Stmt.lowerAll_executes body) (by simp [Condition.facts]))
      (narrowed_executes (Stmt.lowerAll_executes orelse) (by simp [Condition.facts])) hready₁ hfacts
      hheld (bind_iff.mpr ⟨_, _, hrefT, hbody⟩) honTrue (bind_iff.mpr ⟨_, _, hrefF, horelse⟩)
      honFalse
    have hparts : BranchParts H s₁ v₁ v₂ condition.value span
        ⟨_, onTrue, Stmt.lastAlwaysRaises body⟩ ⟨_, onFalse, Stmt.lastAlwaysRaises orelse⟩ [] [] :=
      .of_sound hwf₁ hheld (Or.inl ⟨rfl, rfl⟩) hA.emission.sound hA.toSideEnds hB.emission.sound
        hB.toSideEnds
    have hat := hparts.branchAt hwf₁ .nil .nil
    refine ⟨s₁, condition.value, hwf₁.anchored, ?_, ?_⟩
    · exact hparts.merging hwf₁ hA.toSideEnds hB.toSideEnds
    · constructor
      case branch => exact hat
      case grows => exact .refl _
      case first => exact .of_hasBlockType hat.first
      case second => exact .of_hasBlockType hat.second

/-- How a branch ends that gives the names their fates, if its sides were lowered up to `u`. -/
inductive BranchEnds (H : List ValueId) (ctx : LowerContext) (span : Span) (cond : Expr)
    (body orelse : List Stmt) (s : LowerState) (n : NodeId) (a b : BranchSide)
    (u : LowerState) : Prop
  /-- A name is visible outside, and its two types have no join. -/
  | clash {name : String} {typeA typeB : Ty}
      (hname : name ∈ a.frame.definedNames ++ b.frame.definedNames)
      (hfate : fate a b s.scope name = .clash)
      (hrun : (Stmt.branch span cond body orelse).lower ctx s =
        .error (.fault (.type span (.branchMismatch name typeA typeB))))
  | merged {t : LowerState} {outputs : List BranchOutput} {condition : ValueId}
      (hrun : (Stmt.branch span cond body orelse).lower ctx s = .ok ((), t))
      (hsides : s.scope.Steady u.scope)
      (hholds : ∀ name ∈ a.frame.definedNames ++ b.frame.definedNames,
        (fate a b s.scope name).Holds name u.scope t.scope)
      (hothers : ∀ name ∉ a.frame.definedNames ++ b.frame.definedNames,
        SameAbout name u.scope t.scope)
      (hsorted : outputs.Pairwise fun output other => output.name < other.name)
      (houtputs : ∀ output, output ∈ outputs ↔
        output.name ∈ a.frame.definedNames ++ b.frame.definedNames ∧
          fate a b s.scope output.name = .joined output.first output.second output.joined)
      (hcarries : BranchCarries H u t.graph n condition a b outputs)

end Lower

/-- A branch whose sides are lowered gives each name its fate. -/
theorem Stmt.branch_merges_by_name {cond : Expr} {body orelse : List Stmt} (hwf : WellFormed H s)
    (hbody : s.scope.HasBody) (h : BranchSplits ctx span cond body orelse s n a b u) :
    BranchEnds H ctx span cond body orelse s n a b u := by
  have hrun : (Stmt.branch span cond body orelse).lower ctx s =
      (sortedNames (a.frame.definedNames ++ b.frame.definedNames)).forM (mergeStep n a b span) ctx u
    := by rw [Stmt.lower, BranchOpens.run h, mergeSides_eq]
  have hsteady := BranchOpens.steady h (.condition cond.lower_quiet) (lowerAll_local body)
    (lowerAll_local orelse)
  have hfind := hsteady.bindings.find?
  have hsorted := sortedNames_sorted (a.frame.definedNames ++ b.frame.definedNames)
  have hnodup := hsorted.imp String.ne_of_lt
  obtain ⟨base, condition, hbase, hm, hc⟩ := h.merging hwf
  rcases mergeSteps_carry hm hm hbase hc (.refl _) (fun _ _ => rfl) hnodup with
    ⟨name, hin, hclash, typeA, typeB, hfail⟩ | ⟨t, hruns, hcarries⟩
  · exact .clash (mem_sortedNames.mp hin) (fate_congr (hfind name) ▸ hclash) (hrun.trans hfail)
  · obtain ⟨hholds, hothers⟩ := mergeSteps_hold hnodup (hsteady.bindings.hasBody hbody) hruns
    refine .merged (hrun.trans hruns) hsteady (fun name hname => ?_) (fun name hname => ?_) ?_
      (fun output => ?_) hcarries
    · exact fate_congr (hfind name) ▸ hholds name (mem_sortedNames.mpr hname)
    · exact hothers name (mem_sortedNames.not.mpr hname)
    · refine hsorted.filterMap _ fun name other hlt output hout output' hout' => ?_
      rwa [← (outputOf_eq_some.mp hout).1, ← (outputOf_eq_some.mp hout').1]
    · simp [mem_filterMap, outputOf_eq_some, mem_sortedNames, fate_congr (hfind _)]

/-- `name = value` -/
def assignInt (name : String) (value : Int64) : Stmt :=
  .assign .null (.var .null name) none (some (.const .null (.int value)))

/-- `if True: x = 1`, and otherwise `x = 2` and `y = 2` -/
theorem assignInt_branch_merges : ∃ n a b u,
    BranchSplits .bare .null (.const .null (.bool true)) [assignInt "x" 1]
      [assignInt "x" 2, assignInt "y" 2] (.start (.start "f" none)) n a b u ∧
    BranchEnds [] .bare .null (.const .null (.bool true)) [assignInt "x" 1]
      [assignInt "x" 2, assignInt "y" 2] (.start (.start "f" none)) n a b u := by
  obtain ⟨answer, t, hrun, condition, u, hcond, hknown⟩ : ∃ answer t,
      (Stmt.branch .null (.const .null (.bool true)) [assignInt "x" 1]
        [assignInt "x" 2, assignInt "y" 2]).lower .bare (.start (.start "f" none)) =
          .ok (answer, t) ∧
      ∃ condition u, (Expr.const .null (.bool true)).operand.condition .bare
        (.start (.start "f" none)) = .ok (condition, u) ∧ condition.known = none := by
    decide +kernel
  cases branch_runs hrun with
  | decided hcond' hsome =>
    cases hcond.symm.trans hcond'
    cases hknown.symm.trans hsome
  | «open» hopens =>
    exact ⟨_, _, _, _, hopens, Stmt.branch_merges_by_name (wellFormed_start _) rfl hopens⟩

/-! ## An assignment that is lost -/

/-- The parameters `c: bool`, `y: int` and `z: Optional[int]` of a function. -/
def mixedParams : Lower (List (String × Ty)) :=
  [⟨⟨"c", .null⟩, some (.var .null "bool")⟩, ⟨⟨"y", .null⟩, some (.var .null "int")⟩,
    ⟨⟨"z", .null⟩, some (.subscript .null (.var .null "Optional") [.var .null "int"])⟩].mapM
      (declareParam root)

/-- `if c: x = z`, followed by `knownTest` in the branch, and otherwise `x = 1` -/
def narrowedBranch : Stmt :=
  .branch .null (.var .null "c")
    [.assign .null (.var .null "x") none (some (.var .null "z")), knownTest] [assignInt "x" 1]

/-- The known test narrows `x` in the frame of the side, in place of the assignment.  The branch
then takes `x` for a name that only its other side assigns. -/
theorem narrowedBranch_unbound :
    ∃ params s, mixedParams .bare (.start (.start "f" none)) = .ok (params, s) ∧
      ∃ a t, narrowedBranch.lower .bare s = .ok (a, t) ∧ (t.scope.find? "x").isNone ∧
        (t.scope.deferredInBody? "x").map Fault.message =
          some "x is not defined in the true branch" := by
  decide +kernel

end Flowgraph
