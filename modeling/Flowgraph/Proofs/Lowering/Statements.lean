import Flowgraph.Compile
import Flowgraph.Proofs.Lowering.Merging

/-!
# Statements and definitions

Lowering a statement is an emission, and if the statement always raises, so does the block where it
ends (`Executes`).  As with expressions, the forms are verified for any parts and the recursion
follows the tree; it starts from no facts, since nothing but the state passes between statements.

A body without a declared type has the join of the types that it returns (`returns_eq`).
-/

namespace Flowgraph

open Entity Flowgraph.Fact Flowgraph.Graph List LowerState Stmt

namespace Lower

variable {A : Prop} {H elems : List ValueId} {Γ : List Fact} {ctx : LowerContext}
  {s t u before base : LowerState} {v w condition : ValueId} {span : Span}
  {action statements : Lower Unit} {raises : Bool} {ty : Ty} {message result value : Option Expr}
  {orelse : Lower Unit} {raisesA raisesB : Bool} {block b : BlockId} {params : List Param}
  {name default keyword : String} {first : Lower ValueId} {frame : Frame}
  {a answer : Unit} {stmt : Stmt}

/-! ## The judgement -/

/-- What lowering a statement does. -/
def Executes (A : Prop) (H : List ValueId) (Γ : List Fact) (raises : Bool)
    (action : Lower Unit) : Prop :=
  ∀ ctx s a t, Ready A H ctx s → (∀ fact ∈ Γ, fact.Holds A H s) → action ctx s = .ok (a, t) →
    Emission A H s t ∧ (raises = true → t.graph.Raises t.point.block)

namespace Executes

variable {α : Type} {f : α → Lower Unit} {Δ : α → List Fact} {first : Lower α}

theorem of_emits {Δ : Unit → List Fact} (h : Emits A H loud Γ action Δ) :
    Executes A H Γ false action := by
  intro ctx s a t hready hΓ hrun
  exact ⟨(h.apply hready hΓ hrun).1, by simp⟩

theorem emits (h : Executes A H Γ raises action) : Acts A H loud Γ action := by
  intro ctx s a t hready hΓ hrun
  exact ⟨(h ctx s a t hready hΓ hrun).1, Scope.agrees_loud _ _, by simp⟩

theorem bind_loud (h : Emits A H loud Γ first Δ)
    (hf : ∀ a, Executes A H (Δ a ++ Γ.filter isLasting) raises (f a)) :
    Executes A H Γ raises (first >>= f) := by
  intro ctx s b t hready hΓ hrun
  obtain ⟨a, u, hfirst, hr⟩ := bind_ok hrun
  obtain ⟨hemit, -, hafter⟩ := h.apply hready hΓ hfirst
  obtain ⟨-, hadv⟩ := hemit.sound hready.toWellFormed
  refine (hf a ctx u b t (hemit.ready hready) (fun fact hφ => ?_) hr).imp_left hemit.trans
  rcases mem_append.mp hφ with hnew | hold
  · exact hafter fact hnew
  · obtain ⟨hold, hlast⟩ := mem_filter.mp hold
    exact (hΓ fact hold).mono hready.toWellFormed hadv hlast

theorem bind (h : Emits A H quiet Γ first Δ)
    (hf : ∀ a, Executes A H (Δ a ++ Γ) raises (f a)) : Executes A H Γ raises (first >>= f) := by
  intro ctx s b t hready hΓ hrun
  obtain ⟨a, u, hemit, -, hready', hfacts', hr⟩ := h.step hready hΓ hrun
  exact (hf a ctx u b t hready' hfacts' hr).imp_left hemit.trans

end Executes

/-! ## Leaving a block -/

theorem getBody_ok {body : BodyContext} (h : getBody ctx s = .ok (body, t)) :
    (∃ outer, s.bodies = body :: outer) ∧ s = t := by
  obtain ⟨_, _, hget, h⟩ := bind_ok h
  cases hget
  cases hbodies : s.bodies with simp only [hbodies] at h
  | nil => exact absurd h fail_ok
  | cons head outer =>
    obtain ⟨rfl, rfl⟩ := pure_ok h
    exact ⟨⟨outer, rfl⟩, rfl⟩

theorem getBody_emits : Emits A H quiet Γ getBody
    fun body => [.sure (RegularHint A body.declared)] := by
  refine .ask fun ctx s body t hrun => ?_
  obtain ⟨⟨outer, hbodies⟩, rfl⟩ := getBody_ok hrun
  refine ⟨rfl, fun hready _ => forall_mem_singleton.mpr fun hA ty hty => ?_⟩
  exact (hready.regular hA).declared body (by simp [hbodies]) ty hty

theorem setMerged_emits :
    Acts A H quiet Γ (modifyBody fun body => { body with merged := some ty }) := by
  intro ctx s a t hready hΓ hrun
  obtain rfl := modifyBody_ok hrun
  exact ⟨.merged H s ty, .refl _ _, by simp⟩

theorem returned_emits (hv : .held v ∈ Γ) : Produces A H Γ (returned v span) := by
  refine .bind getBody_emits fun body => .bind typeOf_emits' fun ty => ?_
  split
  · refine .bind (convert?_emits (by simp [hv])) fun converted => ?_
    split
    · exact .pure (by simp)
    · exact .fail
  · split
    · exact .bind setMerged_emits fun _ => .pure (by simp [hv])
    · exact .fail
  · exact .bind setMerged_emits fun _ => .pure (by simp [hv])

theorem returnValue_emits : Acts A H loud Γ (returnValue value span) := by
  have hbind {Γ : List Fact} {first : Lower ValueId}
      (hfirst : Produces A H Γ first) : Acts A H loud Γ (do
        let v ← first
        let v ← returned v span
        bindName returnName (.value v) none span) :=
    .bind hfirst fun v => .bind (returned_emits (by simp)) fun v =>
      bindName_emits (by simp) (by simp [facts])
  refine .bind_sure getBody_emits fun body hdecl => ?_
  dsimp only
  split
  · exact .fail_bind
  · cases value with
    | none => exact hbind (none_emits fun _ => .nothing)
    | some value => exact hbind ((Expr.operand_sound value).hinted hdecl)

theorem exitLoop_emits {op : Op} (hform : op.isForm = true) :
    Acts A H quiet Γ (exitLoop op keyword span) := by
  refine .bind getBody_emits fun body => ?_
  split
  · exact .bind (insert_emits hform (by simp) (by simp)) fun _ => .pure (by simp)
  · exact .fail
  · exact .fail

/-! ## The types of what is returned -/

section Returned

variable {body : BodyContext} {outer : List BodyContext} {values results : List ValueId}
  {types : List Ty}

/-- The common type of what the innermost body returned so far. -/
def merged? (s : LowerState) : Option Ty := s.bodies.head?.bind BodyContext.merged

theorem returned_run (hbodies : s.bodies = body :: outer) (hdecl : body.declared = none)
    (hty : s.graph.typeOf? v = some ty) (hrun : returned v span ctx s = .ok (w, t)) :
    ∃ joined, body.merged.elim (some ty) (Ty.join · ty) = some joined ∧
      t.bodies = { body with merged := some joined } :: outer ∧ t.graph = s.graph := by
  obtain ⟨_, _, hbody, hrun⟩ := bind_ok hrun
  obtain ⟨⟨_, hfound⟩, rfl⟩ := getBody_ok hbody
  cases hbodies.symm.trans hfound
  obtain ⟨_, hfound, hrun⟩ := typeOf_run hrun
  cases hty.symm.trans hfound
  have hafter {joined : Ty} (h : (do
      modifyBody fun body => { body with merged := some joined }
      return v) ctx s = .ok (w, t)) :
      t.bodies = { body with merged := some joined } :: outer ∧ t.graph = s.graph := by
    obtain ⟨_, _, hset, h⟩ := bind_ok h
    obtain ⟨-, rfl⟩ := pure_ok h
    obtain rfl := modifyBody_ok hset
    simp [mapBodies, hbodies]
  cases hmerged : body.merged with simp only [hdecl, hmerged] at hrun
  | none => exact ⟨ty, rfl, hafter hrun⟩
  | some previous =>
    cases hjoin : Ty.join previous ty with simp only [hjoin] at hrun
    | none => exact absurd hrun fail_ok
    | some joined => exact ⟨joined, hjoin, hafter hrun⟩

theorem returns_cons (hbodies : s.bodies = body :: outer) (hdecl : body.declared = none)
    (htyped : s.graph.Typed values (ty :: types))
    (hrun : values.mapM (returned · span) ctx s = .ok (results, t)) :
    ∃ (rest results : List ValueId) (u : LowerState) (joined : Ty),
      body.merged.elim (some ty) (Ty.join · ty) = some joined ∧
      u.bodies = { body with merged := some joined } :: outer ∧ u.graph.Typed rest types ∧
        rest.mapM (returned · span) ctx u = .ok (results, t) := by
  cases htyped with
  | cons hv hr =>
    rw [mapM_cons] at hrun
    obtain ⟨_, u, hstep, hrun⟩ := bind_ok hrun
    obtain ⟨_, _, hrest, hrun⟩ := bind_ok hrun
    obtain ⟨-, rfl⟩ := pure_ok hrun
    obtain ⟨joined, hjoin, hbodies', hgraph⟩ := returned_run hbodies hdecl hv hstep
    exact ⟨_, _, u, joined, hjoin, hbodies', hgraph ▸ hr, hrest⟩

theorem returns_some {previous : Ty} (hbodies : s.bodies = body :: outer)
    (hdecl : body.declared = none) (hmerged : body.merged = some previous)
    (htyped : s.graph.Typed values types)
    (hrun : values.mapM (returned · span) ctx s = .ok (results, t)) :
    ∃ c, types.foldlM Ty.join previous = some c ∧ merged? t = some c := by
  induction types generalizing s body previous values results with
  | nil =>
    cases htyped
    obtain ⟨-, rfl⟩ := pure_ok hrun
    exact ⟨previous, rfl, by simp [merged?, hbodies, hmerged]⟩
  | cons ty types ih =>
    obtain ⟨_, _, u, joined, hjoin, hbodies, htyped, hrest⟩ :=
      returns_cons hbodies hdecl htyped hrun
    rw [hmerged, Option.elim_some] at hjoin
    rw [foldlM_cons, hjoin]
    exact ih hbodies hdecl rfl htyped hrest

/-- What a body returns is merged to the join of its types. -/
theorem returns_eq {first : Ty} (hbodies : s.bodies = body :: outer) (hdecl : body.declared = none)
    (hmerged : body.merged = none) (htyped : s.graph.Typed values (first :: types))
    (hrun : values.mapM (returned · span) ctx s = .ok (results, t)) :
    ∃ c, types.foldlM Ty.join first = some c ∧ merged? t = some c := by
  obtain ⟨_, _, u, joined, hjoin, hbodies, htyped, hrest⟩ := returns_cons hbodies hdecl htyped hrun
  cases hmerged ▸ hjoin
  exact returns_some hbodies hdecl rfl htyped hrest

/-- The join of a sequence of types, the common type of a sequence of values and the type that a
body returns do not depend on the order. -/
theorem join_order_irrelevant {first first' : Ty} {rest rest' : List Ty}
    (hnormal : ∀ ty ∈ first :: rest, ty.Normal) (hperm : (first :: rest).Perm (first' :: rest')) :
    (∀ c d, rest.foldlM Ty.join first = some c → rest'.foldlM Ty.join first' = some d →
      (c == d) = true) ∧ ∀ ctx s span values values',
      s.graph.Typed values (first :: rest) → s.graph.Typed values' (first' :: rest') →
        (∀ what joined joined' t t', commonType? what span values ctx s = .ok (joined, t) →
          commonType? what span values' ctx s = .ok (joined', t') → (joined == joined') = true) ∧
        ∀ body outer results results' t t', s.bodies = body :: outer → body.declared = none →
          body.merged = none → values.mapM (returned · span) ctx s = .ok (results, t) →
            values'.mapM (returned · span) ctx s = .ok (results', t') →
              (merged? t == merged? t') = true := by
  have hsame : ∀ {c d}, rest.foldlM Ty.join first = some c →
      rest'.foldlM Ty.join first' = some d → (c == d) = true := Ty.foldlM_join_perm hnormal hperm
  refine ⟨fun c d => hsame, fun ctx s span values values' htyped htyped' => ⟨?_, ?_⟩⟩
  · intro what joined joined' t t' hrun hrun'
    obtain ⟨hjoin, hsome⟩ := commonType?_eq htyped hrun
    obtain ⟨hjoin', hsome'⟩ := commonType?_eq htyped' hrun'
    obtain ⟨c, rfl⟩ := Option.isSome_iff_exists.mp hsome
    obtain ⟨d, rfl⟩ := Option.isSome_iff_exists.mp hsome'
    exact hsame hjoin hjoin'
  · intro body outer results results' t t' hbodies hdecl hmerged hrun hrun'
    obtain ⟨c, hjoin, hc⟩ := returns_eq hbodies hdecl hmerged htyped hrun
    obtain ⟨d, hjoin', hd⟩ := returns_eq hbodies hdecl hmerged htyped' hrun'
    rw [hc, hd]
    exact hsame hjoin hjoin'

/-- A body with lists of tensors of rank 1 and 2 and `None` as its values. -/
def listsBody : LowerState where
  builder.graph := { Graph.empty with values :=
    [.list (.ranked 1), .nothing, .list (.ranked 2)].map (⟨·, .param Graph.root 0, none⟩) }
  bodies := [.start "f" none]

/-- The values in two orders, as the elements of a literal and in return statements. -/
theorem join_order_irrelevant_lists :
    (∃ c d, [.nothing, .list (.ranked 2)].foldlM Ty.join (.list (.ranked 1)) = some c ∧
      [.list (.ranked 2), .list (.ranked 1)].foldlM Ty.join .nothing = some d ∧ (c == d) = true) ∧
    (∃ c t d t', commonType? "list" .null [⟨0⟩, ⟨1⟩, ⟨2⟩] .bare listsBody = .ok (c, t) ∧
      commonType? "list" .null [⟨1⟩, ⟨2⟩, ⟨0⟩] .bare listsBody = .ok (d, t') ∧
        c.isSome ∧ (c == d) = true) ∧
    ∃ vs t vs' t', [⟨0⟩, ⟨1⟩, ⟨2⟩].mapM (returned · .null) .bare listsBody = .ok (vs, t) ∧
      [⟨1⟩, ⟨2⟩, ⟨0⟩].mapM (returned · .null) .bare listsBody = .ok (vs', t') ∧
        (merged? t).isSome ∧ (merged? t == merged? t') = true := by
  have hfirst : [.nothing, .list (.ranked 2)].foldlM Ty.join (.list (.ranked 1)) =
      some (.optional (.list .tensor)) := by cbv
  have hsecond : [.list (.ranked 2), .list (.ranked 1)].foldlM Ty.join .nothing =
      some (.optional (.list .tensor)) := by cbv
  have hperm : [Ty.list (.ranked 1), .nothing, .list (.ranked 2)].Perm
      [.nothing, .list (.ranked 2), .list (.ranked 1)] := @perm_append_comm _ [_] [_, _]
  obtain ⟨hjoin, hruns⟩ := join_order_irrelevant (by decide) hperm
  obtain ⟨hliteral, hreturns⟩ := hruns .bare listsBody .null [⟨0⟩, ⟨1⟩, ⟨2⟩] [⟨1⟩, ⟨2⟩, ⟨0⟩]
    (.cons rfl (.cons rfl (.cons rfl .nil))) (.cons rfl (.cons rfl (.cons rfl .nil)))
  refine ⟨⟨_, _, hfirst, hsecond, hjoin _ _ hfirst hsecond⟩, ?_, ?_⟩
  · obtain ⟨c, t, hc, d, t', hd, hsome⟩ : ∃ c t,
        commonType? "list" .null [⟨0⟩, ⟨1⟩, ⟨2⟩] .bare listsBody = .ok (c, t) ∧
      ∃ d t', commonType? "list" .null [⟨1⟩, ⟨2⟩, ⟨0⟩] .bare listsBody = .ok (d, t') ∧
        c.isSome := by decide +kernel
    exact ⟨c, t, d, t', hc, hd, hsome, hliteral _ _ _ _ _ hc hd⟩
  · obtain ⟨vs, t, hvs, vs', t', hvs', hsome⟩ : ∃ vs t,
        [⟨0⟩, ⟨1⟩, ⟨2⟩].mapM (returned · .null) .bare listsBody = .ok (vs, t) ∧
      ∃ vs' t', [⟨1⟩, ⟨2⟩, ⟨0⟩].mapM (returned · .null) .bare listsBody = .ok (vs', t') ∧
        (merged? t).isSome := by decide +kernel
    exact ⟨vs, t, vs', t', hvs, hvs', hsome, hreturns _ _ _ _ _ _ rfl rfl rfl hvs hvs'⟩

end Returned

/-! ## Raising -/

theorem raises_place {node : Node} {types : List Ty} (hwf : WellFormed H s)
    (hop : node.op = .raise) : (s.place node types).graph.Raises s.point.block := by
  have hpl : s.graph.freshNode ∈ (s.place node types).graph.before s.point := by
    simp [LowerState.place, LowerState.withGraph, LowerState.graph,
      before_place hwf.coherent hwf.anchored]
  obtain ⟨block, hb, hmem⟩ := mem_nodes_of_mem_before hpl
  exact .raise hb hmem (node?_place_fresh s.point) hop

theorem insertRaise_executes (hfirst : Produces A H Γ first) : Executes A H Γ true (do
      let v ← first
      let _ ← build (Build.insert .raise [v] [] span)) := by
  refine .bind hfirst fun v => ?_
  intro ctx s a t hready hΓ hrun
  obtain ⟨_, _, hbuild, hpure⟩ := bind_ok hrun
  obtain ⟨-, rfl⟩ := pure_ok hpure
  obtain ⟨builder, hsteps, rfl⟩ := build_ok hbuild
  obtain ⟨rfl, rfl⟩ := Build.insert_some hready.coherent hready.anchored hsteps
  refine ⟨form_emission rfl rfl rfl ?_ (by simp) rfl, fun _ => raises_place hready.toWellFormed rfl⟩
  simpa using hΓ (.held v) (by simp)

theorem raise_executes : Executes A H Γ true (raise message default span) := by
  cases message with
  | none => exact insertRaise_executes str_emits
  | some message => exact insertRaise_executes (Expr.operand_sound message).value

/-! ## Branches -/

theorem narrowed_executes {map : RefinementMap} (h : Executes A H [] raises action)
    (hmap : .narrows map ∈ Γ) : Executes A H Γ raises (do insertRefinements map; action) :=
  .bind_loud (insertRefinements_emits hmap) fun _ ctx s a t hready _ =>
    h ctx s a t hready (by simp)

theorem raises_merged {n : NodeId} {a b : BranchSide}
    (h : Merging H base n a b s) (ha : a.raises = true) (hb : b.raises = true) :
    s.graph.Raises s.point.block := by
  obtain ⟨node, hn, hop, others, hbs⟩ := h.sides
  obtain ⟨block, hblock, hmem⟩ := mem_nodes_of_mem_before h.placed
  rcases hbs with hbs | hbs
  · exact .branch hblock hmem hn hop hbs (h.first.raises ha) (h.second.raises hb)
  · exact .branch hblock hmem hn hop hbs (h.second.raises hb) (h.first.raises ha)

theorem statementSide (h : Executes A H Γ raises action)
    (hΓ : ∀ fact ∈ Γ, fact.Holds A H before) (hent : Enters A H ctx before (u.enter b))
    (hrun : action ctx (u.enter b) = .ok (a, t)) (hf : t.scope.current? = some frame) :
    SideEmits A H (u.enter b) ⟨b, frame, raises⟩ [] [] t := by
  obtain ⟨hemit, hrs⟩ := h ctx _ a t hent.ready (fun fact hφ => hent.holds (hΓ fact hφ)) hrun
  have hpoint : t.point.block = b :=
    congrArg InsertPoint.block (hemit.sound hent.ready.toWellFormed).2.point
  exact ⟨⟨hf, by simp, .nil, fun hside => hpoint ▸ hrs hside⟩, hemit⟩

section Sides

variable {condition : ValueId} {body : Lower Unit} {frameA frameB : Frame} {s₁ s₂ : LowerState}
  {a b : Unit} (hbody : Executes A H Γ raisesA body) (horelse : Executes A H Γ raisesB orelse)
  (hready : Ready A H ctx s) (hΓ : ∀ fact ∈ Γ, fact.Holds A H s) (hcond : Held H s condition)
  (hrunA : body ctx ((s.openBranch condition span).enter ⟨s.graph.blocks.length⟩) = .ok (a, s₁))
  (hframeA : s₁.scope.current? = some frameA)
  (hrunB : orelse ctx ((s₁.leave s.point).enter ⟨s.graph.blocks.length + 1⟩) = .ok (b, s₂))
  (hframeB : s₂.scope.current? = some frameB)
include hbody horelse hready hΓ hcond hrunA hframeA hrunB hframeB

theorem branchSides_emit :
    SideEmits A H ((s.openBranch condition span).enter ⟨s.graph.blocks.length⟩)
        ⟨⟨s.graph.blocks.length⟩, frameA, raisesA⟩ [] [] s₁ ∧
      SideEmits A H ((s₁.leave s.point).enter ⟨s.graph.blocks.length + 1⟩)
        ⟨⟨s.graph.blocks.length + 1⟩, frameB, raisesB⟩ [] [] s₂ := by
  have hentersA := enterSide hready hcond span ⟨s.graph.blocks.length⟩ (by simp)
  have hsideA := statementSide (u := s.openBranch condition span) hbody hΓ hentersA hrunA hframeA
  have hentersB : Enters A H ctx s ((s₁.leave s.point).enter ⟨s.graph.blocks.length + 1⟩) :=
    enterOther hready hcond [] _ _ (by simp) (by simp) hsideA.emission (by simp)
  exact ⟨hsideA, statementSide horelse hΓ hentersB hrunB hframeB⟩

/-- How the two sides of a branch, a statement on each side, are merged. -/
theorem branchSides_sound (htruth : (settled condition .bool).Holds A H s)
    (hmerges : mergeSides s.graph.freshNode ⟨⟨s.graph.blocks.length⟩, frameA, raisesA⟩
      ⟨⟨s.graph.blocks.length + 1⟩, frameB, raisesB⟩ span ctx (s₂.leave s.point) =
        .ok (answer, t)) :
    Emission A H s t ∧ ((raisesA && raisesB) = true → t.graph.Raises t.point.block) := by
  obtain ⟨hA, hB⟩ := branchSides_emit hbody horelse hready hΓ hcond hrunA hframeA hrunB hframeB
  obtain ⟨hmerging, -, hsound⟩ := branch_sound (a := ⟨⟨s.graph.blocks.length⟩, frameA, raisesA⟩)
    (b := ⟨⟨s.graph.blocks.length + 1⟩, frameB, raisesB⟩) hready hcond htruth
    (Or.inl ⟨rfl, rfl⟩) hA hB (by simp)
  have hmerge := mergeSides_ok hmerging hready.anchored hmerges
  refine ⟨hsound t hmerge, fun hrs => ?_⟩
  obtain ⟨hraisesA, hraisesB⟩ := Bool.and_eq_true_iff.mp hrs
  exact raises_merged (hmerge.sound hready.anchored hmerging) hraisesA hraisesB

end Sides

theorem openBranch_executes {onTrue onFalse : RefinementMap} {body : Lower Unit}
    (hbody : Executes A H [] raisesA body)
    (horelse : Executes A H [] raisesB orelse) (hcond : .held condition ∈ Γ)
    (htruth : .settled condition .bool ∈ Γ) (htrue : .narrows onTrue ∈ Γ)
    (hfalse : .narrows onFalse ∈ Γ) : Executes A H Γ (raisesA && raisesB) (do
      let branching ← insertBranching condition span
      let (_, trueFrame) ← inNarrowedBranch branching.onTrue onTrue body
      let (_, falseFrame) ← inNarrowedBranch branching.onFalse onFalse orelse
      match trueFrame, falseFrame with
      | some trueFrame, some falseFrame =>
        mergeSides branching.node ⟨branching.onTrue, trueFrame, raisesA⟩
          ⟨branching.onFalse, falseFrame, raisesB⟩ span
      | _, _ => fail (.internal .missingFrame)) := by
  intro ctx s answer t hready hΓ hrun
  obtain ⟨_, _, hopen, hsides⟩ := bind_ok hrun
  obtain ⟨rfl, rfl⟩ := insertBranching_ok hready.toWellFormed hopen
  obtain ⟨⟨a, frameA?⟩, _, hsideA, hr⟩ := bind_ok hsides
  obtain ⟨s₁, hrunA, hframeA, rfl⟩ := inBranch_ok hsideA
  obtain ⟨⟨b, frameB?⟩, _, hsideB, hmerges⟩ := bind_ok hr
  obtain ⟨s₂, hrunB, hframeB, rfl⟩ := inBranch_ok hsideB
  dsimp only at hframeA hframeB hmerges
  split at hmerges
  next frameA frameB =>
    exact branchSides_sound (narrowed_executes hbody htrue)
      (narrowed_executes horelse hfalse) hready
      hΓ (hΓ _ hcond) hrunA hframeA.symm hrunB hframeB.symm (hΓ _ htruth) hmerges
  next => exact absurd hmerges fail_ok

theorem branch_executes {cond : Operand} {body : Lower Unit}
    (hcond : cond.Sound A) (hbody : Executes A H [] raisesA body)
    (horelse : Executes A H [] raisesB orelse) : Executes A H Γ (raisesA && raisesB)
      (branch span cond body orelse raisesA raisesB) := by
  refine .bind (condition_emits hcond) fun condition => ?_
  obtain ⟨hheld, htruth, htrue, hfalse⟩ := condition.mem_facts Γ
  split
  next =>
    intro ctx s a t hready hΓ hrun
    refine (narrowed_executes hbody htrue ctx s a t hready hΓ hrun).imp_right fun hrs h => ?_
    exact hrs (Bool.and_eq_true_iff.mp h).1
  next =>
    intro ctx s a t hready hΓ hrun
    refine (narrowed_executes horelse hfalse ctx s a t hready hΓ hrun).imp_right fun hrs h => ?_
    exact hrs (Bool.and_eq_true_iff.mp h).2
  next => exact openBranch_executes hbody horelse hheld htruth htrue hfalse

theorem assertion_emits {test : Expr} : Acts A H quiet Γ (assertion test message span) := by
  refine .bind (condition_emits (Expr.operand_sound test)) fun condition => ?_
  split
  · exact .pure (by simp)
  · intro ctx s a t hready hΓ hrun
    obtain ⟨_, _, hopen, hside⟩ := bind_ok hrun
    obtain ⟨rfl, rfl⟩ := insertBranching_ok hready.toWellFormed hopen
    obtain ⟨_, _, hraise, hpure⟩ := bind_ok hside
    obtain ⟨-, rfl⟩ := pure_ok hpure
    obtain ⟨u, hrunRaise, -, rfl⟩ := inBranch_ok hraise
    obtain ⟨hheld, htruth, -, -⟩ := condition.mem_facts Γ
    have hcond : Held H s condition.value := hΓ _ hheld
    have hA : SideEmits A H ((s.openBranch condition.value span).enter ⟨s.graph.blocks.length⟩)
        (endedSide ⟨s.graph.blocks.length⟩
          ((s.openBranch condition.value span).enter ⟨s.graph.blocks.length⟩)) [] []
        ((s.openBranch condition.value span).enter ⟨s.graph.blocks.length⟩) :=
      ⟨⟨rfl, by simp, .nil, fun hrs => by cases hrs⟩, .refl _ _⟩
    have hent := enterSide hready hcond span ⟨s.graph.blocks.length + 1⟩ (by simp)
    obtain ⟨hemit, -⟩ := raise_executes (Γ := []) _ _ _ _ hent.ready (by simp) hrunRaise
    have hB : SideEmits A H ((s.openBranch condition.value span).enter ⟨s.graph.blocks.length + 1⟩)
        (endedSide ⟨s.graph.blocks.length + 1⟩ u) [] [] u :=
      ⟨⟨current_endedSide (hemit.sound hent.ready.toWellFormed).2, by simp, .nil,
        fun hrs => by cases hrs⟩, hemit⟩
    obtain ⟨-, hs, hsound⟩ := branch_sound (a := endedSide ⟨s.graph.blocks.length⟩
        ((s.openBranch condition.value span).enter ⟨s.graph.blocks.length⟩))
      (b := endedSide ⟨s.graph.blocks.length + 1⟩ u) hready hcond
      (hΓ _ htruth) (Or.inl ⟨rfl, rfl⟩) hA hB (by simp)
    exact ⟨hsound _ (.refl _), hs.agrees quiet, by simp⟩

/-! ## Loops -/

theorem unrolled_emits {body : ValueId → Lower Unit}
    (hbody : ∀ elem ∈ elems, Emits A H loud (Γ.filter isLasting) (body elem) fun _ => []) :
    Acts A H loud Γ (unrolled elems body) := by
  intro ctx s a t hready hΓ hrun
  obtain ⟨u, helems, rfl⟩ := withLoop_ok hrun
  have he : Ready A H ctx (s.enterLoop .unrolled) :=
    ⟨hready.toWellFormed.of_same rfl (.refl _), hready.context, fun hA =>
      (hready.regular hA).enterLoop .unrolled⟩
  have hall : Emits A H loud (Γ.filter isLasting) (elems.forM body) fun _ => [] :=
    .forM (by simpa using hbody)
  obtain ⟨hemit, -⟩ := hall.apply he (fun fact hφ =>
    holds_of_sameBuilder (s := s) (mem_filter.mp hφ).2 rfl rfl
      (hΓ fact (mem_filter.mp hφ).1)) helems
  exact ⟨.inLoop .unrolled hemit, Scope.agrees_loud _ _, by simp⟩

theorem forLoop_emits {targets iters : List Expr} {body : Lower Unit}
    (hbody : Emits A H loud [] body fun _ => []) :
    Acts A H loud Γ (forLoop targets iters span body) := by
  have hiteration {v : ValueId} {Γ : List Fact} (hv : .held v ∈ Γ) : Acts A H loud Γ (do
        assignTargets targets (.value v) span
        body) :=
    .bind_loud (assignTargets_emits (by simpa [facts] using hv)) fun _ =>
      hbody.weaken (by simp)
  unfold forLoop
  split
  next iter =>
    dsimp only
    split
    · exact .fail_bind
    · refine .bind (Expr.operand_sound iter).entity fun iterable => ?_
      refine .bind isTuple_emits fun isTuple => ?_
      split
      · refine .bind (expand?_emits (by simp +contextual)) fun elems =>
          unrolled_emits fun elem helem => hiteration (mem_filter.mpr ⟨?_, rfl⟩)
        cases elems with
        | none => cases helem
        | some elems => exact mem_append_left _ (by simpa using helem)
      · refine .bind (prepareIterable_emits (by simp +contextual)) fun iterable => ?_
        refine .bind (length_emits iterable (by simp +contextual)) fun trip => .of_quiet ?_
        -- each iteration starts by taking an element, which settles the type of the count
        refine loop_emits (by simp) (by simp) fun counter => ?_
        refine .bind (item_counted trip (mem_iteration ?_) (by simp) ?_) fun current => ?_
        · exact fun fact hφ => mem_append_right _ (mem_append_left _ hφ)
        · simp [countFact, isLasting]
        · exact .keep (by simp) rfl (hiteration (by simp))
  next => exact .fail

/-! ## Globals -/

theorem declareGlobal_emits {ident : Ident} : Acts A H loud Γ (declareGlobal ident) := by
  have hinput : Produces A H Γ (build (Build.create fun g => g.addInput .tensor)) := by
    intro ctx s v t hready hΓ hrun
    obtain ⟨rfl, rfl⟩ := addParam_ok hrun
    refine ⟨.input H s, .refl _ _, forall_mem_singleton.mpr ⟨?_, ?_⟩⟩
    · exact hready.freshValue_not_mem
    · obtain ⟨⟨b, before⟩, hwi, rfl⟩ := hready.rooted
      obtain ⟨block, _, _, hb, -⟩ := hready.pool
      exact ⟨_, hwi.mono ((Grows.refl _).withParam _ _), definedHere_withParam hb before .tensor⟩
  have hlabel {Γ : List Fact} {v : ValueId} : Emits A H quiet Γ
      (build (Build.update fun g => g.setName v (some ident.name))) fun _ => [] := by
    intro ctx s a t hready hΓ hrun
    obtain ⟨builder, hsteps, rfl⟩ := build_ok hrun
    obtain ⟨g, hg, rfl⟩ := Build.update_some.mp hsteps
    obtain rfl := setName_eq_some hg
    exact ⟨.named H s v (some ident.name), .refl _ _, by simp⟩
  refine .bind hinput fun v => .bind hlabel fun _ => ?_
  exact bindName_emits (by simp) (by simp [facts])

/-! ## Bodies -/

theorem surfaceType_ok {expr : Expr} (h : surfaceType expr ctx s = .ok (ty, t)) :
    s = t ∧ (ctx.Regular → ty.Regular) := by
  obtain ⟨_, _, hread, hr⟩ := bind_ok h
  cases hread
  obtain ⟨hty, rfl⟩ := ofExcept_ok hr
  exact ⟨rfl, fun hreg => hreg.host.surfaceClosed.surfaceType expr hty⟩

theorem resultType_ok {declared : Option Ty}
    (h : result.mapM surfaceType ctx s = .ok (declared, t)) :
    s = t ∧ (ctx.Regular → ∀ ty ∈ declared, ty.Regular) := by
  cases result with
  | none =>
    obtain ⟨rfl, rfl⟩ := pure_ok h
    exact ⟨rfl, by simp⟩
  | some expr =>
    rw [Option.mapM_some, map_eq_pure_bind] at h
    obtain ⟨ty, u, hty, hr⟩ := bind_ok h
    obtain ⟨rfl, hreg⟩ := surfaceType_ok hty
    obtain ⟨rfl, rfl⟩ := pure_ok hr
    exact ⟨rfl, by simpa using hreg⟩

theorem enclosing?_free {previous : Option Binding} (hfree : s.scope.findEnclosing? name = none)
    (h : enclosing? name ctx s = .ok (previous, t)) : previous = none ∧ s = t := by
  unfold enclosing? at h
  split at h
  · exact (pure_ok h).imp_left Eq.symm
  · have hr := getScope_run h
    rw [hfree] at hr
    exact (pure_ok hr).imp_left Eq.symm

/-- A parameter is stored under its name; nothing around a body has a say about its names. -/
theorem bindParam_ok (hwf : WellFormed H s) (hbody : s.scope.findEnclosing? name = none) (h : (do
      let v ← addParam block ty
      bindName name (.value v) none span : Lower Unit) ctx s = .ok (a, t)) :
    ∃ label, s.declare block ⟨name, ty, span, label⟩ = t := by
  obtain ⟨_, _, hp, hbind⟩ := bind_ok h
  obtain ⟨rfl, rfl⟩ := addParam_ok hp
  obtain ⟨_, _, hname, hfit⟩ := bind_ok hbind
  obtain ⟨label, rfl⟩ := nameValue_ok hname
  obtain ⟨_, _, henclosing, hr⟩ := bind_ok hfit
  have hfree : (s.withGraph ((s.graph.withParam block ty).named s.graph.freshValue
      label)).scope.findEnclosing? name = none := hbody
  obtain ⟨rfl, rfl⟩ := enclosing?_free hfree henclosing
  obtain ⟨_, _, hpure, hstore⟩ := bind_ok hr
  obtain ⟨rfl, rfl⟩ := pure_ok hpure
  obtain ⟨found, htype, hstored⟩ := typeOf_run hstore
  have hnamed := (hwf.withParam block ty).named s.graph.freshValue label
  obtain rfl := store_ok hnamed.coherent hnamed.anchored hstored
  have hty : ((s.graph.withParam block ty).named s.graph.freshValue label).typeOf?
      s.graph.freshValue = some ty := by
    rw [typeOf?_named, typeOf?_withParam]
  cases hty.symm.trans htype
  exact ⟨label, rfl⟩

theorem declareParam_ok {param : Param} {answer : String × Ty}
    (hwf : WellFormed H s) (hbody : ∀ name, s.scope.findEnclosing? name = none)
    (h : declareParam block param ctx s = .ok (answer, t)) :
    ∃ label, (ctx.Regular → answer.2.Regular) ∧
      s.declare block ⟨answer.1, answer.2, param.name.span, label⟩ = t := by
  have hbound : ∀ {ty : Ty}, (ctx.Regular → ty.Regular) → (do
      let v ← addParam block ty
      bindName param.name.name (.value v) none param.name.span
      return (param.name.name, ty) : Lower (String × Ty)) ctx s = .ok (answer, t) →
      ∃ label, (ctx.Regular → answer.2.Regular) ∧
        s.declare block ⟨answer.1, answer.2, param.name.span, label⟩ = t := by
    intro ty hty hrun
    obtain ⟨v, u, hp, hr⟩ := bind_ok hrun
    obtain ⟨a, hbind, rfl⟩ := map_ok hr
    obtain ⟨label, hdeclare⟩ := bindParam_ok hwf (hbody _) (bind_iff.mpr ⟨v, u, hp, hbind⟩)
    exact ⟨label, hty, hdeclare⟩
  unfold declareParam at h
  dsimp only at h
  cases htype : param.ty with simp only [htype] at h
  | none =>
    obtain ⟨_, _, hread, hr⟩ := bind_ok h
    cases hread
    exact hbound LowerContext.Regular.paramType hr
  | some type =>
    obtain ⟨ty, _, hty, hr⟩ := bind_ok h
    obtain ⟨rfl, hreg⟩ := surfaceType_ok hty
    exact hbound hreg hr

theorem declareParams_ok {answer : List (String × Ty)}
    (hwf : WellFormed H s) (hpoint : s.point.block = block)
    (hbody : ∀ name, s.scope.findEnclosing? name = none)
    (h : params.mapM (declareParam block) ctx s = .ok (answer, t)) :
    ∃ decls : List ParamDecl, answer = decls.map (fun decl => (decl.name, decl.ty)) ∧
      (ctx.Regular → ∀ decl ∈ decls, decl.ty.Regular) ∧ s.declareAll block decls = t := by
  induction params generalizing s answer with
  | nil =>
    obtain ⟨rfl, rfl⟩ := pure_ok h
    exact ⟨[], rfl, by simp, rfl⟩
  | cons param rest ih =>
    rw [mapM_cons] at h
    obtain ⟨first, _, hfirst, htail⟩ := bind_ok h
    obtain ⟨label, hreg, rfl⟩ := declareParam_ok hwf hbody hfirst
    obtain ⟨others, hothers, rfl⟩ := map_ok htail
    obtain ⟨decls, rfl, hregulars, hdecl⟩ := ih (hwf.declare hpoint _) hpoint
      (fun name => ((Scope.kept_recordPlain _ _ _).findEnclosing? name).trans (hbody name)) hothers
    exact ⟨⟨first.1, first.2, param.name.span, label⟩ :: decls, rfl,
      fun hctx => forall_mem_cons.mpr ⟨hreg hctx, hregulars hctx⟩, hdecl⟩

theorem bodyResult_emits : Produces A H Γ (bodyResult span) := by
  refine .bind_sure getBody_emits fun body hdecl => .bind .getScope fun scope => ?_
  split
  · refine .bind lookup_emits fun entity => .bind (toValue_emits (by simp +contextual)) fun v => ?_
    split
    · exact (coerce_emits (by simp)).consequence (by simp)
    · exact .pure (by simp)
  · split
    · exact .fail
    · split
      next declared hbody =>
        split
        · exact none_emits fun hA => hdecl hA declared hbody
        · exact .fail
      next => exact none_emits fun _ => .nothing

theorem wellFormed_declareAll (hwf : WellFormed H s)
    (hpoint : s.point.block = block) (decls : List ParamDecl) :
    WellFormed H (s.declareAll block decls) ∧ (s.declareAll block decls).point = s.point := by
  induction decls generalizing s with
  | nil => exact ⟨hwf, rfl⟩
  | cons decl rest ih => exact ih (hwf.declare hpoint decl) hpoint

theorem body_ok {closure : Option NodeId} {signature : Signature}
    (hready : ∀ body, RegularHint A body.declared → Ready A H ctx (s.enterBody block closure body))
    (hstatements : Executes A H [] raises statements)
    (h : body name params result span statements block closure ctx s = .ok (signature, t)) :
    ∃ (start : BodyContext) (decls : List ParamDecl) (s₁ : LowerState) (output : ValueId) (ty : Ty),
      RegularHint A start.declared ∧ (A → ∀ decl ∈ decls, decl.ty.Regular) ∧
        Emission A H ((s.enterBody block closure start).declareAll block decls) s₁ ∧
        Held H s₁ output ∧ s₁.graph.typeOf? output = some ty ∧
        signature = ⟨name, decls.map fun decl => (decl.name, decl.ty), ty⟩ ∧
        (s₁.leaveBody s.point).withResults block [output] = t := by
  obtain ⟨declared, _, hdeclared, hbody⟩ := bind_ok h
  obtain ⟨rfl, hresultType⟩ := resultType_ok hdeclared
  have hcontext : A → ctx.Regular :=
    (hready (.start name none) (regularHint_none A)).context
  have hhint : RegularHint A declared := fun hA => hresultType (hcontext hA)
  have he := hready (.start name declared) hhint
  obtain ⟨answer, _, hf, hpure⟩ := bind_ok hbody
  obtain ⟨u, hinside, rfl⟩ := inBody_ok hf
  obtain ⟨rfl, rfl⟩ := pure_ok hpure
  obtain ⟨_, _, hdeclare, hr⟩ := bind_ok hinside
  obtain ⟨decls, rfl, hregulars, rfl⟩ :=
    declareParams_ok he.toWellFormed rfl (fun _ => rfl) hdeclare
  have hdecls : A → ∀ decl ∈ decls, decl.ty.Regular := fun hA =>
    hregulars (hcontext hA)
  have hready₀ : Ready A H ctx
      ((s.enterBody block closure (.start name declared)).declareAll block decls) :=
    ⟨(wellFormed_declareAll he.toWellFormed rfl decls).1, hcontext, fun hA =>
      (he.regular hA).declareAll block (hdecls hA)⟩
  obtain ⟨_, s₁, hrun, hr⟩ := bind_ok hr
  obtain ⟨hemit, -⟩ := hstatements ctx _ _ s₁ hready₀ (by simp) hrun
  obtain ⟨output, s₂, hret, hr⟩ := bind_ok hr
  obtain ⟨hemit', -, hheld⟩ : Emission A H s₁ s₂ ∧ _ ∧ _ :=
    bodyResult_emits.apply (hemit.ready hready₀) (Γ := []) (by simp) hret
  obtain ⟨_, _, hadd, hr⟩ := bind_ok hr
  obtain rfl := addResult_ok hadd
  obtain ⟨ty, hty, hsignature⟩ := typeOf_run hr
  obtain ⟨hanswer, rfl⟩ := pure_ok hsignature
  exact ⟨.start name declared, decls, s₂, output, ty, hhint, hdecls, hemit.trans hemit',
    by simpa using hheld, hty, hanswer.symm, rfl⟩

theorem closure_emits {name : Ident} (hstatements : Executes A H [] raises statements) :
    Acts A H loud Γ (do
      let (n, block) ← insertClosure span
      let signature ← body name.name params result span statements block (some n)
      let closure ← build (Build.query fun g => g.output? n)
      recordSignature closure signature
      bindName name.name (.closure closure) none name.span) := by
  intro ctx s a t hready hΓ hrun
  obtain ⟨_, _, hinsert, hr⟩ := bind_ok hrun
  obtain ⟨rfl, rfl⟩ := insertClosure_ok hready.toWellFormed hinsert
  obtain ⟨signature, _, hbody, hr⟩ := bind_ok hr
  obtain ⟨hopen, henc⟩ := Between.openClosure hready.toWellFormed span
  have he : ∀ body, RegularHint A body.declared → Ready A H ctx
      ((s.openClosure span).enterBody s.graph.freshBlock (some s.graph.freshNode) body) :=
    fun body hdecl => ⟨(hopen.enterBody henc body).wellFormed, hready.context,
      fun hA => ((hready.regular hA).openClosure span).enterBody _ _ (hdecl hA)⟩
  obtain ⟨start, decls, s₁, output, ty, hdecl, hdecls, hemit, hheld, hty, rfl, rfl⟩ :=
    body_ok he hstatements hbody
  obtain ⟨hclosed, -, hout, hcl⟩ :=
    closure_runs decls hready.toWellFormed hdecl hdecls hemit hheld hty name.name
  obtain ⟨v, builder, hsteps, hr⟩ := build_run hr
  obtain ⟨hv, rfl⟩ := Build.query_some.mp hsteps
  cases hout.symm.trans hv
  obtain ⟨_, _, hrecord, hbind⟩ := bind_ok hr
  cases hrecord
  obtain ⟨hbound, -, -⟩ := (bindName_emits (Γ := [.held s.graph.freshValue]) (by simp)
    (by simp [facts])).apply (hclosed.ready hready) (by simpa using hcl) hbind
  exact ⟨hclosed.trans hbound, Scope.agrees_loud _ _, by simp⟩

theorem requireNoReturn_ok (h : requireNoReturn stmt ctx s = .ok (a, t)) : s = t := by
  unfold requireNoReturn at h
  dsimp only at h
  split at h
  · obtain ⟨_, _, hfail, -⟩ := bind_ok h
    exact absurd hfail fail_ok
  · split at h
    · exact absurd h fail_ok
    · exact (pure_ok h).2

theorem requireNoReturn_emits : Acts A H quiet Γ (requireNoReturn stmt) :=
  .ask fun _ _ _ _ h => ⟨(requireNoReturn_ok h).symm, by simp⟩

end Lower

/-! ## The tree -/

namespace Stmt

open Lower

variable {A : Prop} {H : List ValueId}

mutual

theorem lower_executes (stmt : Stmt) : Executes A H [] stmt.alwaysRaises stmt.lower := by
  cases stmt with rw [lower]
  | branch span cond body orelse =>
    rw [alwaysRaises]
    exact branch_executes (Expr.operand_sound cond) (lowerAll_executes body)
      (lowerAll_executes orelse)
  | whileLoop span cond body =>
    refine .of_emits (.of_quiet (loop_emits (by simp) (fun operand hopd => ?_) fun _ =>
      (lowerAll_executes body).emits.weaken (by simp)))
    cases cond with
    | none => cases hopd
    | some cond =>
      obtain rfl : cond.operand = operand := Option.some.inj hopd
      exact Expr.operand_sound cond
  | forLoop span targets iters body =>
    exact .of_emits (forLoop_emits (lowerAll_executes body).emits)
  | assign span target ty value => exact .of_emits assign_emits
  | augment span target op value => exact .of_emits augment_emits
  | ret span value => exact .of_emits returnValue_emits
  | leave span | next span => exact .of_emits (.of_quiet (exitLoop_emits rfl))
  | pass span => exact .of_emits (.pure (Δ := fun _ => []) (by simp))
  | raise span value => exact raise_executes
  | assert span test message => exact .of_emits (.of_quiet assertion_emits)
  | eval span value =>
    exact .of_emits (.bind (Expr.operand_sound value).entity fun _ =>
      .pure (Δ := fun _ => []) (by simp))
  | globals span names => exact .of_emits (.forM fun ident _ => declareGlobal_emits)
  | define span definition => exact .of_emits (lowerClosure_emits definition)

theorem lowerAll_executes (stmts : List Stmt) :
    Executes A H [] (lastAlwaysRaises stmts) (lowerAll stmts) := by
  cases stmts with rw [lowerAll]
  | nil => exact .of_emits (.pure (Δ := fun _ => []) (by simp))
  | cons stmt rest =>
    cases rest with
    | nil => simpa [lowerAll, lastAlwaysRaises] using lower_executes stmt
    | cons next more =>
      exact .bind requireNoReturn_emits fun _ => .bind_loud (lower_executes stmt).emits fun _ =>
        lowerAll_executes (next :: more)

theorem lowerClosure_emits (definition : DefOf Stmt) :
    Emits A H loud [] definition.lowerClosure fun _ => [] := by
  cases definition with
  | mk name params result body span =>
    rw [DefOf.lowerClosure]
    exact closure_emits (lowerAll_executes body)

end

end Stmt

/-! ## A whole definition -/

theorem wellFormed_start (body : BodyContext) : WellFormed [] (.start body) := by
  have hnode : ∀ n node, (start body).graph.node? n ≠ some node := by
    intro n node hnode
    simp [start, enterBody, mapScope, mapBodies, moveTo, node?, empty] at hnode
  refine ⟨scoped_empty, ⟨?_, ?_, ?_⟩, by simp, ?_, ?_, ?_, ?_, ?_⟩
  iterate 3 exact fun n node h => absurd h (hnode n node)
  · exact ⟨{}, [], [], rfl, rfl, rfl, by simp, by simp [start, enterBody,
      mapScope, mapBodies, moveTo]⟩
  · exact ⟨{}, rfl, fun n hn => by cases hn⟩
  · exact fun n node hn => by cases hn
  · exact ⟨_, .here _, rfl⟩
  · exact ⟨rfl, by simp [Frame.get?], by simp, _, .here _, trivial⟩

theorem ready_start {A : Prop} {ctx : LowerContext} (hctx : A → ctx.Regular)
    (body : BodyContext) (hdecl : RegularHint A body.declared) : Ready A [] ctx (.start body) := by
  refine ⟨wellFormed_start body, hctx, fun hA => ?_⟩
  have hempty : ({} : LowerState).Regular :=
    ⟨by simp [Graph.types, empty], by simp, by simp, by simp, by simp⟩
  exact hempty.enterBody _ _ (hdecl hA)

/-- A definition is an emission from the state in which its parameters are declared, followed by
what it returns. -/
theorem Def.toGraph_ok {A : Prop} {definition : Def} {host : Host} {settings : Settings}
    {signature : Signature} {g : Graph} (hctx : A → LowerContext.Regular ⟨host, settings⟩)
    (h : definition.toGraph host settings = .ok (signature, g)) :
    ∃ (body : BodyContext) (decls : List ParamDecl) (t : LowerState) (output : ValueId),
      Ready A [] ⟨host, settings⟩ ((start body).declareAll root decls) ∧
        Emission A [] ((start body).declareAll root decls) t ∧
        Held [] t output ∧ t.graph.typeOf? output = some signature.result ∧
        signature.params = decls.map (fun decl => (decl.name, decl.ty)) ∧
        g = t.graph.withResult root output := by
  obtain ⟨name, params, result, body, span⟩ := definition
  unfold Def.toGraph at h
  cases hlower : Def.lower ⟨name, params, result, body, span⟩ ⟨host, settings⟩ {} with
  | error failure =>
    rw [hlower] at h
    cases h
  | ok answer =>
    rw [hlower] at h
    obtain ⟨found, state⟩ := answer
    obtain ⟨rfl, rfl⟩ := Prod.mk.inj (Except.ok.inj h)
    obtain ⟨start, decls, s₁, output, ty, hdecl, hdecls, hemit, hheld, hty, rfl, rfl⟩ :=
      Lower.body_ok (ready_start hctx) (lowerAll_executes body) hlower
    have hready := ready_start hctx start hdecl
    refine ⟨start, decls, s₁, output, ⟨?_, hctx, fun hA => ?_⟩, hemit, hheld, hty, rfl, rfl⟩
    · exact (Lower.wellFormed_declareAll hready.toWellFormed rfl decls).1
    · exact (hready.regular hA).declareAll root (hdecls hA)

end Flowgraph
