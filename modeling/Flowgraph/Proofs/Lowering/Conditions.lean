import Flowgraph.Proofs.Lowering.Brackets
import Flowgraph.Proofs.Lowering.Values

/-!
# Tests and conditional expressions

A test narrows variables to types below the ones that they have: that is what makes the stores of
narrowed values legal.
-/

namespace Flowgraph

open Flowgraph.Fact List Option Outcome Scope

/-! ## Conditions -/

/-- What holds of a condition after it was lowered. -/
def Condition.facts (condition : Condition) : List Fact :=
  [.held condition.value, .settled condition.value .bool, .narrows condition.refinements.onTrue,
    .narrows condition.refinements.onFalse]

theorem Condition.mem_facts (condition : Condition) (Γ : List Fact) :
    .held condition.value ∈ condition.facts ++ Γ ∧
      .settled condition.value .bool ∈ condition.facts ++ Γ ∧
      .narrows condition.refinements.onTrue ∈ condition.facts ++ Γ ∧
      .narrows condition.refinements.onFalse ∈ condition.facts ++ Γ := by
  simp [facts]

/-- What holds of the outcome of a test. -/
def Outcome.verdict (A : Prop) (outcome : Outcome) : List Fact :=
  outcome.entity.facts A ++ outcome.entity.values.map fun v => .settled v .bool

theorem Outcome.verdict_value (A : Prop) (v : ValueId) (known : Option Bool) :
    verdict A ⟨.value v, known⟩ = [.held v, .settled v .bool] := by
  simp [verdict, Entity.facts, Entity.values]

theorem Primitive.resultType?_verdict {operation : Primitive}
    (hverdict : operation = .not ∨ operation = .is ∨ operation = .isNot) {args : List Ty} {ty : Ty}
    (h : operation.resultType? args = some ty) : ty = .bool := by
  rcases hverdict with rfl | rfl | rfl
  all_goals
    match args with
    | [] | _ :: _ :: _ :: _ => cases h
    | [a] | [a, b] =>
      first
      | exact (Primitive.given_eq_some_iff.mp h).2.symm
      | exact (Option.some.inj h).symm
      | cases h

namespace Lower

variable {A : Prop} {H : List ValueId} {Γ : List Fact} {ctx : LowerContext} {s t : LowerState}
  {v condition : ValueId} {ty : Ty} {span : Span} {map : RefinementMap} {operand rhs lhs : Operand}
  {u : LowerState} {b : BlockId} {entity : Entity} {value negated known isAnd answer : Bool}

theorem holds_narrows (h : map.Narrows s.scope.typeOf?) : (narrows map).Holds A H s :=
  ⟨h.sorted.nodup, h.types⟩

theorem preludeCallee?_ok {callee : Expr} {entry : Option PreludeEntry}
    (h : preludeCallee? callee ctx s = .ok (entry, t)) : s = t := by
  unfold preludeCallee? at h
  cases hname : callee.asName? with simp only [hname] at h
  | none => exact (pure_ok h).2
  | some name =>
    have hr := getScope_run h
    split at hr
    · exact (pure_ok hr).2
    · obtain ⟨_, _, hread, hr⟩ := bind_ok hr
      cases hread
      exact (pure_ok hr).2

theorem isInstanceCall_ok {expr : Expr}
    (h : isInstanceCall expr ctx s = .ok (answer, t)) : s = t ∧ (answer = true →
      ∃ span callee args keywords, expr = .call span callee args keywords ∧
        preludeCallee? callee ctx s = .ok (some .isInstance, s)) := by
  cases expr with
  | call span callee args keywords =>
    obtain ⟨entry, u, hcal, hr⟩ := bind_ok h
    obtain rfl := preludeCallee?_ok hcal
    split at hr
    · obtain ⟨rfl, rfl⟩ := pure_ok hr
      exact ⟨rfl, fun _ => ⟨span, callee, args, keywords, rfl, hcal⟩⟩
    · obtain ⟨rfl, rfl⟩ := pure_ok hr
      exact ⟨rfl, fun hfalse => by cases hfalse⟩
  | _ =>
    obtain ⟨rfl, rfl⟩ := pure_ok h
    exact ⟨rfl, fun hfalse => by cases hfalse⟩

theorem toValue_settled (ty : Ty) (h : ∀ fact ∈ entity.facts A, fact ∈ Γ)
    (hset : ∀ v ∈ entity.values, .settled v ty ∈ Γ) :
    Emits A H quiet Γ (toValue span entity) fun v => [.held v, .settled v ty] := by
  refine .ask fun ctx s v t hrun => ?_
  obtain ⟨hv, rfl⟩ := ofExcept_ok hrun
  refine ⟨rfl, fun hready hΓ fact hφ => hΓ fact ?_⟩
  rcases mem_pair.mp hφ with rfl | rfl
  · exact h _ (by cases entity <;> cases hv <;> simp [Entity.facts])
  · exact hset _ (by cases entity <;> cases hv <;> simp [Entity.values])

theorem instanceTest_sound (h : operand.Sound A)
    (hready : Ready A H ctx s) (hΓ : ∀ fact ∈ Γ, fact.Holds A H s)
    (hcall : isInstanceCall operand.expr ctx s = .ok (true, s))
    (hrun : operand.value none ctx s = .ok (v, t)) :
    Emission A H s t ∧ s.scope.Agrees quiet t.scope ∧
      ∀ fact ∈ .held v :: .settled v .bool :: Γ, fact.Holds A H t := by
  obtain ⟨outcome, u, hlower, hv⟩ := bind_ok hrun
  obtain ⟨hemit, hq, hafter⟩ :=
    (h.lower H Γ none (regularHint_none A)).apply hready hΓ hlower
  have hverdict := h.verdict H ctx s outcome u none hready hcall hlower
  have hkept : ∀ fact ∈ Γ, fact.Holds A H u := fun fact hφ =>
    (hΓ fact hφ).mono_quiet hready.toWellFormed (hemit.sound hready.toWellFormed).2 hq
  obtain ⟨hv', hquiet', hlast⟩ := (toValue_settled .bool
    (Γ := verdict A outcome) (by simp +contextual [verdict])
    (by simp +contextual [verdict])).apply (hemit.ready hready) (fun fact hφ => by
      rcases mem_append.mp hφ with hφ | hφ
      · exact hafter fact (mem_append_left _ hφ)
      · obtain ⟨w, hw, rfl⟩ := mem_map.mp hφ
        exact hverdict w hw) hv
  obtain ⟨-, rfl⟩ := ofExcept_ok hv
  refine ⟨hemit, hq, ?_⟩
  simp only [forall_mem_cons] at hlast ⊢
  exact ⟨hlast.1, hlast.2.1, hkept⟩

theorem condition_emits (h : operand.Sound A) :
    Emits A H quiet Γ operand.condition Condition.facts := by
  intro ctx s condition t hready hΓ hrun
  replace hrun := getScope_run hrun
  have hnarr := operand.expr.refinements_narrows s.scope.typeOf?
  generalize operand.expr.refinements s.scope.typeOf? = refinements at hrun hnarr
  have htrue : (narrows refinements.onTrue).Holds A H s := holds_narrows hnarr.onTrue
  have hfalse : (narrows refinements.onFalse).Holds A H s := holds_narrows hnarr.onFalse
  have hfacts' : ∀ fact ∈ .narrows refinements.onTrue :: .narrows refinements.onFalse :: Γ,
      fact.Holds A H s := by
    simpa [htrue, hfalse] using hΓ
  split at hrun
  next htest =>
    refine Emits.apply (Δ := Condition.facts) ?_ hready hfacts' hrun
    refine .bind (h.lower _ _ none (regularHint_none A)) fun outcome => ?_
    refine .bind (toValue_settled .bool ?_ ?_) fun v => .pure (by simp [Condition.facts])
    · simp +contextual [Outcome.facts]
    · simp +contextual [Outcome.facts, htest]
  next =>
    obtain ⟨isCall, _, hcall, hrun⟩ := bind_ok hrun
    obtain ⟨rfl, -⟩ := isInstanceCall_ok hcall
    cases isCall with
    | true =>
      obtain ⟨v, u, hv, hrun⟩ := bind_ok hrun
      obtain ⟨hemit, hq, hafter⟩ := instanceTest_sound h hready hfacts' hcall hv
      obtain ⟨hr, hquiet', hlast⟩ := Emits.apply (Δ := Condition.facts)
        (.bind knownBool?_emits fun known => .pure (by simp [Condition.facts]))
        (hemit.ready hready) hafter hrun
      exact ⟨hemit.trans hr, hq.trans hquiet', hlast⟩
    | false =>
      refine Emits.apply (Δ := Condition.facts) ?_ hready hfacts' hrun
      exact .bind (truth_emits h) fun v => .pure (by simp [Condition.facts])

theorem knownOutcome_emits : Emits A H quiet Γ (knownOutcome known span) (verdict A) := by
  have hbool : Emits A H quiet Γ (build (Build.bool known span))
      fun v => [.held v, .settled v .bool] := bool_emits.imply fun v s hafter => by
    simp only [forall_mem_cons] at hafter ⊢
    exact ⟨hafter.1, fun _ => hafter.2.1, by simp⟩
  exact .bind hbool fun v => .pure (by simp [verdict_value])

theorem negation_emits (h : operand.Sound A) :
    Emits A H quiet Γ (negation span operand) (verdict A) := by
  refine .bind (condition_emits h) fun inner => ?_
  split
  · exact knownOutcome_emits
  · refine .bind (primitive_settled .bool (by simp [Condition.facts])
      fun s args ty _ _ _ hret => Primitive.resultType?_verdict (Or.inl rfl) hret) fun v => ?_
    exact .pure (by simp [ofValue, verdict_value])

theorem noneStatus_emits : Acts A H quiet Γ (noneStatus entity) := by
  unfold noneStatus
  split
  · refine .bind typeOf_emits' fun ty => ?_
    split <;> exact .pure (by simp)
  · exact .pure (by simp)

theorem identity_emits (hlhs : lhs.Sound A) (hrhs : rhs.Sound A) :
    Emits A H quiet Γ (identity span negated lhs rhs) (verdict A) := by
  refine .bind hlhs.entity fun left => .bind hrhs.entity fun right => ?_
  refine .bind noneStatus_emits fun _ => .bind noneStatus_emits fun _ => ?_
  split
  · exact knownOutcome_emits
  · refine .bind (toValues_emits ?_) fun inputs => ?_
    · simp +contextual
    · refine .bind (primitive_settled .bool (by simp +contextual)
        fun s args ty _ _ _ hret => Primitive.resultType?_verdict ?_ hret) fun v => ?_
      · cases negated <;> simp
      · exact .pure (by simp [ofValue, verdict_value])

/-! ## Branches that are expressions -/

/-- The side of a branch that ends in a state and does not raise. -/
def endedSide (b : BlockId) (t : LowerState) : BranchSide :=
  { block := b, frame := t.scope.current?.getD { block := b, startsBody := false },
    raises := false }

theorem current_endedSide (hadv : Advances H (s.enter b) t) :
    t.scope.current? = some (endedSide b t).frame := by
  obtain ⟨frame, outer, hfs, -, -⟩ := map_eq_cons_iff.mp hadv.scope.shells
  rw [endedSide, current?, hfs, head?_cons, getD_some]

theorem endedSide_emits (hready : Ready A H ctx (u.enter b)) (hemit : Emission A H (u.enter b) t)
    (hv : Held H t v) (ty : Ty)
    (hbelow : ∀ found, t.graph.typeOf? v = some found → A → found.Below ty) :
    SideEmits A H (u.enter b) (endedSide b t) [v] [ty] t := by
  obtain ⟨hwf, hadv⟩ := hemit.sound hready.toWellFormed
  obtain ⟨found, hfd⟩ := hv.exists_type hwf
  exact ⟨⟨current_endedSide hadv, forall_mem_singleton.mpr hv,
    .cons ⟨found, hfd, hbelow found hfd⟩ .nil, fun hrs => by cases hrs⟩, hemit⟩

theorem narrowedSide {α : Type} {action : Lower α} {a : α} {Δ : α → List Fact}
    (hΓ : ∀ fact ∈ Γ, fact.Holds A H s) (hmap : .narrows map ∈ Γ)
    (haction : Emits A H loud (Γ.filter isLasting) action Δ) (hent : Enters A H ctx s (u.enter b))
    (hrun : (do insertRefinements map; action) ctx (u.enter b) = .ok (a, t)) :
    Emission A H (u.enter b) t ∧ ∀ fact ∈ Δ a, fact.Holds A H t := by
  have hnarrowed := (insertRefinements_emits hmap).bind_loud fun _ => haction
  obtain ⟨hemit, -, hafter⟩ := hnarrowed.apply hent.ready
    (fun fact hφ => hent.holds (hΓ fact hφ)) hrun
  exact ⟨hemit, hafter⟩

theorem branchExpression_sound {s₁ s₂ : LowerState} {valueA valueB : ValueId} {a b : BranchSide}
    (hready : Ready A H ctx s) (hcond : Held H s condition)
    (htruth : (settled condition .bool).Holds A H s) (hbs : s.Sides a.block b.block)
    (hA : SideEmits A H ((s.openBranch condition span).enter a.block) a [valueA] [ty] s₁)
    (hB : SideEmits A H (((s₁.leave s.point).withResults a.block [valueA]).enter b.block)
      b [valueB] [ty] s₂) (hreg : A → ty.Regular)
    (hrun : addOutput s.graph.freshNode ty ctx ((s₂.leave s.point).withResults b.block [valueB]) =
      .ok (v, t)) : Emission A H s t ∧ s.scope.Agrees quiet t.scope ∧ Held H t v ∧
      t.graph.typeOf? v = some ty := by
  obtain ⟨hmerging, hs, hmerge⟩ := branch_sound hready hcond htruth hbs hA hB (by simpa using hreg)
  obtain ⟨rfl, rfl⟩ := addOutput_ok hrun
  refine ⟨hmerge _ (.refl _), hs.agrees quiet, ⟨fun hin => Nat.lt_irrefl _
    (hmerging.wellFormed.known _ hin), ?_⟩, Graph.typeOf?_withOutput _ _ ty⟩
  exact Graph.named_none (Graph.withOutput _ _ ty) _ ▸ (hmerging.definedHere_output ty none).defined

theorem ternary_emits {cond body orelse : Operand} {hint : Option Ty} (hcond : cond.Sound A)
    (hbody : body.Sound A) (horelse : orelse.Sound A) (hhint : RegularHint A hint) :
    Produces A H Γ (ternary span cond body orelse hint) := by
  refine .bind (condition_emits hcond) fun condition => ?_
  obtain ⟨hheld, htruth, htrue, hfalse⟩ := condition.mem_facts Γ
  split
  · exact refined_emits htrue (hbody.hinted hhint).of_quiet (by simp [isLasting])
  · exact refined_emits hfalse (horelse.hinted hhint).of_quiet (by simp [isLasting])
  · intro ctx s v t hready hΓ hrun
    obtain ⟨branching, _, hinsert, hrun⟩ := bind_ok hrun
    obtain ⟨rfl, rfl⟩ := insertBranching_ok hready.toWellFormed hinsert
    obtain ⟨⟨bodyValue, _⟩, _, hbranch, hrun⟩ := bind_ok hrun
    obtain ⟨s₁, hrunBody, -, rfl⟩ := inBranch_ok hbranch
    obtain ⟨_, _, hret, hrun⟩ := bind_ok hrun
    obtain rfl := addResult_ok hret
    obtain ⟨⟨orelseValue, _⟩, _, hbranch, hrun⟩ := bind_ok hrun
    obtain ⟨s₂, hrunOrelse, -, rfl⟩ := inBranch_ok hbranch
    obtain ⟨_, _, hret, hrun⟩ := bind_ok hrun
    obtain rfl := addResult_ok hret
    obtain ⟨bodyType, hbodyType, hrun⟩ := typeOf_run hrun
    obtain ⟨orelseType, horelseType, hrun⟩ := typeOf_run hrun
    cases hj : Ty.join bodyType orelseType with simp only [hj] at hrun
    | none => exact absurd hrun fail_ok
    | some joined =>
      -- the first side is done before the second starts, but its type is asked for in the end
      have hcondition := hΓ _ hheld
      have hentersA := enterSide hready hcondition span ⟨s.graph.blocks.length⟩ (by simp)
      obtain ⟨hA, hafterA⟩ :=
        narrowedSide hΓ htrue (hbody.hinted hhint).of_quiet hentersA hrunBody
      have hheldA : Held H s₁ bodyValue := hafterA _ (.head _)
      have hentersB := enterOther hready hcondition [bodyValue] _ ⟨s.graph.blocks.length + 1⟩
        (by simp) (by simp) hA (forall_mem_singleton.mpr hheldA)
      obtain ⟨hB, hafterB⟩ :=
        narrowedSide hΓ hfalse (horelse.hinted hhint).of_quiet hentersB hrunOrelse
      have hheldB : Held H s₂ orelseValue := hafterB _ (.head _)
      obtain ⟨-, hadvB⟩ := hB.sound hentersB.ready.toWellFormed
      have hready₂ := hB.ready hentersB.ready
      have hbelow : A → bodyType.Below joined ∧ orelseType.Below joined :=
        fun hA => Ty.below_join _ _ (hready₂.typeOf? hbodyType hA).normal
          (hready₂.typeOf? horelseType hA).normal hj
      have hsideA := endedSide_emits hentersA.ready hA hheldA joined fun found hfd hA => by
          have hkept : s₂.graph.typeOf? bodyValue = some found := hadvB.typeOf? hheldA.1 hfd
          exact Option.some.inj (hbodyType.symm.trans hkept) ▸ (hbelow hA).1
      have hsideB := endedSide_emits hentersB.ready hB hheldB joined fun found hfd hA =>
          Option.some.inj (horelseType.symm.trans hfd) ▸ (hbelow hA).2
      obtain ⟨hemit, hagr, hv, -⟩ := branchExpression_sound
        (a := endedSide ⟨s.graph.blocks.length⟩ s₁) (b := endedSide ⟨s.graph.blocks.length + 1⟩ s₂)
        hready hcondition (hΓ _ htruth) (Or.inl ⟨rfl, rfl⟩) hsideA hsideB
        (fun hA => .join _ _ (hready₂.typeOf? hbodyType hA)
          (hready₂.typeOf? horelseType hA) hj) hrun
      exact ⟨hemit, hagr, forall_mem_singleton.mpr hv⟩

theorem constantSide (hready : Ready A H ctx (u.enter b))
    (hrun : inBlock b (build (Build.bool value span)) ctx u = .ok (v, t)) :
    ∃ w, SideEmits A H (u.enter b) (endedSide b w) [v] [.bool] w ∧ w.leave u.point = t := by
  obtain ⟨w, hbool, rfl⟩ := inBlock_ok hrun
  obtain ⟨builder, hsteps, rfl⟩ := build_ok hbool
  have hentered : build (Build.bool value span) ctx (u.enter b) =
      .ok (v, { u.enter b with builder }) := build_eq_ok hsteps
  obtain ⟨hemit, -, hafter⟩ := (bool_emits (Γ := [])).apply hready (by simp) hentered
  refine ⟨_, endedSide_emits hready hemit (hafter _ (.head _)) _ ?_, rfl⟩
  intro found hfd _
  exact Option.some.inj (hfd.symm.trans (hafter (.typed v .bool) (by simp)).2) ▸ .refl _

theorem shortCircuit_branch {rightBlock constantBlock : BlockId} {outcome : Outcome}
    (hready : Ready A H ctx s) (hΓ : ∀ fact ∈ Γ, fact.Holds A H s) (hcond : .held condition ∈ Γ)
    (htruth : .settled condition .bool ∈ Γ) (hmap : .narrows map ∈ Γ) (hrhs : rhs.Sound A)
    (hbs : s.Sides rightBlock constantBlock) (hrun : (do
      let (right, _) ← inNarrowedBranch rightBlock map rhs.condition
      addResult rightBlock right.value
      let constant ← inBlock constantBlock (build (Build.bool value span))
      addResult constantBlock constant
      return ofValue (← addOutput s.graph.freshNode .bool) : Lower Outcome) ctx
        (s.openBranch condition span) = .ok (outcome, t)) :
    Emission A H s t ∧ s.scope.Agrees quiet t.scope ∧
      ∀ fact ∈ outcome.verdict A, fact.Holds A H t := by
  obtain ⟨⟨right, _⟩, _, hbranch, hrun⟩ := bind_ok hrun
  obtain ⟨s₁, hrunRight, -, rfl⟩ := inBranch_ok hbranch
  obtain ⟨_, _, hret, hrun⟩ := bind_ok hrun
  obtain rfl := addResult_ok hret
  obtain ⟨constant, u, hconstant, hrun⟩ := bind_ok hrun
  -- the side that runs the second operand
  have hentersA := enterSide hready (hΓ _ hcond) span _ hbs.mem
  obtain ⟨hA, hafterA⟩ := narrowedSide hΓ hmap (condition_emits hrhs).of_quiet hentersA hrunRight
  have hheldA : Held H s₁ right.value := hafterA (.held right.value) (by simp [Condition.facts])
  have htruthA : (settled right.value .bool).Holds A H s₁ :=
    hafterA _ (by simp [Condition.facts])
  have hsideA := endedSide_emits hentersA.ready hA hheldA .bool fun found hfd hA =>
    Option.some.inj (hfd.symm.trans (htruthA hA).2) ▸ .refl _
  -- the side that is known
  have hentersB := enterOther hready (hΓ _ hcond) [right.value] _ _ hbs.mem
    hbs.swap.mem hA (forall_mem_singleton.mpr hheldA)
  obtain ⟨s₂, hsideB, rfl⟩ : ∃ w, SideEmits A H
      (((s₁.leave s.point).withResults rightBlock [right.value]).enter constantBlock)
      (endedSide constantBlock w) [constant] [.bool] w ∧ w.leave s.point = u :=
    constantSide hentersB.ready hconstant
  obtain ⟨_, _, hret, hrun⟩ := bind_ok hrun
  obtain rfl := addResult_ok hret
  obtain ⟨v, hout, rfl⟩ := map_ok hrun
  obtain ⟨hemit, hagr, hv, hty⟩ := branchExpression_sound (a := endedSide rightBlock s₁)
    (b := endedSide constantBlock s₂) hready (hΓ _ hcond) (hΓ _ htruth) hbs hsideA
    hsideB (fun _ => .bool) hout
  refine ⟨hemit, hagr, ?_⟩
  rw [ofValue, verdict_value, forall_mem_cons, forall_mem_singleton]
  exact ⟨hv, fun _ => ⟨hv.1, hty⟩⟩

theorem shortCircuit_emits (hlhs : lhs.Sound A) (hrhs : rhs.Sound A) :
    Emits A H quiet Γ (shortCircuit span isAnd lhs rhs) (verdict A) := by
  refine .bind (condition_emits hlhs) fun left => ?_
  obtain ⟨hheld, htruth, htrue, hfalse⟩ := left.mem_facts Γ
  have hmap : .narrows (if isAnd then left.refinements.onTrue else left.refinements.onFalse) ∈
      left.facts ++ Γ := by
    cases isAnd <;> assumption
  dsimp only
  split
  · split
    · refine .bind (refined_emits
        (Δ := fun right => [.held right.value, .settled right.value .bool]) hmap ?_ ?_)
          fun right => ?_
      · exact ((condition_emits hrhs).consequence (by simp [Condition.facts])).of_quiet
      · simp [isLasting]
      · exact .pure (by simp [verdict_value])
    · exact .pure (by simp [verdict_value, Condition.facts])
  · intro ctx s outcome t hready hΓ hrun
    obtain ⟨branching, _, hinsert, hrun⟩ := bind_ok hrun
    obtain ⟨rfl, rfl⟩ := insertBranching_ok hready.toWellFormed hinsert
    cases isAnd with
    | true => exact shortCircuit_branch hready hΓ hheld htruth hmap hrhs (Or.inl ⟨rfl, rfl⟩) hrun
    | false => exact shortCircuit_branch hready hΓ hheld htruth hmap hrhs (Or.inr ⟨rfl, rfl⟩) hrun

end Lower

end Flowgraph
