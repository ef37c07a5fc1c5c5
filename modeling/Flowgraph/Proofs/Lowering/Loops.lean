import Flowgraph.Proofs.Lowering.Conditions
import Flowgraph.Proofs.Lowering.Containers

/-!
# Loops

A loop computes its first condition before its node, runs its body in a frame of its own and
computes the next condition in a second block.  `LoopSteps` says what is known when the body starts;
it serves loops and comprehensions, which differ in what the body does.
-/

namespace Flowgraph

open LowerState

variable {s t inner : LowerState} {trip : Option ValueId} {a : Unit}

open Flowgraph.Fact Flowgraph.Graph List

variable {cond : Option Operand} {body : ValueId → Lower Unit}
  {first w list counter count : ValueId} {iter : Operand} {hint : Option Ty} {kind : LoopKind}
  {n : NodeId} {s₁ : LowerState}

namespace Lower

variable {α : Type} {A : Prop} {H : List ValueId} {Γ : List Fact} {ctx : LowerContext}
  {s t : LowerState} {v : ValueId} {ty : Ty} {span : Span} {iterable : Entity} {elem : Operand}
  {target : Target}

/-! ## Runs -/

theorem modifyBody_ok {change : BodyContext → BodyContext}
    (h : modifyBody change ctx s = .ok (a, t)) : s.mapBodies (modifyHead change) = t := by
  obtain ⟨_, _, hget, h⟩ := bind_ok h
  cases hget
  cases hbodies : s.bodies with simp only [hbodies] at h
  | nil => exact absurd h fail_ok
  | cons body outer =>
    cases h
    rw [mapBodies, hbodies, modifyHead_cons]

theorem withLoop_ok {action : Lower α} {a : α} (h : withLoop kind action ctx s = .ok (a, t)) :
    ∃ u, action ctx (s.enterLoop kind) = .ok (a, u) ∧ u.leaveLoop = t := by
  obtain ⟨_, _, henter, h⟩ := bind_ok h
  obtain rfl := modifyBody_ok henter
  obtain ⟨_, u, haction, h⟩ := bind_ok h
  obtain ⟨_, _, hleave, h⟩ := bind_ok h
  obtain rfl := modifyBody_ok hleave
  obtain ⟨rfl, rfl⟩ := pure_ok h
  exact ⟨u, haction, rfl⟩

theorem insertLoop_ok (hwf : WellFormed H s)
    (h : build (Build.insert .loop [] [] span) ctx s = .ok (n, t)) :
    n = s.graph.freshNode ∧ s.place { op := .loop, inputs := [], span } [] = t := by
  obtain ⟨builder, hsteps, rfl⟩ := build_ok h
  obtain ⟨rfl, rfl⟩ := Build.insert_some hwf.coherent hwf.anchored hsteps
  exact ⟨rfl, rfl⟩

theorem enterBefore_fresh (s : LowerState) (node : Node) (types : List Ty) :
    Build.enterBefore s.graph.freshNode (s.place node types).builder =
      some (s.point, { (s.place node types).builder with
        point := ⟨s.point.block, some s.graph.freshNode⟩ }) := by
  refine Build.bind_some.mpr ⟨{ node with
    outputs := s.graph.freshValues types.length, owner := some s.point.block }, _,
    Build.query_some.mpr ⟨node?_place_fresh s.point, rfl⟩, rfl⟩

theorem loop_ok (hwf : WellFormed H s) (hrun : loop trip cond span body ctx s = .ok (a, t)) :
    ∃ count first s₁ u next s₃ names, (do
        let count ← trip.getDM (build (Build.int unbounded))
        return (count, ← firstCondition cond span) : Lower (ValueId × Condition)) ctx
          (s.beforeLoop span) = .ok ((count, first), s₁) ∧
      (do insertRefinements first.refinements.onTrue; body s₁.graph.freshValue) ctx
        ((s.loopBody s₁ count first.value).enterLoop .loop) = .ok ((), u) ∧
      nextCondition cond span ctx (s.loopNext u.leaveLoop) = .ok (next, s₃) ∧
      hideLoopNames names span ctx (s.afterLoop u.leaveLoop s₃ next) = .ok (a, t) := by
  obtain ⟨_, _, hinsert, hrun⟩ := bind_ok hrun
  obtain ⟨rfl, rfl⟩ := insertLoop_ok hwf hinsert
  obtain ⟨⟨count, first⟩, _, hat, hrun⟩ := bind_ok hrun
  obtain ⟨s₁, hfirst, rfl⟩ := atPoint_ok (enterBefore_fresh s _ _) hat
  obtain ⟨_, _, hinput, hrun⟩ := bind_ok hrun
  obtain rfl := addNodeInput_ok hinput
  obtain ⟨_, _, hinput, hrun⟩ := bind_ok hrun
  obtain rfl := addNodeInput_ok hinput
  -- the body
  obtain ⟨_, _, hb, hrun⟩ := bind_ok hrun
  obtain ⟨rfl, rfl⟩ := addBlock_ok hb
  obtain ⟨_, _, hp, hrun⟩ := bind_ok hrun
  obtain ⟨rfl, rfl⟩ := addParam_ok hp
  obtain ⟨⟨_, frame⟩, _, hf, hrun⟩ := bind_ok hrun
  obtain ⟨_, hwithLoop, -, rfl⟩ := withFrame_ok hf
  obtain ⟨_, hinBlock, rfl⟩ := withLoop_ok hwithLoop
  obtain ⟨u, hbody, rfl⟩ := inBlock_ok hinBlock
  -- the next condition
  obtain ⟨_, _, hb, hrun⟩ := bind_ok hrun
  obtain ⟨rfl, rfl⟩ := addBlock_ok hb
  obtain ⟨⟨next, _⟩, _, hbranch, hrun⟩ := bind_ok hrun
  obtain ⟨s₃, hnext, -, rfl⟩ := inBranch_ok hbranch
  obtain ⟨_, _, hret, hrun⟩ := bind_ok hrun
  obtain rfl := addResult_ok hret
  exact ⟨count, first, s₁, u, next, s₃, _, hfirst, hbody, hnext, hrun⟩

/-! ## Parts of a loop -/

theorem firstCondition_emits (h : ∀ operand ∈ cond, operand.Sound A) :
    Emits A H quiet Γ (firstCondition cond span) Condition.facts := by
  unfold firstCondition
  split
  next operand => exact condition_emits (h operand rfl)
  next =>
    intro ctx s condition t hready hΓ hrun
    obtain ⟨v, hbool, rfl⟩ := map_ok hrun
    obtain ⟨hemit, hq, hafter⟩ := bool_emits.apply hready hΓ hbool
    refine ⟨hemit, hq, ?_⟩
    have hempty : ∀ u, (Fact.narrows .empty).Holds A H u := fun u =>
      ⟨nodup_nil, fun entry he => absurd he not_mem_nil⟩
    simp only [forall_mem_cons] at hafter
    simp only [Condition.facts, forall_mem_cons]
    exact ⟨hafter.1, fun _ => hafter.2.1, hempty _, hempty _, by simp⟩

theorem nextCondition_emits (h : ∀ operand ∈ cond, operand.Sound A) :
    Emits A H quiet Γ (nextCondition cond span) fun v => [.held v, .settled v .bool] := by
  unfold nextCondition
  split
  next operand => exact truth_emits (h operand rfl)
  next =>
    refine bool_emits.imply fun v s hafter => ?_
    simp only [forall_mem_cons] at hafter ⊢
    exact ⟨hafter.1, fun _ => hafter.2.1, by simp⟩

theorem loopStart_emits (htrip : ∀ v, trip = some v → .held v ∈ Γ)
    (hcond : ∀ operand ∈ cond, operand.Sound A) : Emits A H quiet Γ (do
      let count ← trip.getDM (build (Build.int unbounded))
      return (count, ← firstCondition cond span) : Lower (ValueId × Condition))
      fun answer =>
        .held answer.1 :: .either (.settled answer.1 .int) (.sure (trip = some answer.1)) ::
        answer.2.facts := by
  have hcount : Emits A H quiet Γ (trip.getDM (build (Build.int unbounded)))
      fun count => [.held count, .either (.settled count .int) (.sure (trip = some count))] := by
    cases trip with
    | none =>
      refine int_emits.imply fun v s hafter => ?_
      simp only [forall_mem_cons] at hafter ⊢
      exact ⟨hafter.1, Or.inl hafter.2.1, by simp⟩
    | some v =>
      refine .derive (.either (.settled v .int) (.sure (some v = some v)))
        (fun _ _ => Or.inr rfl) (.pure ?_)
      simp [htrip v rfl]
  refine .bind hcount fun count => .bind (firstCondition_emits hcond) fun first => .pure ?_
  simp +contextual [Condition.facts]

theorem hideLoopNames_emits {names : List String} :
    Acts A H quiet Γ (hideLoopNames names span) := by
  refine .forM_quiet fun name _ => ?_
  refine .bind .getScope fun scope => ?_
  split
  · intro ctx s a t hwf hΓ hrun
    obtain rfl := modifyScope_ok hrun
    exact ⟨.defer H s _ _, (Scope.sameBindings_defer _ _ _).agrees quiet, by simp⟩
  · exact .pure (by simp)

/-! ## Loops as a whole -/

/-- The start of an iteration, seen from before the loop. -/
structure IterationStart (A : Prop) (H : List ValueId) (ctx : LowerContext)
    (s : LowerState) (counter : ValueId) (inner : LowerState) : Prop where
  ready : Ready A H ctx inner
  carries : Carries H s inner
  counter : Held H inner counter

theorem held_counter {trip : ValueId} (hknown : ∀ v ∈ H, v.index < s.graph.values.length) :
    Held H ((s.openLoop n trip first).enter s.graph.freshBlock) s.graph.freshValue := by
  refine ⟨fun hin => Nat.lt_irrefl _ (hknown _ hin), ?_⟩
  have hb : (((s.graph.withInput n trip).withInput n first).withBlock n).block?
      s.graph.freshBlock = some { owner := some n } :=
    (block?_withBlock _ n _).trans (if_pos rfl)
  exact (definedHere_withParam hb none .int).defined

theorem iterates_of_run {trip : ValueId} (hready : Ready A H ctx s)
    (hstart : LoopStart H s s₁ trip first span) (hready₁ : Ready A H ctx s₁)
    {map : RefinementMap} (hmap : (Fact.narrows map).Holds A H s₁)
    (hrun : insertRefinements map ctx ((s.loopBody s₁ trip first).enterLoop .loop) = .ok (a, t)) :
    Emission A H ((s.loopBody s₁ trip first).enterLoop .loop) t ∧
      IterationStart A H ctx s s₁.graph.freshValue t := by
  have he : Ready A H ctx ((s.loopBody s₁ trip first).enterLoop .loop) :=
    ⟨hstart.entry.of_same rfl (.refl _), hready.context, fun hA =>
      ((hready₁.regular hA).loopBody s trip first).enterLoop .loop⟩
  have hcarries : Carries H s ((s.loopBody s₁ trip first).enterLoop .loop) :=
    hstart.opened.carries_inside hstart.enclosed rfl rfl rfl
  obtain ⟨hemit, -, -⟩ := (insertRefinements_emits (Γ := [.narrows map]) (by simp)).apply
    he (forall_mem_singleton.mpr hmap) hrun
  obtain ⟨-, hadv⟩ := hemit.sound he.toWellFormed
  refine ⟨hemit, hemit.ready he, hcarries.trans (.of_advances he.toWellFormed hadv), ?_⟩
  have hcounter : Held H ((s.loopBody s₁ trip first).enterLoop .loop) s₁.graph.freshValue :=
    held_counter hready₁.known
  exact hcounter.mono he.toWellFormed hadv

/-- How a loop is lowered, up to its body. -/
structure LoopSteps (A : Prop) (H : List ValueId) (ctx : LowerContext)
    (s : LowerState) (trip : Option ValueId) (span : Span) (count first : ValueId)
    (s₁ inner : LowerState) : Prop where
  before : Emission A H (s.beforeLoop span) s₁
  quiet : s.scope.Agrees quiet s₁.scope
  ready : Ready A H ctx s₁
  counted : Held H s₁ count
  same : ∀ v, trip = some v → count = v
  given : (either (.settled count .int) (.sure (trip = some count))).Holds A H s₁
  condition : Held H s₁ first
  truth : A → s₁.graph.typeOf? first = some .bool
  start : LoopStart H s s₁ count first span
  narrows : Emission A H ((s.loopBody s₁ count first).enterLoop .loop) inner
  iterates : IterationStart A H ctx s s₁.graph.freshValue inner

theorem loop_steps (hready : Ready A H ctx s) (hΓ : ∀ fact ∈ Γ, fact.Holds A H s)
    (htrip : ∀ v, trip = some v → .held v ∈ Γ) (hcond : ∀ operand ∈ cond, operand.Sound A)
    (hrun : loop trip cond span body ctx s = .ok (a, t)) :
    ∃ count first s₁ inner u next s₃ names, LoopSteps A H ctx s trip span count first s₁ inner ∧
      body s₁.graph.freshValue ctx inner = .ok ((), u) ∧
      nextCondition cond span ctx (s.loopNext u.leaveLoop) = .ok (next, s₃) ∧
      hideLoopNames names span ctx (s.afterLoop u.leaveLoop s₃ next) = .ok (a, t) := by
  obtain ⟨count, first, s₁, u, next, s₃, names, hrunFirst, hrunBody, hrunNext, hrunHide⟩ :=
    loop_ok hready.toWellFormed hrun
  have hpl := LoopStart.placedBefore hready.toWellFormed span
  have hready₀ : Ready A H ctx (s.beforeLoop span) :=
    ⟨hpl.wellFormed, hready.context, fun hA => (hready.regular hA).beforeLoop span⟩
  obtain ⟨hfirst, hq, hafter⟩ := (loopStart_emits htrip hcond).apply hready₀
    (fun fact hφ => Carries.holds_all ⟨fun _ hv _ hty => hpl.typeOf? hv hty, hpl.visible,
      hpl.signatures.subset⟩ (fun _ => rfl) (hΓ fact hφ)) hrunFirst
  have hready₁ := hfirst.ready hready₀
  have hcount : Held H s₁ count := hafter (.held count) (by simp)
  have hv : Held H s₁ first.value := hafter (.held first.value) (by simp [Condition.facts])
  have htruth : (settled first.value .bool).Holds A H s₁ :=
    hafter _ (by simp [Condition.facts])
  have hstart := LoopStart.of_sound hready.toWellFormed hfirst.sound hcount hv
  have hsame : ∀ v, trip = some v → count = v := by
    rintro v rfl
    obtain ⟨_, _, hgot, hrest⟩ := bind_ok hrunFirst
    obtain ⟨rfl, -⟩ := pure_ok hgot
    obtain ⟨_, -, hanswer⟩ := map_ok hrest
    exact (congrArg Prod.fst hanswer).symm
  obtain ⟨_, inner, hrunRefine, hrunBody⟩ := bind_ok hrunBody
  obtain ⟨href, hiter⟩ := iterates_of_run hready hstart hready₁
    (hafter _ (by simp [Condition.facts])) hrunRefine
  exact ⟨count, first.value, s₁, inner, u, next, s₃, names, ⟨hfirst, hq, hready₁, hcount,
    hsame, hafter _ (by simp), hv, fun hA => (htruth hA).2, hstart, href, hiter⟩,
    hrunBody, hrunNext, hrunHide⟩

theorem LoopSteps.integer
    (h : LoopSteps A H ctx s trip span count first s₁ inner) (hin : Emission A H inner t)
    (hset : ∀ v, trip = some v → (settled v .int).Holds A H t) (hA : A) :
    s₁.graph.typeOf? count = some .int := by
  rcases h.given with hknown | hgiven
  · exact (hknown hA).2
  · obtain ⟨found, hfd⟩ := h.counted.exists_type h.ready.toWellFormed
    have he : ((s.loopBody s₁ count first).enterLoop .loop).graph.typeOf? count = some found :=
      typeOf?_of_types (show _ = s₁.graph.types ++ [.int] by simp [enterLoop,
        mapBodies, enter, openLoop, withGraph, moveTo, mapScope, graph]) hfd
    -- the type at the end of the body is the one before the loop
    have hadv := ((h.narrows.trans hin).sound (h.start.entry.of_same rfl (.refl _))).2
    rw [hfd, ← (hset count hgiven hA).2]
    exact (hadv.typeOf? h.counted.1 he).symm

theorem loop_emits (htrip : ∀ v, trip = some v → .held v ∈ Γ)
    (hcond : ∀ operand ∈ cond, operand.Sound A)
    (hbody : ∀ counter, Emits A H loud (.held counter :: Γ.filter isLasting) (body counter) fun _ =>
      trip.toList.map fun v => .settled v .int) : Acts A H quiet Γ (loop trip cond span body) := by
  intro ctx s a t hready hΓ hrun
  obtain ⟨count, first, s₁, inner, u, next, s₃, names, hsteps, hrunBody, hrunNext, hrunHide⟩ :=
    loop_steps hready hΓ htrip hcond hrun
  obtain ⟨hin, -, hset⟩ := (hbody s₁.graph.freshValue).apply hsteps.iterates.ready (by
    rw [forall_mem_cons]
    refine ⟨hsteps.iterates.counter, fun fact hφ => ?_⟩
    obtain ⟨hφ, his⟩ := mem_filter.mp hφ
    exact hsteps.iterates.carries.holds his (hΓ fact hφ)) hrunBody
  have hemit : Emission A H (s.loopBody s₁ count first) u.leaveLoop :=
    .inLoop .loop (hsteps.narrows.trans hin)
  have hruns := hemit.runs hsteps.start.entry
  -- the next condition
  have hreadyNext : Ready A H ctx (s.loopNext u.leaveLoop) :=
    ⟨hsteps.start.entryNext hready.toWellFormed hruns, hready.context, fun hA =>
      ((hin.ready hsteps.iterates.ready).regular hA).leaveLoop.loopNext s⟩
  obtain ⟨hnext, -, hafterNext⟩ := (nextCondition_emits (Γ := []) hcond).apply hreadyNext (by simp)
    hrunNext
  have hagain : (settled next .bool).Holds A H s₃ := hafterNext _ (by simp)
  have hloop : Emission A H s _ := .loop span hsteps.before hsteps.counted
    (hsteps.integer hin fun v hv => hset _ (by simp [hv])) hsteps.condition hsteps.truth hemit hnext
    (hafterNext (.held next) (by simp)) fun hA => (hagain hA).2
  -- the names of the body are hidden
  obtain ⟨hhide, hH, -⟩ := (hideLoopNames_emits (Γ := [])).apply (hloop.ready hready) (by simp)
    hrunHide
  refine ⟨hloop.trans hhide, hsteps.quiet.trans (.trans ?_ hH), by simp⟩
  exact (hruns.advances.scope.pop.trans
    (hnext.sound hreadyNext.toWellFormed).2.scope.pop).agrees quiet

/-! ## Comprehensions -/

theorem mem_iteration (h : ∀ fact ∈ iterable.facts A, fact ∈ Γ) :
    ∀ fact ∈ iterable.facts A, fact ∈ .held counter :: Γ.filter isLasting :=
  fun fact hφ => .tail _ (mem_filter.mpr ⟨h fact hφ, iterable.isLasting_facts fact hφ⟩)

/-- With an expected type, elements are converted to it and the list is a value like others. -/
theorem comprehension_hinted (hhint : elementHint? hint = some ty) (hty : A → ty.Regular)
    (helem : elem.Sound A) (htgt : target.Sound A) (hiter : iter.Sound A) :
    Produces A H Γ (comprehension span elem target iter hint) := by
  unfold comprehension
  simp only [hhint]
  refine .bind (insertValue_emits rfl (by simp) fun hA => .list (hty hA)) fun list => ?_
  refine .bind hiter.entity fun entity => .bind isTuple_emits fun isTuple => ?_
  split
  · exact .fail_bind
  · refine .bind (prepareIterable_emits (by simp +contextual)) fun iterable => ?_
    refine .bind (length_emits iterable (by simp +contextual)) fun trip => ?_
    refine .bind (loop_emits (by simp) (by simp) fun counter => ?_) fun _ => .pure (by simp)
    refine .bind (item_counted trip (mem_iteration ?_) (by simp) ?_) fun current => ?_
    · exact fun fact hφ => mem_append_right _ (mem_append_left _ hφ)
    · simp [countFact, isLasting]
    · refine .bind_loud (htgt H _ (.value current) span (by simp [Entity.facts])) fun _ => ?_
      have hconverted : ∀ Γ, Emits A H (quiet) Γ
          (comprehensionElement list elem (some ty)) fun v => [.held v] := fun Γ =>
        .bind (helem.hinted (regularHint_some hty)) fun v =>
          (coerce_emits (by simp)).consequence (by simp)
      refine .bind (hconverted _) fun v => ?_
      refine .bind (primitive_emits (by simp [isLasting])) fun _ => .pure ?_
      simp [isLasting]

theorem iteration_emits (span : Span) (counter : ValueId) {trip : ValueId}
    (target : Target) (hiterable : ∀ fact ∈ iterable.facts A, fact ∈ Γ)
    (hcounter : .held counter ∈ Γ) (hcount : countFact trip iterable ∈ Γ)
    (helem : elem.Sound A) (htgt : target.Sound A) : Emits A H loud Γ (do
      let current ← item span counter iterable
      target.assign (.value current) span
      elem.value none) fun v => [.settled trip .int, .held v] := by
  refine .bind (item_counted _ hiterable hcounter hcount) fun current => ?_
  refine .bind_loud (htgt H _ (.value current) span (by simp [Entity.facts])) fun _ => ?_
  exact (Emits.keep (by simp [isLasting]) rfl helem.value).of_quiet

theorem append_ok (hwf : WellFormed H s) (hlist : list ∈ H)
    (hv : v ∉ H) (hty : s.graph.typeOf? v = some ty)
    (hrun : primitive .append [list, v] span ctx (s.withGraph (s.graph.retype list (.list ty))) =
      .ok (w, t)) : ∃ filled, (∀ span, Primitive.check .append [.list ty, ty] span = .ok filled) ∧
      s.fill list v ty filled span = t := by
  obtain ⟨args, _, hargs, hr⟩ := bind_ok hrun
  obtain ⟨htyped, rfl⟩ := typesOf_ok hargs
  obtain ⟨filled, _, hret, hinsert⟩ := bind_ok hr
  obtain ⟨hcheck, rfl⟩ := ofExcept_ok hret
  obtain ⟨builder, hsteps, rfl⟩ := build_ok hinsert
  have hretyped := hwf.retype list (.list ty)
  obtain ⟨rfl, rfl⟩ := Build.insertValue_some hretyped.coherent hretyped.anchored hsteps
  obtain ⟨listType, _, hlistType, hvalue, rfl⟩ := forall₂_cons_left_iff.mp htyped
  obtain ⟨valueType, _, hvalueType, hnil, rfl⟩ := forall₂_cons_left_iff.mp hvalue
  obtain rfl := forall₂_nil_left_iff.mp hnil
  have hset : (s.graph.retype list (.list ty)).typeOf? list = some (.list ty) :=
    typeOf?_retype _ (hwf.known list hlist) _
  have hne : v ≠ list := fun heq => hv (heq ▸ hlist)
  have hkept : (s.graph.retype list (.list ty)).typeOf? v = some ty :=
    (typeOf?_retype_of_ne _ hne _).trans hty
  cases hlistType.symm.trans hset
  cases hvalueType.symm.trans hkept
  exact ⟨filled, (Primitive.resultType?_of_check hcheck).2, rfl⟩

theorem filling_sound {s₀ : LowerState} {trip : ValueId} (hready : Ready A H ctx s)
    (hiter : Emission A (s.graph.freshValue :: H) (s.placeList span) s₀)
    (hready₀ : Ready A (s.graph.freshValue :: H) ctx s₀)
    (hΓ : ∀ fact ∈ Γ, fact.Holds A (s.graph.freshValue :: H) s₀)
    (hiterable : ∀ fact ∈ iterable.facts A, fact ∈ Γ) (htrip : .held trip ∈ Γ)
    (hcount : countFact trip iterable ∈ Γ) (helem : elem.Sound A) (htgt : target.Sound A)
    (hrun : loop (some trip) none span (fun counter => do
      let current ← item span counter iterable
      target.assign (.value current) span
      let v ← comprehensionElement s.graph.freshValue elem none
      let _ ← primitive .append [s.graph.freshValue, v] span) ctx s₀ = .ok (a, t)) :
    Emission A H s t ∧ s₀.scope.Agrees quiet t.scope ∧ Held H t s.graph.freshValue := by
  obtain ⟨count, first, s₁, inner, u, next, s₃, names, hsteps, hrunBody, hrunNext, hrunHide⟩ :=
    loop_steps hready₀ hΓ (by simpa using htrip) (by simp) hrun
  -- the element
  obtain ⟨current, u₁, hit, hrunBody⟩ := bind_ok hrunBody
  obtain ⟨_, u₂, hassign, hrunBody⟩ := bind_ok hrunBody
  obtain ⟨_, _, helement, hrunBody⟩ := bind_ok hrunBody
  obtain ⟨v, s₂, hvalue, helement⟩ := bind_ok helement
  obtain ⟨hinner, -, hafter⟩ :=
    (iteration_emits (Γ := .held s₁.graph.freshValue :: Γ.filter isLasting)
    span s₁.graph.freshValue target (mem_iteration hiterable) (.head _) (mem_cons_of_mem _
      (mem_filter.mpr ⟨hcount, rfl⟩)) helem htgt).apply hsteps.iterates.ready
    (forall_mem_cons.mpr ⟨hsteps.iterates.counter, fun fact hφ =>
      hsteps.iterates.carries.holds (mem_filter.mp hφ).2 (hΓ fact (mem_filter.mp hφ).1)⟩)
    (bind_iff.mpr ⟨current, u₁, hit, bind_iff.mpr ⟨_, u₂, hassign, hvalue⟩⟩)
  have hv : Held (s.graph.freshValue :: H) s₂ v := hafter (.held v) (by simp)
  have hready₂ := hinner.ready hsteps.iterates.ready
  -- its type settles that of the list
  obtain ⟨ty, hty, helement⟩ := typeOf_run helement
  obtain ⟨_, builder, hupdate, helement⟩ := build_run helement
  obtain ⟨g, hg, rfl⟩ := Build.update_some.mp hupdate
  obtain rfl := modifyValue_eq_some hg
  obtain ⟨rfl, rfl⟩ := pure_ok helement
  obtain ⟨_, _, happend, hrunBody⟩ := bind_ok hrunBody
  obtain ⟨-, rfl⟩ := pure_ok hrunBody
  obtain ⟨filled, hfilled, rfl⟩ := append_ok hready₂.toWellFormed (.head _) hv.1 hty happend
  -- the loop as a whole
  have hbody := hsteps.narrows.trans hinner
  have hpts := ComprehensionParts.of_sound hready.toWellFormed hiter.sound hsteps.before.sound
    hsteps.counted hsteps.condition hbody.sound hv ty filled
  have hagain := hpts.loop.again.start
  obtain ⟨builder, hbuild, rfl⟩ := build_ok hrunNext
  obtain ⟨rfl, rfl⟩ := Build.insertWith_some hagain.coherent hagain.anchored hbuild
  have hloop : Emission A H s _ := .comprehension span hiter hsteps.before hsteps.counted
    (hsteps.integer hinner fun w hw => hafter _ (by simp [Option.some.inj hw])) hsteps.condition
    hsteps.truth hbody hv hty hfilled
  -- the names of the body are hidden
  obtain ⟨hhide, hH, -⟩ := (hideLoopNames_emits (Γ := [])).apply (hloop.ready hready) (by simp)
    hrunHide
  refine ⟨hloop.trans hhide, hsteps.quiet.trans (.trans ?_ hH), ?_, ?_⟩
  · exact (hpts.loop.body.advances.scope.pop.trans hpts.loop.again.advances.scope.pop).agrees quiet
  · exact hready.freshValue_not_mem
  · have hadv := ((hloop.trans hhide).sound hready.toWellFormed).2
    have hgrows := hpts.iter.advances.grows.trans (hpts.loop.last.graph.grows.trans
      (hhide.sound (hloop.sound hready.toWellFormed).1).2.grows)
    have hpl : (s.placeList span).graph.Defined
        s.point s.graph.freshValue := (held_fresh hready.toWellFormed).2
    exact hadv.point ▸ hpl.mono hgrows hpts.iter.start.hasAnchor

theorem comprehension_unhinted (hhint : elementHint? hint = none)
    (helem : elem.Sound A) (htgt : target.Sound A) (hiter : iter.Sound A) :
    Produces A H Γ (comprehension span elem target iter hint) := by
  intro ctx s v t hready hΓ hrun
  unfold comprehension at hrun
  simp only [hhint, Option.getD_none] at hrun
  obtain ⟨list, builder, hsteps, hrun⟩ := build_run hrun
  obtain ⟨rfl, rfl⟩ := Build.insertValue_some hready.coherent hready.anchored hsteps
  have hpl : Ready A (s.graph.freshValue :: H) ctx (s.placeList span) :=
    ⟨hready.toWellFormed.hide (.list .tensor) span, hready.context, fun hA =>
      (hready.regular hA).place (by simpa using Ty.Regular.list .tensor)⟩
  obtain ⟨entity, u₁, he₁, hquiet₁, hready₁, hfacts₁, hrun⟩ :=
    (hiter.entity (Γ := [])).step hpl (by simp) hrun
  obtain ⟨isTuple, u₂, he₂, hquiet₂, hready₂, hfacts₂, hrun⟩ :=
    isTuple_emits.step hready₁ hfacts₁ hrun
  split at hrun
  · obtain ⟨_, _, hfail, -⟩ := bind_ok hrun
    exact absurd hfail fail_ok
  · obtain ⟨iterable, u₃, he₃, hquiet₃, hready₃, hfacts₃, hrun⟩ :=
      (prepareIterable_emits (by simp +contextual)).step hready₂ hfacts₂ hrun
    obtain ⟨trip, u₄, he₄, hquiet₄, hready₄, hfacts₄, hrun⟩ :=
      (length_emits iterable (by simp +contextual)).step hready₃ hfacts₃ hrun
    obtain ⟨_, hloop, rfl⟩ := map_ok hrun
    obtain ⟨hemit, hq, hheld⟩ := filling_sound hready
      (he₁.trans (he₂.trans (he₃.trans he₄))) hready₄ hfacts₄
      (fun fact hφ => by simp [hφ]) (by simp) (by simp) helem htgt hloop
    exact ⟨hemit, hquiet₁.trans (hquiet₂.trans (hquiet₃.trans (hquiet₄.trans hq))),
      forall_mem_singleton.mpr hheld⟩

theorem comprehension_emits (helem : elem.Sound A) (htgt : target.Sound A) (hiter : iter.Sound A)
    (hhint : RegularHint A hint) : Produces A H Γ (comprehension span elem target iter hint) := by
  cases helement : elementHint? hint with
  | none => exact comprehension_unhinted helement helem htgt hiter
  | some ty =>
    refine comprehension_hinted helement (fun hA => ?_) helem htgt hiter
    exact regularHint_element hhint hA ty helement

end Lower

end Flowgraph
