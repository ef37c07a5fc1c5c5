import Flowgraph.Proofs.Lowering.Brackets
import Flowgraph.Proofs.Lowering.Values

/-!
# Calls

Calls bind nothing, and what they answer is held.  A call of `fork` gives the closure arguments
that fit its signature.
-/

namespace Flowgraph.Lower

open BodyContext Build Entity List

variable {A : Prop} {H values inputs : List ValueId} {Γ : List Fact} {ctx : LowerContext}
  {s t : LowerState} {v closure arg : ValueId} {ty : Ty} {span : Span} {method callee : String}
  {args : List Entity} {params : List (String × Ty)}

theorem coerceArguments_emits {role : String → Role} {args : List ValueId}
    (h : ∀ v ∈ args, .held v ∈ Γ) :
    Emits A H quiet Γ (coerceArguments role span args params) fun values => values.map .held := by
  induction args generalizing Γ params with
  | nil => exact .pure (by simp)
  | cons arg rest ih =>
    cases params with
    | nil => exact .pure (by simp)
    | cons param params =>
      refine .bind (coerce_emits (h arg (.head _))) fun converted => ?_
      refine .bind (ih fun v hv => ?_) fun values => .pure (by simp +contextual)
      simp [h v (mem_cons_of_mem arg hv)]

/-! ## Prelude entries -/

theorem callCast_emits {target : Ty} (harg : .held arg ∈ Γ) :
    Produces A H Γ (callCast target method span arg) := by
  refine .bind_typeOf fun ty hty => ?_
  split
  · exact .pure (by simp [harg])
  · split
    next cls hcls =>
      exact callMethod_emits (fun hA => (hty hA).class_of_classWith? hcls) harg (by simp)
    next => exact primitive_emits (by simp [harg])

theorem callPrimitive_emits {operation : Primitive} {method : Option String}
    (h : ∀ v ∈ inputs, .held v ∈ Γ) :
    Produces A H Γ (callPrimitive operation method span inputs) := by
  unfold callPrimitive
  split
  next method first rest =>
    obtain ⟨hfirst, hr⟩ := forall_mem_cons.mp h
    refine .bind_typeOf fun ty hty => ?_
    split
    next cls hcls => exact callMethod_emits (fun hA => (hty hA).class_of_classWith? hcls) hfirst hr
    next => exact primitive_emits h
  next => exact primitive_emits h

theorem factsAll_eq (entities : List Entity) :
    factsAll A entities = entities.flatMap (facts A) := by
  induction entities with
  | nil => rfl
  | cons entity rest ih => rw [factsAll, ih, flatMap_cons]

theorem rangeOperands_emits (h : ∀ v ∈ values, .held v ∈ Γ) :
    Emits A H quiet Γ (values.forM fun v => do
        let ty ← typeOf v
        if !(ty == .int) then fail (.type span (.rangeOperand ty)))
      fun _ => values.map fun v => .settled v .int := by
  induction values generalizing Γ with
  | nil => exact .pure (by simp)
  | cons v rest ih =>
    obtain ⟨hv, hr⟩ := forall_mem_cons.mp h
    have hcheck : Emits A H quiet Γ (do
        let ty ← typeOf v
        if !(ty == .int) then fail (.type span (.rangeOperand ty)))
        fun _ => [.settled v .int] := by
      refine .bind_typed hv fun ty _ => ?_
      split
      · exact .fail
      next hint =>
        have heq : ty = .int := by
          cases ty <;> first | rfl | simp [BEq.beq, Ty.same] at hint
        subst heq
        exact (Emits.pure (Δ := fun _ => [.typed v .int]) (by simp)).imply fun _ s hafter => by
          exact forall_mem_singleton.mpr fun _ => hafter _ (.head _)
    refine .bind hcheck fun _ => ?_
    refine (Emits.keep (show Fact.settled v .int ∈ _ by simp) rfl (ih fun w hw => ?_)).consequence
      (by simp)
    simp [hr w hw]

theorem makeIterable_emits {kind : IterableKind}
    (h : ∀ entity ∈ args, ∀ fact ∈ entity.facts A, fact ∈ Γ) :
    Denotes A H Γ (makeIterable kind span args) := by
  unfold makeIterable
  split
  · refine .bind (toValues_emits h) fun values => ?_
    refine .bind (rangeOperands_emits (by simp +contextual)) fun _ => ?_
    split
    iterate 3 exact .pure (by simp [facts])
    · exact .fail
  · split
    · exact .fail
    · refine .pure fun fact hφ => ?_
      rw [facts, factsAll_eq] at hφ
      obtain ⟨entity, hent, hφ⟩ := mem_flatMap.mp hφ
      exact h entity hent fact hφ
  · split
    next inner => exact .pure (by simpa [facts] using h)
    next => exact .fail

theorem callPrelude_emits {entry : PreludeEntry}
    (h : ∀ entity ∈ args, ∀ fact ∈ entity.facts A, fact ∈ Γ) :
    Denotes A H Γ (callPrelude entry span args) := by
  unfold callPrelude
  split
  · refine .bind (toValues_emits h) fun inputs => ?_
    refine .bind (insert_emits rfl (by simp +contextual) (by simp)) fun _ => ?_
    exact .bind (none_emits fun _ => .nothing) fun v => .pure (by simp [facts])
  · refine .bind (toValues_emits h) fun values => ?_
    split
    · exact .bind (callCast_emits (by simp)) fun v => .pure (by simp [facts])
    · exact .fail
  · refine .bind (toValues_emits h) fun values => ?_
    exact .bind (callPrimitive_emits (by simp +contextual)) fun v =>
      .pure (by simp [facts])
  · exact makeIterable_emits h
  · split
    next message rest =>
      exact .bind (toValue_emits (h message (.head _))) fun v =>
        .pure (by simp [facts])
    next => exact .bind str_emits fun v => .pure (by simp [facts])
  · exact .fail
  · exact .fail
  · exact .fail
  · exact .fail

/-! ## Entities -/

theorem callEntity_emits {entity : Entity} (hent : ∀ fact ∈ entity.facts A, fact ∈ Γ)
    (h : ∀ entity ∈ args, ∀ fact ∈ entity.facts A, fact ∈ Γ) :
    Denotes A H Γ (callEntity entity span args) := by
  unfold callEntity
  split
  · exact callPrelude_emits h
  next signature =>
    refine .of_sure (hent _ (mem_singleton.mpr rfl)) fun hret => ?_
    refine .bind (toValues_emits h) fun values => ?_
    split
    · exact .fail
    · refine .bind (coerceArguments_emits (by simp +contextual)) fun inputs => ?_
      refine .bind (insertWith_emits rfl (by simp +contextual) hret nofun) fun v => .pure ?_
      simp [facts]
  next receiver cls method =>
    have hreceiver : .held receiver ∈ Γ := hent _ (by simp [facts])
    have hreg : .sure (A → (Ty.object cls).Regular) ∈ Γ :=
      hent _ (by simp [facts])
    refine .of_sure hreg fun hcls => ?_
    refine .bind (toValues_emits h) fun values => ?_
    refine .bind
      (callMethod_emits hcls (by simp [hreceiver]) (by simp +contextual)) fun v => .pure ?_
    simp [facts]
  next receiver operation =>
    have hreceiver : .held receiver ∈ Γ := hent _ (by simp [facts])
    refine .bind (toValues_emits h) fun values => ?_
    refine .bind (primitive_emits (by simp +contextual [hreceiver])) fun v => .pure ?_
    simp [facts]
  next cls =>
    refine .of_sure (hent _ (mem_singleton.mpr rfl)) fun hcls => ?_
    refine .bind (toValues_emits h) fun values => ?_
    exact .bind (construct_emits hcls (by simp +contextual)) fun v => .pure (by simp [facts])
  · exact .fail
  next v =>
    have hv : .held v ∈ Γ := hent _ (by simp [facts])
    refine .bind_typeOf fun ty hty => ?_
    split
    next cls hcls =>
      refine .bind (toValues_emits h) fun values => ?_
      refine .bind (callMethod_emits (fun hA => (hty hA).class_of_classWith? hcls)
        (by simp [hv]) (by simp +contextual)) fun v => .pure ?_
      simp [facts]
    next => exact .fail
  · exact .fail

/-! ## Fork -/

theorem coerceForked_emits (h : ∀ entity ∈ args, ∀ fact ∈ entity.facts A, fact ∈ Γ)
    (hlen : args.length = params.length) :
    Emits A H quiet Γ (forkClosure.coerceForked callee span args params)
      fun values => .sure (values.length = params.length) :: (values.map .held ++
        (values.zip params).map fun pair => .fits pair.1 pair.2.2) := by
  induction args generalizing Γ params with
  | nil =>
    obtain rfl := length_eq_zero_iff.mp hlen.symm
    exact .pure_sure rfl (by simp)
  | cons arg rest ih =>
    obtain ⟨param, params, rfl⟩ := exists_cons_of_length_eq_add_one hlen.symm
    refine .bind (toValue_emits (h arg (.head _))) fun v => ?_
    refine .bind (coerce_emits (by simp)) fun converted => ?_
    refine .bind_sure (ih (fun entity hent fact hφ => ?_) (by simpa using hlen))
      fun values hvs => .pure_sure (by simp [hvs]) ?_
    · simp [h entity (mem_cons_of_mem arg hent) fact hφ]
    · simp only [map_cons, zip_cons_cons]
      grind

theorem forkClosure_emits (hcl : .held closure ∈ Γ)
    (h : ∀ entity ∈ args, ∀ fact ∈ entity.facts A, fact ∈ Γ) :
    Denotes A H Γ (forkClosure closure span args) := by
  intro ctx s entity t hready hΓ hrun
  obtain ⟨_, _, hget, hrun⟩ := bind_ok hrun
  cases hget
  cases hlook : s.signatures.lookup closure with simp only [hlook] at hrun
  | none => exact absurd hrun fail_ok
  | some signature =>
    split at hrun
    · exact absurd hrun fail_ok
    next hlen =>
      obtain ⟨inputs, u, hcoerce, hrun⟩ := bind_ok hrun
      obtain ⟨hemit, hq, hafter⟩ :=
        (coerceForked_emits h (Decidable.not_not.mp hlen)).apply hready hΓ hcoerce
      obtain ⟨hwf', hadv⟩ := hemit.sound hready.toWellFormed
      obtain ⟨v, builder, hsteps, hrun⟩ := build_run hrun
      obtain ⟨rfl, rfl⟩ := insertValue_some hwf'.coherent hwf'.anchored hsteps
      obtain ⟨rfl, rfl⟩ := pure_ok hrun
      obtain ⟨_, _, heq, -⟩ := lookup_eq_some_iff.mp hlook
      have hsigned := hadv.signatures.subset (heq ▸ mem_append_right _ (.head _))
      have hargs : ∀ v ∈ inputs, Held H u v := fun v hv => hafter (.held v) (by simp [hv])
      have hfit : Forall₂ (fun v param => ∃ ty, u.graph.typeOf? v = some ty ∧
          ty.isSubtype (Prod.snd param) = true) inputs signature.params := by
        refine forall₂_iff_zip.mpr ⟨hafter (.sure _) (.head _), ?_⟩
        intro v param hpair
        have hfits : (Fact.fits v param.2).Holds A H u := by
          refine hafter _ (.tail _ (mem_append_right _ ?_))
          exact mem_map.mpr ⟨(v, param), hpair, rfl⟩
        exact hfits.2
      have hheld : Held H u closure := Held.mono hready.toWellFormed hadv (hΓ _ hcl)
      refine ⟨hemit.trans (.fork span hsigned hheld hargs hfit), hq, ?_⟩
      exact forall_mem_singleton.mpr (held_fresh hwf')

theorem forkCall_emits {action : Lower Entity} (haction : Denotes A H Γ action) :
    Denotes A H Γ (forkCall span action) := by
  intro ctx s entity t hready hΓ hrun
  obtain ⟨_, _, hinsert, hrun⟩ := bind_ok hrun
  obtain ⟨rfl, rfl⟩ := insertClosure_ok hready.toWellFormed hinsert
  obtain ⟨⟨result, _⟩, _, hf, hrun⟩ := bind_ok hrun
  obtain ⟨s₁, hinside, rfl⟩ := inBody_ok hf
  -- the call, inside
  obtain ⟨hopen, henc⟩ := Between.openClosure hready.toWellFormed span
  have he : Ready A H ctx ((s.openClosure span).enterBody s.graph.freshBlock
      (some s.graph.freshNode) (.start "fork" none)) :=
    ⟨(hopen.enterBody henc (.start "fork" none)).wellFormed, hready.context, fun hA =>
      ((hready.regular hA).openClosure span).enterBody _ _ (by simp [start])⟩
  have hcarries : Carries H s ((s.openClosure span).enterBody s.graph.freshBlock
      (some s.graph.freshNode) (.start "fork" none)) := hopen.carries_inside henc rfl rfl rfl
  have hv : Produces A H Γ (do toValue span (← action)) :=
    .bind haction fun entity => toValue_emits (by simp +contextual)
  obtain ⟨hbody, -, hafter⟩ := hv.apply he
    (fun fact hφ => hcarries.holds_all (fun _ => rfl) (hΓ fact hφ)) hinside
  have hret : Held H s₁ result := hafter (.held result) (by simp)
  -- the closure, outside
  obtain ⟨_, _, hadd, hrun⟩ := bind_ok hrun
  obtain rfl := addResult_ok hadd
  obtain ⟨closure, builder, hsteps, hrun⟩ := build_run hrun
  obtain ⟨hout, rfl⟩ := query_some.mp hsteps
  obtain ⟨ty, hty, hrun⟩ := typeOf_run hrun
  obtain ⟨hemit, hs, houtput', hheld⟩ := closure_runs [] hready.toWellFormed
    (by simp [start]) (by simp) hbody hret hty "fork"
  cases houtput'.symm.trans hout
  obtain ⟨_, _, hsign, hrun⟩ := bind_ok hrun
  cases hsign
  obtain ⟨v, builder, hsteps, hrun⟩ := build_run hrun
  have hwf' := (hemit.sound hready.toWellFormed).1
  obtain ⟨rfl, rfl⟩ := insertValue_some hwf'.coherent hwf'.anchored hsteps
  obtain ⟨rfl, rfl⟩ := pure_ok hrun
  refine ⟨hemit.trans (.fork span (.head _) hheld (forall_mem_nil _) .nil), hs.agrees quiet, ?_⟩
  exact forall_mem_singleton.mpr (held_fresh hwf')

theorem call_emits (entity : Entity) (args : List Entity) (hent : ∀ fact ∈ entity.facts A, fact ∈ Γ)
    (h : ∀ entity ∈ args, ∀ fact ∈ entity.facts A, fact ∈ Γ) :
    Denotes A H Γ (call span entity args) := by
  induction args generalizing entity with
  | nil =>
    cases entity with
    | fork => exact .fail
    | _ => exact callEntity_emits hent h
  | cons target rest ih =>
    obtain ⟨htgt, hr⟩ := forall_mem_cons.mp h
    cases entity with
    | fork =>
      cases target with
      | closure closure => exact forkClosure_emits (htgt _ (by simp [facts])) hr
      | _ => exact forkCall_emits (ih _ htgt hr)
    | _ => exact callEntity_emits hent h

end Flowgraph.Lower
