import Flowgraph.Proofs.Lowering.Build

/-!
# Names and conversions

Reading a name is one node, wherever it is placed.  Binding one stores its value, converted if the
blocks around bind the name too, or records what it denotes.
-/

namespace Flowgraph.Lower

variable {entity : Entity} {α : Type} {declared : Option Ty} {action : Lower α} {a : Unit}

open Entity Flowgraph.Fact Flowgraph.Graph List

variable {operation : Primitive} {inputs values elems : List ValueId} {target : Ty} {frame : Nat}
  {narrowing : Narrowing} {map : RefinementMap} {fact : Fact}
variable {A : Prop} {H : List ValueId} {Γ : List Fact}
  {ctx : LowerContext} {s t : LowerState} {v : ValueId} {ty : Ty} {span : Span} {name : String}

/-! ## Debug names -/

theorem nameValue_ok (h : nameValue v name ctx s = .ok (a, t)) :
    ∃ label, t = s.withGraph (s.graph.named v label) := by
  unfold nameValue at h
  have hs : s = s.withGraph (s.graph.named v none) := by
    rw [named_none]
    rfl
  split at h
  · obtain ⟨_, _, hget, h⟩ := bind_ok h
    cases hget
    obtain ⟨builder, hsteps, rfl⟩ := build_ok h
    obtain ⟨g, hch, rfl⟩ := Build.update_some.mp hsteps
    obtain ⟨value, hv, hch⟩ := Option.bind_eq_some_iff.mp hch
    obtain ⟨isHere, -, hch⟩ := Option.bind_eq_some_iff.mp hch
    split at hch
    · obtain rfl := setName_eq_some hch
      exact ⟨some name, rfl⟩
    · cases hch
      exact ⟨none, hs⟩
  · obtain ⟨-, rfl⟩ := pure_ok h
    exact ⟨none, hs⟩

theorem nameValue_emits : Acts A H quiet Γ (nameValue v name) := by
  intro ctx s a t _ _ hrun
  obtain ⟨label, rfl⟩ := nameValue_ok hrun
  exact ⟨.named H s v label, .refl _ _, by simp⟩

theorem nameValue_run (ctx : LowerContext) (name : String) {n : NodeId} {node : Node}
    (hc : s.graph.Coherent) (hn : s.graph.node? n = some node) (hv : v ∈ node.outputs) :
    ∃ label, nameValue v name ctx s = .ok ((), s.withGraph (s.graph.named v label)) := by
  obtain ⟨t, hrun⟩ : ∃ t, nameValue v name ctx s = .ok ((), t) := by
    obtain ⟨value, slot, hvalue, horigin⟩ := hc.output n node v hn hv
    unfold nameValue
    split
    · obtain ⟨g, hg⟩ : ∃ g, (do
          let value ← s.graph.value? v
          if (← definedIn s.graph s.point.block value) && value.name.isNone then
            s.graph.setName v (some name)
          else some s.graph) = some g := by
        simp only [hvalue, definedIn, horigin, hn, Option.map_some, Option.bind_eq_bind,
          Option.bind_some]
        split <;> simp [setName, modifyValue, hvalue]
      exact ⟨_, bind_iff.mpr ⟨s, s, rfl, build_eq_ok (Build.update_some.mpr ⟨g, hg, rfl⟩)⟩⟩
    · exact ⟨s, rfl⟩
  obtain ⟨label, rfl⟩ := nameValue_ok hrun
  exact ⟨label, hrun⟩

/-! ## Primitives and conversions -/

theorem typesOf_ok {types : List Ty} (h : values.mapM typeOf ctx s = .ok (types, t)) :
    s.graph.Typed values types ∧ s = t := by
  induction values generalizing types t with
  | nil =>
    obtain ⟨rfl, rfl⟩ := pure_ok h
    exact ⟨.nil, rfl⟩
  | cons v rest ih =>
    rw [mapM_cons] at h
    obtain ⟨ty, hty, h⟩ := typeOf_run h
    obtain ⟨others, _, hr, h⟩ := bind_ok h
    obtain ⟨hothers, rfl⟩ := ih hr
    obtain ⟨rfl, rfl⟩ := pure_ok h
    exact ⟨.cons hty hothers, rfl⟩

theorem typesOf_emits : Emits A H quiet Γ (values.mapM typeOf)
      fun types => [.sure (A → ∀ ty ∈ types, ty.Regular)] := by
  refine .ask fun ctx s types t hrun => ?_
  obtain ⟨htyped, rfl⟩ := typesOf_ok hrun
  refine ⟨rfl, fun hready _ => ?_⟩
  simp only [mem_singleton, forall_eq, holds_sure]
  intro hA ty hty
  obtain ⟨v, hv⟩ := htyped.exists_value hty
  exact hready.typeOf? hv hA

theorem primitive_sound (hready : Ready A H ctx s) (hins : ∀ v ∈ inputs, Held H s v)
    (hrun : primitive operation inputs span ctx s = .ok (v, t)) :
    ∃ args ty, s.graph.Typed inputs args ∧ operation.resultType? args = some ty ∧
      Emission A H s t ∧ t.scope = s.scope ∧ Held H t v ∧ (typed v ty).Holds A H t := by
  obtain ⟨args, _, hargs, hr⟩ := bind_ok hrun
  obtain ⟨htyped, rfl⟩ := typesOf_ok hargs
  obtain ⟨ty, _, hret, hinsert⟩ := bind_ok hr
  obtain ⟨hcheck, rfl⟩ := ofExcept_ok hret
  exact ⟨args, ty, htyped, (Primitive.resultType?_of_check hcheck).1,
    insertPrimitive_emission hready hins htyped hcheck hinsert⟩

theorem primitive_emits (hins : ∀ v ∈ inputs, .held v ∈ Γ) :
    Produces A H Γ (primitive operation inputs span) := by
  intro ctx s v t hready hΓ hrun
  obtain ⟨_, _, -, -, hemit, hsc, hheld, -⟩ :=
    primitive_sound hready (held_inputs hins hΓ) hrun
  exact ⟨hemit, hsc ▸ .refl _ _, by simpa using hheld⟩

theorem primitive_settled (result : Ty) (hins : ∀ v ∈ inputs, .held v ∈ Γ)
    (hret : ∀ s args ty, A → (∀ fact ∈ Γ, fact.Holds A H s) → s.graph.Typed inputs args →
      operation.resultType? args = some ty → ty = result) :
    Emits A H quiet Γ (primitive operation inputs span) fun v => [.held v, .settled v result] := by
  intro ctx s v t hready hΓ hrun
  obtain ⟨args, ty, htyped, hty, hemit, hsc, hheld, hv⟩ :=
    primitive_sound hready (held_inputs hins hΓ) hrun
  refine ⟨hemit, hsc ▸ .refl _ _, ?_⟩
  rw [forall_mem_cons, forall_mem_singleton]
  refine ⟨hheld, fun hA => ?_⟩
  rw [← hret s args ty hA hΓ htyped hty]
  exact hv

theorem toValue_emits (h : ∀ fact ∈ entity.facts A, fact ∈ Γ) :
    Produces A H Γ (toValue span entity) := by
  refine .ask fun ctx s v t hrun => ?_
  obtain ⟨hv, rfl⟩ := ofExcept_ok hrun
  refine ⟨rfl, fun hready hΓ fact hφ => ?_⟩
  obtain rfl := mem_singleton.mp hφ
  refine hΓ _ (h _ ?_)
  cases entity <;> cases hv <;> simp [facts]

theorem toValues_emits {entities : List Entity}
    (h : ∀ entity ∈ entities, ∀ fact ∈ entity.facts A, fact ∈ Γ) :
    Emits A H quiet Γ (toValues span entities) fun values => values.map .held := by
  refine (Emits.mapM fun entity hentity => toValue_emits (h entity hentity)).consequence ?_
  intro values
  simp [← map_eq_flatMap]

theorem conversion_emits (ty : Ty) {result : Ty} (hv : .held v ∈ Γ) (htyped : .typed v ty ∈ Γ)
    (hcheck : operation.check [ty] default = .ok result) :
    Produces A H Γ (build (Build.insertPrimitive operation [v] result span)) := by
  intro ctx s w t hready hΓ hrun
  obtain ⟨hemit, hsc, hheld, -⟩ := insertPrimitive_emission hready
    (by simpa using hΓ _ hv) (.cons (hΓ _ htyped).2 .nil) hcheck hrun
  exact ⟨hemit, hsc ▸ .refl _ _, by simpa using hheld⟩

theorem tryConvert_emits (target : Ty) {Γ : List Fact} (hv : .held v ∈ Γ) :
    Produces A H Γ (tryConvert v span target) := by
  unfold tryConvert
  refine .bind (typeOf_emits hv) fun ty => ?_
  have hs : ∀ {Γ' : List Fact}, .held v ∈ Γ' →
      Emits A H quiet Γ' (pure v) fun v => [.held v] := fun h => .pure (by simpa using h)
  split
  · exact hs (by simp [hv])
  · split
    next inner _ => exact tryConvert_emits inner (by simp [hv])
    next =>
      split
      · exact conversion_emits .int (by simp [hv]) (by simp) rfl
      · exact hs (by simp [hv])
    all_goals first
      | exact hs (by simp [hv])
      | split
        next hscalar =>
          exact conversion_emits ty (by simp [hv]) (by simp)
            (by cases ty <;> first | rfl | cases hscalar)
        next => exact hs (by simp [hv])

theorem convert?_emits (hv : .held v ∈ Γ) : Emits A H quiet Γ (convert? v target span) fun answer =>
      (answer.toList).flatMap fun v => [.held v, .fits v target] := by
  refine .bind (tryConvert_emits target hv) fun converted => ?_
  refine .bind (typeOf_emits (by simp)) fun ty => ?_
  split
  next hsub => exact .derive_fits converted (by simp) hsub (.pure (by simp))
  next => exact .pure (by simp)

theorem coerce_emits {role : Role} (hv : .held v ∈ Γ) :
    Emits A H quiet Γ (coerce v target span role)
      fun v => [.held v, .fits v target] := by
  refine .bind (convert?_emits hv) fun answer => ?_
  split
  · exact .pure (by simp)
  · exact .bind typeOf_emits' fun _ => .fail

theorem tuple_emits (h : ∀ v ∈ elems, .held v ∈ Γ) : Produces A H Γ (tuple elems span) := by
  refine .bind_sure (Δ := fun _ => []) typesOf_emits fun types htys => ?_
  exact (insertValue_emits rfl (fun v hv => by simp [h v hv])
    fun hA => .tuple (htys hA)).consequence (by simp)

theorem describe_emits : Acts A H quiet Γ (describe entity) := by
  unfold describe
  split
  · exact .bind typeOf_emits' fun _ => .pure (by simp)
  · exact .pure (by simp)

/-! ## Reading names -/

theorem modifyScope_ok {change : Scope → Scope}
    (h : modifyScope change ctx s = .ok (a, t)) : s.mapScope change = t := by
  cases h
  rfl

theorem readHere_run (hc : s.graph.Coherent) (hp : s.graph.Anchored s.point) : ∃ label, (do
      let v ← build (Build.insertWith .load [] ty "name" (.str name) span)
      nameValue v name
      return v : Lower ValueId) ctx s = .ok (s.graph.freshValue, s.withGraph ((s.graph.place s.point
        (loadNode name span) [ty]).named s.graph.freshValue label)) := by
  obtain ⟨label, hname⟩ := nameValue_run ctx name (v := s.graph.freshValue)
    (s := s.place (loadNode name span) [ty]) (hc.place rfl _ _)
    ((node?_attach ..).trans (if_pos rfl)) (by simp [freshValues_one])
  exact ⟨label, bind_iff.mpr ⟨_, _, build_eq_ok (Build.insertWith_eq hc hp),
    bind_iff.mpr ⟨_, _, hname, rfl⟩⟩⟩

theorem load_run (hc : s.graph.Coherent) (hp : s.graph.Anchored (s.readPoint frame s.point)) :
    ∃ label, load name ty frame span ctx s = .ok (s.graph.freshValue, s.withGraph
      ((s.graph.place (s.readPoint frame s.point) (loadNode name span) [ty]).named
        s.graph.freshValue label)) := by
  rw [LowerState.readPoint] at hp ⊢
  cases hcr : s.scope.closureCrossedFrom? frame with simp only [hcr] at hp ⊢
  | none =>
    obtain ⟨label, hread⟩ := readHere_run hc hp
    exact ⟨label, bind_iff.mpr ⟨_, _, rfl, by simpa only [hcr] using hread⟩⟩
  | some closure =>
    have hplace := hp
    obtain ⟨block, hb, hanchor⟩ := hplace
    obtain ⟨node, hn, -⟩ := hc.placed _ block closure hb (hanchor closure rfl)
    rw [hn] at hp ⊢
    obtain ⟨label, hread⟩ := readHere_run
      (s := s.moveTo ⟨node.owner.getD s.point.block, some closure⟩) hc hp
    refine ⟨label, bind_iff.mpr ⟨_, _, rfl, ?_⟩⟩
    simp only [hcr]
    exact bind_iff.mpr ⟨_, _, build_eq_ok (Build.bind_some.mpr
      ⟨node, _, Build.query_some.mpr ⟨hn, rfl⟩, rfl⟩), bind_iff.mpr ⟨_, _, hread, rfl⟩⟩

theorem load_sound (h : WellFormed H s) (hfd : s.scope.find? name = some ⟨frame, .plain ty⟩)
    (hrun : load name ty frame span ctx s = .ok (v, t)) :
    Emission A H s t ∧ t.scope = s.scope ∧ Held H t v ∧ t.graph.typeOf? v = some ty := by
  have hpoint := h.anchored_readPoint frame
  obtain ⟨label, hload⟩ := load_run h.coherent hpoint
  cases hload.symm.trans hrun
  have hread : Emission A H s _ := .read span hfd
  have hwf := (hread.sound h).1
  have hdef : (s.graph.place (s.readPoint frame s.point) (loadNode name span) [ty]).Defined
      s.point s.graph.freshValue :=
    ⟨_, (h.within_readPoint frame).mono (.place h.coherent rfl _ [ty]),
      definedHere_place h.coherent hpoint (by simp [freshValues_one])⟩
  refine ⟨hread.trans (.named H _ s.graph.freshValue label), rfl, ⟨?_, ?_⟩, ?_⟩
  · exact h.freshValue_not_mem
  · exact hdef.mono ((Grows.refl _).named _ label) hwf.hasAnchor
  · rw [LowerState.withGraph, LowerState.graph, typeOf?, named, value?_mapValue, if_pos rfl]
    have hty := typeOf?_place s.graph (s.readPoint frame s.point) (loadNode name span) ty
    simpa [typeOf?, Function.comp_def] using hty

theorem ofHostValue_emits {value : HostValue} (hv : A → value.Regular) :
    Denotes A H Γ (ofHostValue value span) := by
  have hsure : ∀ {entity : Entity} {claim : Prop}, entity.facts A = [.sure claim] → claim →
      Denotes A H Γ (pure entity) := by
    intro entity claim hΓ hclaim
    refine .ask fun ctx s a t hrun => ?_
    obtain ⟨rfl, rfl⟩ := pure_ok hrun
    refine ⟨rfl, fun _ _ => ?_⟩
    rw [hΓ]
    simpa using hclaim
  unfold ofHostValue
  split
  case h_1 | h_2 =>
    refine hsure rfl fun hA => ?_
    cases hv hA
    assumption
  next module => exact hsure rfl hv
  next => exact .bind literal_emits fun v => .pure (by simp [facts])

theorem lookup_emits : Denotes A H Γ (lookup name span) := by
  intro ctx s entity t hready hΓ hrun
  replace hrun := getScope_run hrun
  cases hfd : s.scope.find? name with
  | some found =>
    obtain ⟨frame, binding⟩ := found
    cases binding with simp only [hfd] at hrun
    | entity denoted =>
      obtain ⟨rfl, rfl⟩ := pure_ok hrun
      exact ⟨.refl H s, .refl _ _, (facts_hold_iff denoted).mpr ⟨hready.frames.find hfd,
          fun hA => (hready.regular hA).find? hfd⟩⟩
    | plain ty =>
      obtain ⟨v, hload, rfl⟩ := map_ok hrun
      obtain ⟨hemit, hsc, hheld, -⟩ := load_sound hready.toWellFormed hfd hload
      refine ⟨hemit, hsc ▸ .refl _ _, ?_⟩
      simpa [facts] using hheld
  | none =>
    simp only [hfd] at hrun
    refine Emits.apply (Δ := fun entity => entity.facts A) ?_ hready hΓ hrun
    split
    · exact .fail
    · refine .bind_sure (Δ := fun _ => []) .read fun context hcontext => ?_
      split
      next entry _ =>
        refine .pure ?_
        cases entry <;> simp [ofPrelude, facts]
      next =>
        split
        next value hv => exact ofHostValue_emits fun hA => (hcontext hA).host.value _ _ _ hv
        next => exact .fail

theorem preludeCallee?_emits {callee : Expr} : Acts A H quiet Γ (preludeCallee? callee) := by
  unfold preludeCallee?
  split
  · exact .pure (by simp)
  · refine .bind .getScope fun scope => ?_
    split
    · exact .pure (by simp)
    · exact .bind .read fun context => .pure (by simp)

/-! ## Binding names -/

theorem placeStore_ok {a : α} {rest : Lower α} (hc : s.graph.Coherent)
    (hp : s.graph.Anchored s.point) (h : (do
      let n ← build (Build.insert .store [v] [] span)
      build (Build.setAttr n "name" (.str name))
      rest : Lower α) ctx s = .ok (a, t)) :
    rest ctx (s.place (storeNode name v span) []) = .ok (a, t) := by
  obtain ⟨_, builder, hsteps, h⟩ := build_run h
  obtain ⟨rfl, rfl⟩ := Build.insert_some hc hp hsteps
  obtain ⟨_, builder, hsteps, h⟩ := build_run h
  obtain rfl := Build.setAttr_some hsteps
  exact h

theorem store_eq (hc : s.graph.Coherent) (hp : s.graph.Anchored s.point) :
    store name v ty span ctx s =
      .ok ((), (s.place (storeNode name v span) []).recordPlain name ty) :=
  bind_iff.mpr ⟨_, _, build_eq_ok (Build.insert_eq hc hp), bind_iff.mpr ⟨(), _,
    build_eq_ok (Build.update_some.mpr ⟨_, setAttr_place, rfl⟩), rfl⟩⟩

theorem store_ok (hc : s.graph.Coherent) (hp : s.graph.Anchored s.point)
    (h : store name v ty span ctx s = .ok (a, t)) :
    t = (s.place (storeNode name v span) []).recordPlain name ty := by
  cases (store_eq hc hp).symm.trans h
  rfl

theorem enclosing?_emits : Acts A H quiet Γ (enclosing? name) := by
  unfold enclosing?
  split
  · exact .pure (by simp)
  · exact .bind .getScope fun _ => .pure (by simp)

theorem asValue?_eq_some (h : entity.asValue? = some v) : entity = .value v := by
  cases entity <;> simp_all [asValue?]

theorem fitted_emits {fault : Ty → Fault} (hv : .held v ∈ Γ) : Emits A H quiet Γ (do
      let converted ← tryConvert v span target
      let ty ← typeOf converted
      if ty.isSubtype target = true then return converted else fail (fault ty))
      fun v => [.held v, .fits v target] := by
  refine .bind (tryConvert_emits _ hv) fun converted => ?_
  refine .bind (typeOf_emits (by simp)) fun ty => ?_
  split
  next hsub => exact .derive_fits converted (by simp) hsub (.pure (by simp))
  next => exact .fail

theorem rebind_emits {previous : Binding} (h : ∀ fact ∈ entity.facts A, fact ∈ Γ) :
    Produces A H Γ (rebind name entity declared span previous) := by
  unfold rebind
  dsimp only
  split
  · exact .fail_bind
  next =>
    cases hv : entity.asValue? with
    | none => exact .fail
    | some v =>
      obtain rfl := asValue?_eq_some hv
      cases previous with
      | entity denoted => exact .fail
      | plain outer => exact (fitted_emits (by simpa [facts] using h)).consequence (by simp)

theorem store_emits (hv : .held v ∈ Γ) (hreg : A → ty.Regular) :
    Acts A H loud Γ (store name v ty span) := by
  intro ctx s a t hready hΓ hrun
  obtain rfl := store_ok hready.coherent hready.anchored hrun
  exact ⟨.store span (hΓ _ hv) hreg, Scope.agrees_loud _ _, by simp⟩

section

variable (hdeclared : A → ∀ ty ∈ declared, ty.Regular)
include hdeclared

theorem storeFitted_emits (hv : .held v ∈ Γ) :
    Acts A H loud Γ (do store name v (declared.getD (← typeOf v)) span) := by
  refine .bind_typeOf fun ty hreg => store_emits hv fun hA => ?_
  cases declared with
  | none => exact hreg hA
  | some stated => exact hdeclared hA stated rfl

variable (h : ∀ fact ∈ entity.facts A, fact ∈ Γ)
include h

theorem bindFitted_emits : Acts A H loud Γ (do
      let fitted ←
        match ← enclosing? name with
        | some previous => pure (some (← rebind name entity declared span previous))
        | none => pure entity.asValue?
      match fitted with
      | some v => store name v (declared.getD (← typeOf v)) span
      | none => modifyScope fun scope => scope.recordEntity name entity) := by
  refine .bind enclosing?_emits fun previous => ?_
  cases previous with
  | some previous =>
    refine .bind (rebind_emits (by simpa using h)) fun v => ?_
    rw [pure_bind]
    exact storeFitted_emits hdeclared (by simp)
  | none =>
    simp only [pure_bind]
    cases hvalue : entity.asValue? with
    | some v =>
      obtain rfl := asValue?_eq_some hvalue
      exact storeFitted_emits hdeclared (by simpa [facts] using h)
    | none =>
      intro ctx s a t hready hΓ hrun
      obtain rfl := modifyScope_ok hrun
      obtain ⟨hheld, hreg⟩ := (facts_hold_iff entity).mp fun fact hφ =>
        hΓ fact (by simpa using h fact hφ)
      exact ⟨.entity hheld hreg, Scope.agrees_loud _ _, by simp⟩

theorem bindName_emits : Acts A H loud Γ (bindName name entity declared span) := by
  unfold bindName
  split
  · refine .bind nameValue_emits fun _ => ?_
    exact bindFitted_emits hdeclared (by simpa using h)
  · exact bindFitted_emits hdeclared h

end

/-! ## Narrowing -/

theorem lookup_plain (h : WellFormed H s) (hty : s.scope.typeOf? name = some ty)
    (hrun : lookup name span ctx s = .ok (entity, t)) :
    Emission A H s t ∧ t.scope = s.scope ∧ ∃ v, entity = .value v ∧ Held H t v ∧
      t.graph.typeOf? v = some ty := by
  obtain ⟨⟨frame, _⟩, hfd, rfl⟩ := Scope.typeOf?_eq_some hty
  replace hrun := getScope_run hrun
  simp only [hfd] at hrun
  obtain ⟨v, hload, rfl⟩ := map_ok hrun
  obtain ⟨hemit, hsc, hheld, htyped⟩ := load_sound h hfd hload
  exact ⟨hemit, hsc, v, rfl, hheld, htyped⟩

/-- Where a variable is narrowed, it is optional and becomes what the optional holds. -/
theorem narrow_sound (hready : Ready A H ctx s)
    (hnarr : ∃ inner, s.scope.typeOf? name = some (.optional inner) ∧ inner.NarrowsTo narrowing.ty)
    (hrun : narrow name narrowing ctx s = .ok (a, t)) :
    Emission A H s t ∧ ∀ other ≠ name, t.scope.typeOf? other = s.scope.typeOf? other := by
  obtain ⟨inner, hcur, hin⟩ := hnarr
  obtain ⟨ty, place⟩ := narrowing
  unfold narrow at hrun
  split at hrun
  · obtain ⟨-, rfl⟩ := pure_ok hrun
    exact ⟨.refl H s, fun _ _ => rfl⟩
  next hnil =>
  replace hrun := getScope_run hrun
  simp only [hcur] at hrun
  split at hrun
  · obtain ⟨-, rfl⟩ := pure_ok hrun
    exact ⟨.refl H s, fun _ _ => rfl⟩
  next hdiffers =>
  -- `None` and the optional itself change nothing; what is left is the payload
  obtain rfl : ty = inner := by
    rcases hin.cases_eq with rfl | rfl | rfl
    · exact absurd rfl hnil
    · rfl
    · exact absurd (Ty.same_refl _) hdiffers
  obtain ⟨entity, s₁, hlook, hrun⟩ := bind_ok hrun
  obtain ⟨w, _, hv, hrun⟩ := bind_ok hrun
  obtain ⟨v, u, hunwrap, hstore⟩ := bind_ok hrun
  obtain ⟨hread, hsc, w, rfl, hheld, htyped⟩ : Emission A H s s₁ ∧ _ :=
    lookup_plain hready.toWellFormed hcur hlook
  obtain ⟨heq, rfl⟩ := ofExcept_ok hv
  cases heq
  have hreg : A → ty.Regular := fun hA => by
    obtain ⟨found, hfd, hplain⟩ := Scope.typeOf?_eq_some hcur
    have hfound := (hready.regular hA).find? hfd
    rw [hplain] at hfound
    exact Ty.Regular.inner_of_optional hfound
  obtain ⟨hm, hscope', hheld', htyped'⟩ := insertChecked_emission (hread.ready hready) rfl
    (by simpa using hheld) ⟨by simp, fun _ => ⟨ty, .cons htyped .nil, rfl⟩⟩ hreg hunwrap
  have hready' := hm.ready (hread.ready hready)
  obtain rfl := modifyScope_ok (placeStore_ok hready'.coherent hready'.anchored hstore)
  refine ⟨(hread.trans hm).trans (.narrow place hheld' htyped'.2), fun other hne => ?_⟩
  rw [← hscope'.trans hsc]
  exact (Scope.kept_recordRefined _ name ty).typeOf? (Scope.slot?_bindCurrent _ _ hne)

/-- Narrowing one name after the other: each narrowing leaves the names to come alone. -/
theorem narrowAll_sound {entries : List (String × Narrowing)}
    (hready : Ready A H ctx s) (hnodup : (entries.map Prod.fst).Nodup)
    (hes : ∀ entry ∈ entries, ∃ inner, s.scope.typeOf? entry.1 = some (.optional inner) ∧
      inner.NarrowsTo entry.2.ty)
    (hrun : (entries.forM fun entry => narrow entry.1 entry.2) ctx s = .ok (a, t)) :
    Emission A H s t := by
  induction entries generalizing s with
  | nil =>
    obtain ⟨-, rfl⟩ := pure_ok hrun
    exact .refl H s
  | cons entry rest ih =>
    obtain ⟨_, u, hfirst, hr⟩ := bind_ok hrun
    obtain ⟨hemit, hothers⟩ := narrow_sound hready (hes entry (.head _)) hfirst
    rw [map_cons, nodup_cons] at hnodup
    refine hemit.trans (ih (hemit.ready hready) hnodup.2 ?_ hr)
    intro other hother
    have hne : other.1 ≠ entry.1 := fun heq => hnodup.1 (heq ▸ mem_map_of_mem hother)
    rw [hothers other.1 hne]
    exact hes other (mem_cons_of_mem entry hother)

theorem insertRefinements_emits (h : .narrows map ∈ Γ) :
    Acts A H loud Γ (insertRefinements map) := by
  intro ctx s a t hready hΓ hrun
  obtain ⟨hnodup, hes⟩ := hΓ _ h
  exact ⟨narrowAll_sound hready hnodup hes hrun, Scope.agrees_loud _ _, by simp⟩

theorem withFrame_ok {block : BlockId} {startsBody : Bool} {closure : Option NodeId}
    {answer : α × Option Frame}
    (h : withFrame block startsBody closure action ctx s = .ok (answer, t)) :
    ∃ u, action ctx (s.mapScope fun scope => scope.push block startsBody closure) =
        .ok (answer.1, u) ∧ answer.2 = u.scope.current? ∧ u.pop = t := by
  obtain ⟨_, _, hpush, h⟩ := bind_ok h
  obtain rfl := modifyScope_ok hpush
  obtain ⟨a, u, haction, h⟩ := bind_ok h
  replace h := getScope_run h
  obtain ⟨_, _, hpop, h⟩ := bind_ok h
  obtain rfl := modifyScope_ok hpop
  obtain ⟨rfl, rfl⟩ := pure_ok h
  exact ⟨u, haction, rfl, rfl⟩

theorem holds_of_sameBuilder (hlast : fact.isLasting = true) (hbuilder : t.builder = s.builder)
    (hsigs : t.signatures = s.signatures) (h : fact.Holds A H s) : fact.Holds A H t := by
  obtain ⟨builder, scope, bodies, signatures⟩ := t
  subst hbuilder hsigs
  exact Holds.carry (s := s) (fun _ _ _ hty => hty) (fun _ hv => hv) (Subset.refl _) hlast h

theorem refined_emits {Δ : α → List Fact} (hmap : .narrows map ∈ Γ)
    (haction : Emits A H loud (Γ.filter isLasting) action Δ)
    (hΔ : ∀ a, ∀ fact ∈ Δ a, fact.isLasting = true) : Emits A H quiet Γ (refined map action) Δ := by
  intro ctx s a t hready hΓ hrun
  obtain ⟨_, _, hget, hrun⟩ := bind_ok hrun
  cases hget
  obtain ⟨answer, _, hf, hrun⟩ := bind_ok hrun
  obtain ⟨u, hinside, -, rfl⟩ := withFrame_ok hf
  obtain ⟨rfl, rfl⟩ := pure_ok hrun
  have hrefined := (insertRefinements_emits hmap).bind_loud fun _ => haction
  obtain ⟨hemit, -, hafter⟩ := hrefined.apply hready.narrowing
    (fun fact hφ => Holds.carry_all (s := s) (fun _ _ _ hty => hty) (fun _ hv => hv) (Subset.refl _)
      (fun _ => rfl) (hΓ fact hφ)) hinside
  refine ⟨.narrowing hemit, ?_, fun fact hφ => ?_⟩
  · exact (hemit.sound hready.toWellFormed.narrowing).2.scope.pop.agrees quiet
  · exact holds_of_sameBuilder (s := u) (hΔ _ fact hφ) rfl rfl (hafter fact hφ)

end Flowgraph.Lower
