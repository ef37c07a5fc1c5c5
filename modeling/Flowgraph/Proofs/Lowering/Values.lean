import Flowgraph.Proofs.Lowering.Names

/-!
# Values and operators

The constructs that lower to nodes without blocks: attributes and methods, iterables, truth values,
operators.  They bind nothing, and what they answer is held.

The parts of a construct are operands, items and targets.  Each comes with a predicate `Sound` that
says what lowering it does, so that a construct is verified once, for whatever its parts are.
-/

namespace Flowgraph.Lower

open Entity List

variable {entity : Entity} {args inputs : List ValueId} {cls : Class} {op : BinaryOp}
  {position receiver a b rhs : ValueId} {types : List Ty} {entities : List Entity}
  {action : Lower ValueId}
variable {A : Prop} {H : List ValueId} {Γ : List Fact} {ctx : LowerContext} {s t : LowerState}
  {v : ValueId} {ty : Ty} {span : Span} {name method key : String} {op : Op}

/-! ## Members -/

theorem coerceMethodArguments_emits {position : Nat} (h : ∀ v ∈ args, .held v ∈ Γ) :
    Emits A H quiet Γ (coerceMethodArguments method span position args types)
      fun values => values.map .held := by
  induction args generalizing Γ position types with
  | nil => exact .pure (by simp)
  | cons arg rest ih =>
    cases types with
    | nil => exact .pure (by simp)
    | cons ty types =>
      refine .bind (coerce_emits (h arg (.head _))) fun converted => ?_
      refine .bind (ih fun v hv => ?_) fun values => .pure (by simp +contextual)
      simp [h v (mem_cons_of_mem arg hv)]

theorem calledMethod_emits {method : Method Ty} (hmethod : cls.method? name = some method)
    (hcls : A → (Ty.object cls).Regular) (hreceiver : .held receiver ∈ Γ)
    (hargs : ∀ v ∈ args, .held v ∈ Γ) : Emits A H quiet Γ (callMethod receiver cls name args span)
      fun v => [.held v, .typed v method.result] := by
  unfold callMethod
  simp only [hmethod]
  split
  · exact .fail
  · refine .bind (coerceMethodArguments_emits hargs) fun inputs => ?_
    exact insertWith_emits rfl (by simp +contextual [hreceiver])
      (fun hA => (hcls hA).resultType hmethod) nofun

section

variable (hcls : A → (Ty.object cls).Regular) (hreceiver : .held receiver ∈ Γ)
  (hargs : ∀ v ∈ args, .held v ∈ Γ)
include hcls hreceiver hargs

theorem callMethod_emits : Produces A H Γ (callMethod receiver cls name args span) := by
  cases hmethod : cls.method? name with
  | none =>
    unfold callMethod
    simp only [hmethod]
    exact .fail
  | some method => exact (calledMethod_emits hmethod hcls hreceiver hargs).consequence (by simp)

theorem callTruth_emits : Emits A H quiet Γ (callMethod receiver cls "__bool__" args span)
      fun v => [.held v, .settled v .bool] := by
  cases hmethod : cls.method? "__bool__" with
  | none =>
    unfold callMethod
    simp only [hmethod]
    exact .fail
  | some method =>
    refine (calledMethod_emits hmethod hcls hreceiver hargs).imply fun v s hafter => ?_
    rw [forall_mem_cons, forall_mem_singleton] at hafter ⊢
    exact ⟨hafter.1, fun hA => (hcls hA).truth hmethod ▸ hafter.2⟩

end

theorem construct_emits (hcls : A → (Ty.object cls).Regular) (hargs : ∀ v ∈ args, .held v ∈ Γ) :
    Produces A H Γ (construct cls args span) := by
  refine .bind (insertWith_emits rfl (by simp) hcls nofun) fun object => ?_
  split
  · refine .bind (callMethod_emits hcls (by simp) fun v hv => ?_) fun _ => .pure (by simp)
    simp [hargs v hv]
  · split
    · exact .pure (by simp)
    · exact .fail

theorem getAttribute_emits (h : ∀ fact ∈ entity.facts A, fact ∈ Γ) :
    Denotes A H Γ (getAttribute entity span name) := by
  unfold getAttribute
  split
  next v =>
    have hv : .held v ∈ Γ := h _ (by simp [facts])
    refine .bind_typeOf fun ty hty => ?_
    split
    next cls hcls =>
      have hreg : A → (Ty.object cls).Regular := fun hA =>
        (hty hA).class_of_asClass? hcls
      split
      next hattribute =>
        refine .bind (insertWith_emits rfl (by simp [hv]) (fun hA =>
          (hreg hA).attributeType hattribute) nofun) fun _ => .pure ?_
        simp [facts]
      next =>
        split
        · exact .derive (.sure (A → (Ty.object cls).Regular))
            (fun _ _ => hreg) (.pure (by simp [facts, hv]))
        · exact .fail
    next =>
      split
      · exact .pure (by simp [facts, hv])
      · exact .fail
  next module =>
    refine .of_sure (h _ (mem_singleton.mpr rfl)) fun hmodule => ?_
    split
    next member hmember =>
      refine ofHostValue_emits fun hA => ?_
      cases hmodule hA with
      | module hmembers => exact hmembers name member hmember
    next => exact .fail
  · exact .fail

theorem insertAttr_emits {value : Literal}
    (hform : op.isForm = true) (hins : ∀ v ∈ inputs, .held v ∈ Γ)
    (hreg : A → ∀ ty ∈ types, ty.Regular) (hnum : op = .constant → value.numberType? = none) :
    Acts A H quiet Γ (do
      let n ← build (Build.insert op inputs types span)
      build (Build.setAttr n key value)) := by
  intro ctx s a t hready hΓ hrun
  obtain ⟨_, builder, hsteps, hrun⟩ := build_run hrun
  obtain ⟨rfl, rfl⟩ := Build.insert_some hready.coherent hready.anchored hsteps
  obtain ⟨builder, hsteps, rfl⟩ := build_ok hrun
  obtain rfl := Build.setAttr_some hsteps
  exact ⟨form_emission hform rfl rfl (held_inputs hins hΓ) hreg (number?_attr hnum),
    .refl _ _, by simp⟩

theorem setAttribute_emits (h : ∀ fact ∈ entity.facts A, fact ∈ Γ) (hv : .held v ∈ Γ) :
    Acts A H quiet Γ (setAttribute entity span name v) := by
  unfold setAttribute
  split
  next object =>
    have hobject : .held object ∈ Γ := h _ (by simp [facts])
    refine .bind_typeOf fun ty _ => ?_
    split
    · exact .fail
    · split
      · exact .fail
      · refine .bind (coerce_emits hv) fun converted => ?_
        exact insertAttr_emits rfl (by simp [hobject]) (by simp) nofun
  · exact .fail

theorem unpack_emits (hform : op.isForm = true) (hv : .held v ∈ Γ)
    (hreg : A → ∀ ty ∈ types, ty.Regular) : Emits A H quiet Γ (expand?.unpack span op v types)
      fun values => values.map .held := by
  intro ctx s values t hready hΓ hrun
  obtain ⟨_, builder, hsteps, hrun⟩ := build_run hrun
  obtain ⟨rfl, rfl⟩ := Build.insert_some hready.coherent hready.anchored hsteps
  obtain ⟨builder, hsteps, rfl⟩ := build_ok hrun
  obtain ⟨houts, rfl⟩ := Build.query_some.mp hsteps
  refine ⟨form_emission hform rfl rfl (held_inputs (by simp [hv]) hΓ) hreg number?_bare,
    .refl _ _, ?_⟩
  simp only [mem_map, forall_exists_index, and_imp, forall_apply_eq_imp_iff₂]
  intro w hw
  have hfresh : w ∈ s.graph.freshValues types.length := by
    rw [Graph.node?_place_fresh] at houts
    have heq : s.graph.freshValues types.length = values := Option.some.inj houts
    exact heq ▸ hw
  refine ⟨fun hin => ?_, (Graph.definedHere_place hready.coherent hready.anchored hfresh).defined⟩
  exact absurd (hready.known w hin) (Nat.not_lt.mpr (Graph.le_of_mem_freshValues hfresh))

theorem held_construction (hwf : WellFormed H s) (hv : Held H s v) {n : NodeId}
    {node : Node} (hprod : s.graph.producer? v = some (some n))
    (hn : s.graph.node? n = some node) (hop : node.op = .tupleConstruct) :
    ∀ w ∈ node.inputs, Held H s w := by
  intro w hw
  obtain ⟨value, hvalue, hprod⟩ := Option.bind_eq_some_iff.mp hprod
  obtain ⟨q, hwi, hhere⟩ := hv.2
  split at hprod
  next m slot horig =>
    obtain rfl : m = n := by simpa using hprod
    obtain ⟨made, hmade, hout⟩ := hhere.mem_outputs hwf.coherent hvalue horig
    cases hn.symm.trans hmade
    refine ⟨hwf.tidy.settled m node hn hop w hw, hv.2.through hwf.coherent hn hout ?_⟩
    exact fun b block hb hm => hwf.uses.inputs b block m node w hb hm hn hw
  next => cases hprod

theorem construction_emits (hv : .held v ∈ Γ) : Emits A H quiet Γ (build <| Build.query fun g => do
        match ← g.producer? v with
        | some n =>
          let node ← g.node? n
          some (if node.op = .tupleConstruct then some node.inputs else none)
        | none => some none)
      fun construction => construction.toList.flatMap fun elems => elems.map .held := by
  refine .ask fun ctx s construction t hrun => ?_
  obtain ⟨builder, hsteps, rfl⟩ := build_ok hrun
  obtain ⟨hquery, rfl⟩ := Build.query_some.mp hsteps
  refine ⟨rfl, fun hready hΓ => ?_⟩
  obtain ⟨producer, hprod, hquery⟩ := Option.bind_eq_some_iff.mp hquery
  cases producer with
  | none =>
    cases hquery
    simp
  | some n =>
    obtain ⟨node, hn, hquery⟩ := Option.bind_eq_some_iff.mp hquery
    cases hquery
    split
    next hop =>
      simpa using held_construction hready.toWellFormed (hΓ _ hv) hprod hn hop
    next => simp

theorem expand?_emits {expected : Option Nat} (h : ∀ fact ∈ entity.facts A, fact ∈ Γ) :
    Emits A H quiet Γ (expand? entity span expected)
      fun answer => answer.toList.flatMap fun elems => elems.map .held := by
  unfold expand?
  split
  next v =>
    have hv : .held v ∈ Γ := h _ (by simp [facts])
    refine .bind_typeOf fun ty hty => ?_
    split
    · refine .bind (construction_emits hv) fun construction => ?_
      split
      · exact .pure (by simp +contextual)
      · exact .bind (unpack_emits rfl (by simp [hv]) fun hA => (hty hA).elems_of_tuple)
          fun elems => .pure (by simp +contextual)
    · split
      · refine .bind (unpack_emits rfl hv fun hA elem helem => ?_)
          fun elems => .pure (by simp +contextual)
        exact (eq_of_mem_replicate helem) ▸ (hty hA).elem_of_list
      · exact .pure (by simp)
    · exact .pure (by simp)
  · exact .pure (by simp)

/-! ## Iterables -/

theorem getDM_emits {given : Option ValueId} {Θ : ValueId → List Fact}
    (hgiven : ∀ v, given = some v → ∀ fact ∈ Θ v, fact ∈ Γ) (haction : Emits A H quiet Γ action Θ) :
    Emits A H quiet Γ (given.getDM action) Θ := by
  cases given with
  | none => exact haction
  | some v => exact .pure (hgiven v rfl)

theorem rangeParts_emits {start step : Option ValueId} (hstart : ∀ v, start = some v → .held v ∈ Γ)
    (hstep : ∀ v, step = some v → .held v ∈ Γ) : Emits A H quiet Γ (rangeParts start step)
      fun parts => [.held parts.1, .held parts.2] := by
  have hint : ∀ {value : Int64} {Γ : List Fact}, Produces A H Γ (build (Build.int value)) :=
    int_emits.consequence (by simp)
  refine .bind (getDM_emits (by simpa using hstart) hint) fun first => ?_
  refine .bind (getDM_emits ?_ hint) fun next => .pure (by simp)
  simp +contextual [hstep]

theorem itemOfValue_emits (hv : .held v ∈ Γ) (hp : .held position ∈ Γ) :
    Produces A H Γ (itemOfValue v span position) := by
  refine .bind_typeOf fun ty _ => ?_
  split
  case h_1 | h_2 => exact primitive_emits (by simp [hv, hp])
  · split
    · exact .bind int_emits fun dim => primitive_emits (by simp [hv, hp])
    · exact .fail

theorem itemOfValue_refused (h : .refused (.value v) ∈ Γ) :
    Emits A H quiet Γ (itemOfValue v span position) fun _ => [.sure False] := by
  intro ctx s w t hready hΓ hrun
  obtain ⟨-, ty, hty, hindexable⟩ := hΓ _ h
  obtain ⟨found, hfd, hit⟩ := typeOf_run hrun
  cases hty.symm.trans hfd
  split at hit
  · cases hindexable
  · cases hindexable
  · split at hit
    next htensor =>
      have : ty.isIndexable = true := by cases ty <;> simp_all [Ty.isIndexable, Ty.isTensor]
      simp [this] at hindexable
    next => exact absurd hit fail_ok

mutual

theorem item_emits (entity : Entity) {Γ : List Fact}
    (h : ∀ fact ∈ entity.facts A, fact ∈ Γ) (hp : .held position ∈ Γ) :
    Produces A H Γ (item span position entity) := by
  unfold item
  split
  next v => exact itemOfValue_emits (h _ (by simp [facts])) hp
  next => exact .pure (by simp [hp])
  next start stop step _ =>
    refine .bind (rangeParts_emits ?_ ?_) fun parts => primitive_emits (by simp [hp])
    · exact fun v hv => h _ (by simp [facts, hv])
    · exact fun v hv => h _ (by simp [facts, hv])
  next items =>
    exact .bind (itemsAt_emits items (by simpa [facts] using h) hp) fun elems =>
      tuple_emits (by simp +contextual)
  next inner =>
    exact .bind (item_emits inner (by simpa [facts] using h) hp) fun elem =>
      tuple_emits (by simp [hp])
  next => exact .fail

theorem itemsAt_emits (entities : List Entity) {Γ : List Fact}
    (h : ∀ fact ∈ factsAll A entities, fact ∈ Γ) (hp : .held position ∈ Γ) :
    Emits A H quiet Γ (itemsAt span position entities) fun values => values.map .held := by
  match entities with
  | [] => exact .pure (by simp)
  | entity :: rest =>
    rw [factsAll, forall_mem_append] at h
    refine .bind (item_emits entity h.1 hp) fun elem => ?_
    refine .bind (itemsAt_emits rest (fun fact hφ => ?_) (by simp [hp])) fun elems =>
      .pure (by simp +contextual)
    simp [h.2 fact hφ]

end

mutual

theorem item_refused (entity : Entity) {Γ : List Fact}
    (h : ∀ fact ∈ entity.facts A, fact ∈ Γ) (hp : .held position ∈ Γ)
    (hrefused : .refused entity ∈ Γ) :
    Emits A H quiet Γ (item span position entity) fun _ => [.sure False] := by
  unfold item
  split
  next v => exact itemOfValue_refused hrefused
  case h_2 | h_3 => exact fun ctx s a t hready hΓ hrun => (hΓ _ hrefused).2.elim
  next items =>
    refine .bind (itemsAt_refused items (by simpa [facts] using h) hp hrefused) fun elems => ?_
    exact .of_sure (by simp) False.elim
  next inner =>
    refine .bind (.derive (.refused inner) (fun s hΓ => hΓ (.refused (.enumerate inner)) hrefused)
      (item_refused inner (fun fact hφ => ?_) (by simp [hp]) (.head _))) fun elem => ?_
    · exact .tail _ (h fact (by simpa [facts] using hφ))
    · exact .of_sure (by simp) False.elim
  next => exact .fail

theorem itemsAt_refused (entities : List Entity) {Γ : List Fact}
    (h : ∀ fact ∈ factsAll A entities, fact ∈ Γ) (hp : .held position ∈ Γ)
    (hrefused : .refused (.zip entities) ∈ Γ) :
    Emits A H quiet Γ (itemsAt span position entities) fun _ => [.sure False] := by
  match entities with
  | [] => exact fun ctx s a t hready hΓ hrun => (hΓ _ hrefused).2.elim
  | entity :: rest =>
    rw [factsAll, forall_mem_append] at h
    -- the first entity is refused, or one of those after it
    refine .derive (.either (.refused entity) (.refused (.zip rest))) (fun s hΓ => ?_) ?_
    · obtain ⟨hunhidden, hsome⟩ := hΓ _ hrefused
      exact hsome.imp (fun hfirst => ⟨fun v hv => hunhidden v (mem_append_left _ hv), hfirst⟩)
        fun hr => ⟨fun v hv => hunhidden v (mem_append_right _ hv), hr⟩
    · refine .cases (.head _) ?_ ?_
      · refine .bind (item_refused entity (fun fact hφ => ?_) (by simp [hp]) (by simp))
          fun elem => .of_sure (by simp) False.elim
        simp [h.1 fact hφ]
      · refine .bind (item_emits entity (fun fact hφ => ?_) (by simp [hp])) fun elem => ?_
        · simp [h.1 fact hφ]
        · refine .bind (itemsAt_refused rest (fun fact hφ => ?_) (by simp [hp]) (by simp))
            fun elems => .of_sure (by simp) False.elim
          simp [h.2 fact hφ]

end

/-- The number of elements of an entity is an int where its elements can be taken. -/
abbrev countFact (v : ValueId) (entity : Entity) : Fact :=
  .either (.settled v .int) (.refused entity)

theorem item_counted (trip : ValueId) (h : ∀ fact ∈ entity.facts A, fact ∈ Γ)
    (hp : .held position ∈ Γ) (hcount : countFact trip entity ∈ Γ) :
    Emits A H quiet Γ (item span position entity) fun v => [.settled trip .int, .held v] := by
  refine .cases hcount ?_ ?_
  · exact .keep (by simp) rfl
      (item_emits entity (fun fact hφ => by simp [h fact hφ]) (by simp [hp]))
  · exact (item_refused entity (fun fact hφ => by simp [h fact hφ]) (by simp [hp]) (by simp)).absurd

theorem Emits.counts (entity : Entity)
    (h : Emits A H quiet Γ action fun count => [.held count, .settled count .int]) :
    Emits A H quiet Γ action fun count => [.held count, countFact count entity] := by
  refine h.imply fun count s hafter => ?_
  rw [forall_mem_cons, forall_mem_singleton] at hafter ⊢
  exact ⟨hafter.1, Or.inl hafter.2⟩

theorem lengthOfValue_emits (hv : .held v ∈ Γ) : Emits A H quiet Γ (lengthOfValue v span)
      fun count => [.held count, countFact count (.value v)] := by
  have hlen : ∀ {Γ : List Fact}, .held v ∈ Γ → Emits A H quiet Γ
      (primitive .len [v] span) fun count => [.held count, .settled count .int] := by
    intro Γ hv
    refine primitive_settled _ (by simpa using hv) fun s args ty _ _ htyped hret => ?_
    obtain ⟨a, rfl⟩ : ∃ a, args = [a] := List.length_eq_one_iff.mp htyped.length_eq.symm
    exact Primitive.lenType?_eq hret
  refine .bind_typed hv fun ty hty => ?_
  split
  · exact int_emits.counts _
  case h_2 | h_3 | h_4 => exact (hlen (by simp [hv])).counts _
  · split
    next cls hcls =>
      refine (Emits.keep (show Fact.typed v ty ∈ _ by simp) rfl (callMethod_emits (fun hA =>
        (hty hA).class_of_classWith? hcls) (by simp [hv]) (by simp))).imply fun count s hafter => ?_
      rw [forall_mem_cons, forall_mem_singleton] at hafter ⊢
      obtain ⟨⟨hunhidden, htyped⟩, hheld⟩ := hafter
      refine ⟨hheld, Or.inr ⟨by simpa [values] using hunhidden, ty, htyped, ?_⟩⟩
      cases ty <;> simp_all [Ty.classWith?, Ty.asClass?, Ty.isIndexable, Ty.isTensor]
    next =>
      split
      · exact (hlen (by simp [hv])).counts _
      · exact .fail

theorem someRefused_iff {g : Graph} :
    SomeRefused g entities ↔ ∃ entity ∈ entities, entity.Refused g := by
  induction entities with
  | nil => simp [SomeRefused]
  | cons entity rest ih => simp [SomeRefused, ih]

theorem mem_factsAll (hmem : entity ∈ entities) {fact : Fact}
    (hφ : fact ∈ entity.facts A) : fact ∈ factsAll A entities := by
  induction entities with
  | nil => cases hmem
  | cons first rest ih =>
    rw [factsAll, mem_append]
    rcases List.mem_cons.mp hmem with rfl | hmem
    · exact Or.inl hφ
    · exact Or.inr (ih hmem)

theorem holds_refused_zip (hmem : entity ∈ entities)
    (hΓ : ∀ fact ∈ factsAll A entities, fact.Holds A H s)
    (h : (Fact.refused entity).Holds A H s) : (Fact.refused (.zip entities)).Holds A H s :=
  ⟨fun v hv => (((factsAll_hold_iff entities).mp hΓ).1 v hv).1,
    someRefused_iff.mpr ⟨entity, hmem, h.2⟩⟩

theorem min_settled (ha : .held a ∈ Γ) (hb : .held b ∈ Γ) (hinta : .settled a .int ∈ Γ)
    (hintb : .settled b .int ∈ Γ) : Emits A H quiet Γ (primitive .min [a, b] span)
      fun v => [.held v, .settled v .int] := by
  refine primitive_settled _ (by simp [ha, hb]) fun s args ty hA hΓ htyped hret => ?_
  obtain ⟨-, hta⟩ := hΓ _ hinta hA
  obtain ⟨-, htb⟩ := hΓ _ hintb hA
  cases htyped with
  | cons hfirst hr =>
    cases hr with
    | cons hsnd hnil =>
      cases hnil
      cases hta.symm.trans hfirst
      cases htb.symm.trans hsnd
      exact (Option.some.inj hret).symm

theorem min_counted (entity : Entity) (ha : .held a ∈ Γ) (hb : .held b ∈ Γ)
    (hcounta : countFact a entity ∈ Γ) (hcountb : countFact b entity ∈ Γ) :
    Emits A H quiet Γ (primitive .min [a, b] span) fun v => [.held v, countFact v entity] := by
  have hrefused : ∀ {Γ : List Fact}, .held a ∈ Γ → .held b ∈ Γ → .refused entity ∈ Γ →
      Emits A H quiet Γ (primitive .min [a, b] span) fun v => [.held v, countFact v entity] := by
    intro Γ ha hb hrefused
    refine (Emits.keep hrefused rfl (primitive_emits (by simp [ha, hb]))).imply fun v s hafter => ?_
    rw [forall_mem_cons, forall_mem_singleton] at hafter ⊢
    exact ⟨hafter.2, Or.inr hafter.1⟩
  refine .cases hcounta ?_ (hrefused (by simp [ha]) (by simp [hb]) (by simp))
  refine .cases (.tail _ hcountb) ?_ (hrefused (by simp [ha]) (by simp [hb]) (by simp))
  exact (min_settled (by simp [ha]) (by simp [hb]) (by simp) (by simp)).counts entity

mutual

theorem length_emits (entity : Entity) {Γ : List Fact} (h : ∀ fact ∈ entity.facts A, fact ∈ Γ) :
    Emits A H quiet Γ (length span entity) fun count => [.held count, countFact count entity] := by
  unfold length
  split
  next v => exact lengthOfValue_emits (h _ (by simp [facts]))
  next stop =>
    refine (Emits.pure (Δ := fun v => [.held v, .settled v .int]) ?_).counts _
    simp only [facts] at h
    simpa using h
  next start stop step _ =>
    refine .bind (rangeParts_emits ?_ ?_) fun parts => ?_
    · exact fun v hv => h _ (by simp [facts, hv])
    · exact fun v hv => h _ (by simp [facts, hv])
    · have hlen : Emits A H quiet ([.held parts.1, .held parts.2] ++ Γ)
          (primitive .rangeLength [parts.1, stop, parts.2] span)
          fun count => [.held count, .settled count .int] := by
        refine primitive_settled _ ?_ fun s args ty _ _ _ hret => ?_
        · simp [h (.held stop) (by simp [facts])]
        · exact (Primitive.given_eq_some_iff.mp hret).2.symm
      exact hlen.counts _
  next items =>
    refine .bind (shortest_emits none items items (by simp) (Subset.refl _)
      (by simpa [facts] using h)) fun count => ?_
    split
    · exact .pure (by simp)
    · exact .fail
  next inner =>
    refine (length_emits inner (by simpa [facts] using h)).imply fun count s hafter => ?_
    simpa [Fact.Holds, values, Refused] using hafter
  next => exact .fail

theorem shortest_emits (least : Option ValueId) (entities all : List Entity) {Γ : List Fact}
    (hleast : ∀ v, least = some v → .held v ∈ Γ ∧ countFact v (.zip all) ∈ Γ)
    (hsub : entities ⊆ all) (h : ∀ fact ∈ factsAll A all, fact ∈ Γ) :
    Emits A H quiet Γ (shortest span least entities)
      fun answer => answer.toList.flatMap fun v => [.held v, countFact v (.zip all)] := by
  match entities with
  | [] =>
    refine .pure ?_
    cases least with
    | none => simp
    | some v => simpa using hleast v rfl
  | entity :: rest =>
    have hfirst : ∀ fact ∈ entity.facts A, fact ∈ Γ := fun fact hφ =>
      h fact (mem_factsAll (hsub (.head _)) hφ)
    refine .bind (length_emits entity hfirst) fun count => ?_
    refine .derive (countFact count (.zip all)) (fun s hΓ => ?_) ?_
    · refine (hΓ (countFact count entity) (by simp)).imp id fun hrefused => ?_
      exact holds_refused_zip (hsub (.head _))
        (fun fact hφ => hΓ fact (by simp [h fact hφ])) hrefused
    have hr : rest ⊆ all := fun other hother => hsub (.tail _ hother)
    split
    next previous =>
      obtain ⟨hheld, hcount⟩ := hleast previous rfl
      refine .bind (min_counted (.zip all) (by simp [hheld]) (by simp) (by simp [hcount])
        (by simp)) fun least => ?_
      exact shortest_emits (some least) rest all (by simp) hr (by simp +contextual [h])
    next =>
      refine .bind (.pure (Δ := fun v => [.held v, countFact v (.zip all)]) (by simp))
        fun least => ?_
      exact shortest_emits (some least) rest all (by simp) hr (by simp +contextual [h])

end

theorem prepareIterable_emits (h : ∀ fact ∈ entity.facts A, fact ∈ Γ) :
    Denotes A H Γ (prepareIterable entity span) := by
  have hs : Denotes A H Γ (pure entity) :=
    .pure h
  unfold prepareIterable
  split
  next v =>
    refine .bind_typeOf fun ty _ => ?_
    split
    · refine .bind (primitive_emits ?_) fun keys => .pure (by simp [facts])
      simpa [facts] using h
    · exact hs
    · exact hs
    · split
      · exact hs
      · exact .fail
  · exact hs
  · exact hs
  · exact hs
  · exact .fail

theorem isTuple_emits : Acts A H quiet Γ (isTuple entity) := by
  unfold isTuple
  split
  · exact .bind_typeOf fun _ _ => .pure (by simp)
  · exact .pure (by simp)

end Flowgraph.Lower

/-! ## Parts of constructs -/

namespace Flowgraph

/-- What is known about the outcome of an expression: that of a test is a bool. -/
def Outcome.facts (A : Prop) (expr : Expr) (outcome : Outcome) : List Fact :=
  outcome.entity.facts A ++
    if expr.isTest then outcome.entity.values.map fun v => .settled v .bool else []

/-- The type that is expected of an expression is regular where those from outside are. -/
abbrev RegularHint (A : Prop) (hint : Option Ty) : Prop :=
  A → ∀ ty ∈ hint, ty.Regular

theorem regularHint_none (A : Prop) : RegularHint A none :=
  fun _ _ h => nomatch h

theorem regularHint_some {A : Prop} {ty : Ty} (h : A → ty.Regular) : RegularHint A (some ty) :=
  fun hA _ hty => Option.some.inj hty ▸ h hA

/-- Lowering the operand emits, and a call of `isinstance` gives a bool. -/
structure Operand.Sound (A : Prop) (operand : Operand) : Prop where
  lower : ∀ H Γ hint, RegularHint A hint →
    Lower.Emits A H quiet Γ (operand.lower hint) (Outcome.facts A operand.expr)
  verdict : ∀ H ctx s outcome t hint, Ready A H ctx s →
    Lower.isInstanceCall operand.expr ctx s = .ok (true, s) →
    operand.lower hint ctx s = .ok (outcome, t) →
    ∀ v ∈ outcome.entity.values, (Fact.settled v .bool).Holds A H t

def ItemForm.Sound (A : Prop) : ItemForm → Prop
  | .starred inner => inner.Sound A
  | .slice start stop step =>
    (∀ operand ∈ start, operand.Sound A) ∧ (∀ operand ∈ stop, operand.Sound A) ∧
      ∀ operand ∈ step, operand.Sound A
  | .plain | .ellipsis | .noneLiteral => True

structure Item.Sound (A : Prop) (item : Item) : Prop where
  operand : item.toOperand.Sound A
  form : item.form.Sound A

/-- Assigning to the target emits. -/
def Target.Sound (A : Prop) (target : Target) : Prop :=
  ∀ H Γ entity span, (∀ fact ∈ entity.facts A, fact ∈ Γ) →
    Lower.Acts A H loud Γ (target.assign entity span)

namespace Operand.Sound

variable {A : Prop} {H : List ValueId} {Γ : List Fact} {operand : Operand}

theorem entity (h : operand.Sound A) : Lower.Denotes A H Γ operand.entity :=
  .bind (h.lower H Γ none (regularHint_none A)) fun outcome =>
    .pure fun fact hφ => by simp [Outcome.facts, hφ]

theorem hinted (h : operand.Sound A) {hint : Option Ty} (hhint : RegularHint A hint) :
    Lower.Produces A H Γ (operand.value hint) :=
  .bind (h.lower H Γ hint hhint) fun outcome =>
    Lower.toValue_emits fun fact hφ => by simp [Outcome.facts, hφ]

theorem value (h : operand.Sound A) : Lower.Produces A H Γ (operand.value none) :=
  h.hinted (regularHint_none A)

end Operand.Sound

namespace Lower

variable {A : Prop} {H : List ValueId} {Γ : List Fact} {s : LowerState} {v lhs current : ValueId}
  {ty : Ty} {span : Span} {operand : Operand}

/-! ## Truth values -/

theorem asBool_emits (hv : .held v ∈ Γ) :
    Emits A H quiet Γ (asBool v span) fun v => [.held v, .settled v .bool] := by
  refine .bind_typed hv fun ty hty => ?_
  split
  · refine (Emits.pure (Δ := fun v => [.held v, .typed v .bool]) (by simp [hv])).imply
      fun v s hafter => ?_
    rw [List.forall_mem_cons, List.forall_mem_singleton] at hafter ⊢
    exact ⟨hafter.1, fun _ => hafter.2⟩
  · split
    · refine primitive_settled _ (by simp [hv]) fun s args ty _ _ htyped hret => ?_
      obtain ⟨a, rfl⟩ : ∃ a, args = [a] := List.length_eq_one_iff.mp htyped.length_eq.symm
      exact (Primitive.given_eq_some_iff.mp hret).2.symm
    · split
      next cls hcls =>
        exact callTruth_emits (fun hA => (hty hA).class_of_classWith? hcls) (by simp [hv]) (by simp)
      next => exact .fail

theorem knownBool?_emits : Acts A H quiet Γ (knownBool? v) :=
  .bind query_emits fun _ => .pure (by simp)

theorem truth_emits (h : operand.Sound A) :
    Emits A H quiet Γ operand.truth fun v => [.held v, .settled v .bool] :=
  .bind h.value fun _ => asBool_emits (by simp)

/-! ## Operators -/

theorem class_of_overload {methods : Option String} {method : String} {cls : Class} (h : ty.Regular)
    (hoverload : (methods.bind fun method => (ty.classWith? method).map fun cls => (method, cls)) =
      some (method, cls)) : Ty.Regular (.object cls) := by
  obtain ⟨found, -, hfd⟩ := Option.bind_eq_some_iff.mp hoverload
  obtain ⟨owner, hown, heq⟩ := Option.map_eq_some_iff.mp hfd
  obtain ⟨rfl, rfl⟩ := Prod.mk.inj heq
  exact h.class_of_classWith? hown

theorem applyBinary_emits (hlhs : .held lhs ∈ Γ) (hrhs : .held rhs ∈ Γ) :
    Produces A H Γ (applyBinary op lhs rhs span) := by
  refine .bind_typeOf fun ty hty => ?_
  split
  next method cls hoverload =>
    exact callMethod_emits (fun hA => class_of_overload (hty hA) hoverload) hlhs (by simp [hrhs])
  next =>
    split
    · exact primitive_emits (by simp [hlhs, hrhs])
    · exact .fail

theorem contains_emits {container elem : ValueId} (hcontainer : .held container ∈ Γ)
    (helem : .held elem ∈ Γ) : Produces A H Γ (contains container elem span) := by
  refine .bind_typeOf fun ty hty => ?_
  split
  next cls hcls =>
    exact callMethod_emits (fun hA => (hty hA).class_of_classWith? hcls) hcontainer
      (by simp [helem])
  next => exact primitive_emits (by simp [hcontainer, helem])

theorem binary_emits {lhs rhs : Operand} (hlhs : lhs.Sound A) (hrhs : rhs.Sound A) :
    Produces A H Γ (binary span op lhs rhs) := by
  refine .bind hlhs.value fun left => .bind hrhs.value fun right => ?_
  split
  · exact contains_emits (by simp) (by simp)
  · exact .bind (contains_emits (by simp) (by simp)) fun _ => primitive_emits (by simp)
  · exact applyBinary_emits (by simp) (by simp)

theorem unary_emits {op : UnaryOp} (h : operand.Sound A) :
    Produces A H Γ (unary span op operand) := by
  unfold unary
  split
  · exact literal_emits
  · refine .bind h.value fun v => .bind_typeOf fun ty hty => ?_
    split
    next method cls hoverload =>
      exact callMethod_emits (fun hA => class_of_overload (hty hA) hoverload) (by simp) (by simp)
    next => exact primitive_emits (by simp)

theorem inPlace?_emits : Acts A H quiet Γ (inPlace? v op) := by
  refine .bind_typeOf fun ty _ => ?_
  split <;> exact .pure (by simp)

theorem applyAugmented_emits (hcur : .held current ∈ Γ) (hrhs : .held rhs ∈ Γ) :
    Produces A H Γ (applyAugmented op current rhs span) := by
  refine .bind inPlace?_emits fun operation => ?_
  split
  · exact primitive_emits (by simp [hcur, hrhs])
  · refine .bind_typeOf fun ty hty => ?_
    split
    next method cls hoverload =>
      exact callMethod_emits (fun hA => class_of_overload (hty hA) hoverload)
        (by simp [hcur]) (by simp [hrhs])
    next => exact applyBinary_emits (by simp [hcur]) (by simp [hrhs])

end Lower

end Flowgraph
