import Flowgraph.Proofs.Lowering.Logic

/-!
# Building steps as emissions

What the steps of a builder do, when they succeed, in terms of `Graph.place` and of the other
updates; and the actions that consist of one such step.
-/

namespace Flowgraph

open Flowgraph.Graph List Option

namespace Graph

variable {node : Node} {α β : Type} {s t : LowerState} {b : BlockId} {a : Unit} {ctx : LowerContext}
  {types : List Ty} {key : String} {block : Block} {value : Literal}
variable {g g' : Graph} {p : InsertPoint}

theorem take_findIdx (nodes : List NodeId) (m : NodeId) :
    nodes.take (nodes.findIdx fun placed => placed = m) = nodes.takeWhile (· ≠ m) := by
  rw [takeWhile_eq_take_findIdx_not]
  congr 2
  funext placed
  simp

theorem drop_findIdx (nodes : List NodeId) (m : NodeId) :
    nodes.drop (nodes.findIdx fun placed => placed = m) = nodes.dropWhile (· ≠ m) := by
  rw [dropWhile_eq_drop_findIdx_not]
  congr 2
  funext placed
  simp

theorem createNode_eq (g : Graph) (op : Op) (inputs : List ValueId) (types : List Ty)
    (span : Span) : g.createNode op inputs types span =
      (g.freshNode, g.withNode { op, inputs, span } types) := rfl

theorem modifyNode_withNode {f : Node → Node} : (g.withNode node types).modifyNode g.freshNode f =
      some { g.withNode node types with
        nodes := g.nodes ++ [f { node with outputs := g.freshValues types.length }] } := by
  have hlook : (g.withNode node types).node? g.freshNode =
      some { node with outputs := g.freshValues types.length } := by
    simp [withNode, node?, freshNode]
  rw [modifyNode, hlook]
  simp [setNode, withNode, freshNode, bind]

theorem modifyBlock_some (h : g.block? b = some block) (f : Block → Block) :
    g.modifyBlock b f = some (g.mapBlock b f) := by
  have hm : g.modifyBlock b f = some (g.setBlock b (f block)) := by rw [modifyBlock, h]; rfl
  rw [hm, modifyBlock_eq_some hm]

theorem insertAt_withNode {position : Nat}
    (h : (g.withNode node types).insertAt b position g.freshNode = some g') : g' = g.attach b
      (fun nodes => nodes.take position ++ g.freshNode :: nodes.drop position) node types := by
  rw [insertAt, modifyNode_withNode] at h
  exact modifyBlock_eq_some h

theorem insertBefore_withNode (hc : g.Coherent) {m : NodeId} (hp : g.Anchored ⟨b, some m⟩) :
    (g.withNode node types).insertBefore m g.freshNode = some (g.place ⟨b, some m⟩ node types) := by
  obtain ⟨block, hb, hanchor⟩ := hp
  obtain ⟨anchor, hn, hown⟩ := hc.placed _ block m hb (hanchor m rfl)
  have hlook : (g.withNode node types).node? m = some anchor := by
    rw [← hn]
    exact getElem?_append_left (index_lt_of_node? hn)
  have hb' : (g.withNode node types).block? b = some block := hb
  rw [insertBefore, hlook]
  simp only [bind_eq_bind, bind_some, hown, hb', insertAt, modifyNode_withNode]
  refine (modifyBlock_some (g := { g.withNode node types with nodes := _ }) hb _).trans
    (congrArg some ?_)
  rw [place, attach, mapBlock]
  congr 1
  refine ext_getElem? fun i => ?_
  simp only [getElem?_modify]
  split
  next heq =>
    have hi : g.blocks[i]? = some block := heq ▸ hb
    simp only [withNode, hi, Option.map_eq_map, map_some]
    rw [take_findIdx, drop_findIdx]
    rfl
  next => rfl

theorem setAttr_place : (g.place p node types).setAttr g.freshNode key value =
      some (g.place p (node.setAttr key value) types) := by
  obtain ⟨g', h⟩ : ∃ g', (g.place p node types).setAttr g.freshNode key value = some g' := by
    simp [setAttr, modifyNode, place, node?_attach]
  rw [h, modifyNode_eq_some h, place, place, attach, attach, mapNode]
  congr 2
  simp only [freshNode]
  rw [modify_append_singleton]
  unfold NodeOf.setAttr
  split <;> rfl

theorem setAttr_withNode (h : (g.withNode node types).setAttr g.freshNode key value = some g') :
    g' = g.withNode (node.setAttr key value) types := by
  rw [setAttr, modifyNode_withNode] at h
  cases h
  unfold NodeOf.setAttr
  split <;> rfl

theorem output?_attach (g : Graph) (b : BlockId) (arrange : List NodeId → List NodeId)
    (node : Node) (ty : Ty) :
    (g.attach b arrange node [ty]).output? g.freshNode = some g.freshValue := by
  rw [output?, node?_attach, if_pos rfl]
  rfl

theorem output?_place (g : Graph) (p : InsertPoint) (node : Node) (ty : Ty) :
    (g.place p node [ty]).output? g.freshNode = some g.freshValue :=
  output?_attach ..

end Graph

namespace Build

variable {builder builder' : Builder} {n : NodeId} {v : ValueId} {op : Op} {inputs : List ValueId}
  {types : List Ty} {ty : Ty} {span : Span} {key : String} {value : Literal}

theorem bind_some {steps : Build α} {f : α → Build β} {b : β} :
    (steps >>= f) builder = some (b, builder') ↔
      ∃ a middle, steps builder = some (a, middle) ∧ f a middle = some (b, builder') := by
  show (Option.bind (steps builder) fun answer => f answer.1 answer.2) = _ ↔ _
  simp [bind_eq_some_iff]

theorem pure_some {a b : α} :
    (pure a : Build α) builder = some (b, builder') ↔ a = b ∧ builder = builder' := by
  show some (a, builder) = _ ↔ _
  simp

theorem query_some {question : Graph → Option α} {a : α} :
    query question builder = some (a, builder') ↔
      question builder.graph = some a ∧ builder = builder' := by
  show (Option.bind _ _) = _ ↔ _
  simp [bind_eq_some_iff]

theorem update_some {change : Graph → Option Graph} : update change builder = some (a, builder') ↔
      ∃ g, change builder.graph = some g ∧ { builder with graph := g } = builder' := by
  show (Option.bind _ _) = _ ↔ _
  simp [bind_eq_some_iff]

theorem create_some {change : Graph → Option (α × Graph)} {a : α} :
    create change builder = some (a, builder') ↔
      ∃ g, change builder.graph = some (a, g) ∧ { builder with graph := g } = builder' := by
  show (Option.bind _ _) = _ ↔ _
  simp [bind_eq_some_iff]

section Insert

variable (hc : builder.graph.Coherent) (hp : builder.graph.Anchored builder.point)
include hc hp

theorem insert_eq :
    insert op inputs types span builder = some (builder.graph.freshNode, { builder with
      graph := builder.graph.place builder.point { op, inputs, span } types }) := by
  refine bind_some.mpr ⟨_, _, create_some.mpr ⟨_, congrArg some (createNode_eq ..), rfl⟩,
    bind_some.mpr ⟨(), _, ?_, pure_some.mpr ⟨rfl, rfl⟩⟩⟩
  obtain ⟨g, ⟨b, before⟩, pool⟩ := builder
  cases before with
  | none =>
    obtain ⟨block, hb, -⟩ := hp
    refine bind_some.mpr ⟨_, _, rfl, update_some.mpr ⟨_, ?_, rfl⟩⟩
    rw [appendNode, modifyNode_withNode]
    exact modifyBlock_some (g := { g.withNode _ types with nodes := _ }) hb _
  | some m => exact bind_some.mpr ⟨_, _, rfl, update_some.mpr ⟨_, insertBefore_withNode hc hp, rfl⟩⟩

theorem insert_some (h : insert op inputs types span builder = some (n, builder')) :
    n = builder.graph.freshNode ∧ builder' = { builder with
      graph := builder.graph.place builder.point { op, inputs, span } types } := by
  cases (insert_eq hc hp).symm.trans h
  exact ⟨rfl, rfl⟩

theorem insertValue_some (h : insertValue op inputs ty span builder = some (v, builder')) :
    v = builder.graph.freshValue ∧ builder' = { builder with
      graph := builder.graph.place builder.point { op, inputs, span } [ty] } := by
  cases (bind_some.mpr ⟨_, _, insert_eq hc hp, query_some.mpr
    ⟨output?_place .., rfl⟩⟩).symm.trans h
  exact ⟨rfl, rfl⟩

theorem insertWith_eq : insertWith op inputs ty key value span builder =
    some (builder.graph.freshValue, { builder with
      graph := builder.graph.place builder.point { op, inputs, attrs := [(key, value)], span }
        [ty] }) :=
  bind_some.mpr ⟨_, _, insert_eq hc hp, bind_some.mpr ⟨(), _,
    update_some.mpr ⟨_, setAttr_place, rfl⟩, query_some.mpr ⟨output?_place .., rfl⟩⟩⟩

theorem insertWith_some (h : insertWith op inputs ty key value span builder = some (v, builder')) :
    v = builder.graph.freshValue ∧ builder' = { builder with
      graph := builder.graph.place builder.point { op, inputs, attrs := [(key, value)], span }
        [ty] } := by
  cases (insertWith_eq hc hp).symm.trans h
  exact ⟨rfl, rfl⟩

end Insert

theorem setAttr_some {g : Graph} {p : InsertPoint} (h : setAttr g.freshNode key value {
      builder with graph := g.place p node types } = some (a, builder')) :
    builder' = { builder with graph := g.place p (node.setAttr key value) types } := by
  obtain ⟨g', hset, rfl⟩ := update_some.mp h
  rw [Option.some.inj (setAttr_place.symm.trans hset)]

theorem pooled_some (h : pooled value ty builder = some (v, builder')) :
    ((value, v) ∈ builder.pool ∧ builder' = builder) ∨
      ((∀ entry ∈ builder.pool, entry.1 ≠ value) ∧ v = builder.graph.freshValue ∧
        builder' = { builder with
        graph := builder.graph.placeAtRoot builder.pool.length
          { op := .constant, inputs := [], attrs := [("value", value)] } [ty]
        pool := (value, builder.graph.freshValue) :: builder.pool }) := by
  obtain ⟨_, _, hget, h⟩ := bind_some.mp h
  cases hget
  cases hfind : builder.pool.find? fun entry => entry.1 = value with rw [hfind] at h
  | some entry =>
    obtain ⟨rfl, rfl⟩ := pure_some.mp h
    have hkey : entry.1 = value := by simpa using find?_some hfind
    exact Or.inl ⟨hkey ▸ mem_of_find?_eq_some hfind, rfl⟩
  | none =>
    refine Or.inr ⟨by simpa using find?_eq_none.mp hfind, ?_⟩
    obtain ⟨_, _, hcreate, h⟩ := bind_some.mp h
    obtain ⟨g, heq, rfl⟩ := create_some.mp hcreate
    rw [createNode_eq] at heq
    obtain ⟨rfl, rfl⟩ := Prod.mk.inj (Option.some.inj heq)
    obtain ⟨_, _, hset, h⟩ := bind_some.mp h
    obtain ⟨attributed, hattr, rfl⟩ := update_some.mp hset
    obtain rfl := setAttr_withNode hattr
    obtain ⟨_, _, hinsert, h⟩ := bind_some.mp h
    obtain ⟨placed, hpl, rfl⟩ := update_some.mp hinsert
    obtain rfl := insertAt_withNode hpl
    obtain ⟨_, _, hquery, h⟩ := bind_some.mp h
    obtain ⟨hout, rfl⟩ := query_some.mp hquery
    obtain ⟨_, _, hmodify, h⟩ := bind_some.mp h
    cases hmodify
    obtain ⟨rfl, rfl⟩ := pure_some.mp h
    obtain rfl := Option.some.inj (hout.symm.trans (output?_attach ..))
    exact ⟨rfl, rfl⟩

end Build

/-! ## Actions of one step -/

/-- The plain operations whose result is not given by a table of types. -/
def Op.isForm : Op → Bool
  | .primitive _ | .unwrap => false
  | op => op.isPlain

theorem Op.isPlain_of_isForm {op : Op} (h : op.isForm = true) : op.isPlain = true := by
  cases op <;> simp_all [Op.isForm, Op.isPlain]

theorem Graph.checked_of_isForm (g : Graph) {op : Op} (h : op.isForm = true)
    (inputs : List ValueId) (outputs : List Ty) : g.Checked op inputs outputs where
  primitive := by
    rintro primitive rfl
    cases h
  unwrap := by
    rintro rfl
    cases h

theorem Graph.Typed.exists_value {g : Graph} {values : List ValueId} {types : List Ty}
    (h : g.Typed values types) {ty : Ty} (hty : ty ∈ types) : ∃ v, g.typeOf? v = some ty := by
  induction h with
  | nil => cases hty
  | @cons v _ _ _ hv _ ih =>
    rcases mem_cons.mp hty with rfl | hty
    · exact ⟨v, hv⟩
    · exact ih hty

namespace Lower

variable {A : Prop} {H : List ValueId} {still : Prop} {Γ : List Fact} {op : Op}
  {inputs : List ValueId} {types args : List Ty} {ty : Ty} {span here : Span} {v : ValueId}
  {value : Literal} {Θ : β → List Fact} {f : Ty → Lower β} {key : String}

theorem held_fresh (h : WellFormed H s) : Held H (s.place node [ty]) s.graph.freshValue :=
  ⟨h.freshValue_not_mem,
    (definedHere_place h.coherent h.anchored (by simp [freshValues_one])).defined⟩

theorem typed_fresh (h : WellFormed H s) :
    (Fact.typed s.graph.freshValue ty).Holds A H (s.place node [ty]) :=
  ⟨h.freshValue_not_mem, typeOf?_place ..⟩

theorem held_inputs (hins : ∀ v ∈ inputs, .held v ∈ Γ)
    (hΓ : ∀ fact ∈ Γ, fact.Holds A H s) : ∀ v ∈ inputs, Held H s v :=
  fun v hv => hΓ _ (hins v hv)

theorem number?_bare : ({ op, inputs, span } : Node).number? = none := by
  simp [NodeOf.number?, NodeOf.attr?]

theorem number?_attr (h : op = .constant → value.numberType? = none) :
    ({ op, inputs, attrs := [(key, value)], span } : Node).number? = none := by
  by_cases hop : op = .constant
  · rw [NodeOf.number?, if_pos hop, NodeOf.attr?, lookup_cons]
    split <;> simp [h hop]
  · simp [NodeOf.number?, hop]

theorem form_emission (hform : node.op.isForm = true) (hbs : node.blocks = [])
    (hsub : node.subgraph = none) (hins : ∀ v ∈ node.inputs, Held H s v)
    (hreg : A → ∀ ty ∈ types, ty.Regular) (hnum : node.number? = none) :
    Emission A H s (s.place node types) :=
  .node types (Op.isPlain_of_isForm hform) hbs hsub hins
    (s.graph.checked_of_isForm hform _ _) hreg hnum

theorem insertChecked_emission (hready : Ready A H ctx s) (hplain : op.isPlain = true)
    (hins : ∀ v ∈ inputs, Held H s v) (hchecked : s.graph.Checked op inputs [ty])
    (hreg : A → ty.Regular)
    (hrun : build (Build.insertValue op inputs ty span) ctx s = .ok (v, t)) :
    Emission A H s t ∧ t.scope = s.scope ∧ Held H t v ∧ (Fact.typed v ty).Holds A H t := by
  obtain ⟨builder, hsteps, rfl⟩ := build_ok hrun
  obtain ⟨rfl, rfl⟩ := Build.insertValue_some hready.coherent hready.anchored hsteps
  exact ⟨.node [ty] hplain rfl rfl hins hchecked (by simpa using hreg) number?_bare, rfl,
    held_fresh hready.toWellFormed, typed_fresh hready.toWellFormed⟩

theorem insertValue_emits (hform : op.isForm = true) (hins : ∀ v ∈ inputs, .held v ∈ Γ)
    (hreg : A → ty.Regular) : Emits A H quiet Γ (build (Build.insertValue op inputs ty span))
      fun v => [.held v, .typed v ty] := by
  intro ctx s v t hready hΓ hrun
  obtain ⟨hemit, hsc, hheld, htyped⟩ := insertChecked_emission hready
    (Op.isPlain_of_isForm hform) (held_inputs hins hΓ) (s.graph.checked_of_isForm hform _ _)
    hreg hrun
  exact ⟨hemit, hsc ▸ .refl _ _, by simpa using ⟨hheld, htyped⟩⟩

theorem insertWith_emits (hform : op.isForm = true) (hins : ∀ v ∈ inputs, .held v ∈ Γ)
    (hreg : A → ty.Regular) (hnum : op = .constant → value.numberType? = none) :
    Emits A H quiet Γ (build (Build.insertWith op inputs ty key value span))
      fun v => [.held v, .typed v ty] := by
  intro ctx s v t hready hΓ hrun
  obtain ⟨builder, hsteps, rfl⟩ := build_ok hrun
  obtain ⟨rfl, rfl⟩ := Build.insertWith_some hready.coherent hready.anchored hsteps
  refine ⟨form_emission hform rfl rfl (held_inputs hins hΓ) (by simpa using hreg)
    (number?_attr hnum), .refl _ _, ?_⟩
  rw [forall_mem_cons, forall_mem_singleton]
  exact ⟨held_fresh hready.toWellFormed, typed_fresh hready.toWellFormed⟩

theorem insert_emits (hform : op.isForm = true) (hins : ∀ v ∈ inputs, .held v ∈ Γ)
    (hreg : A → ∀ ty ∈ types, ty.Regular) :
    Acts A H quiet Γ (build (Build.insert op inputs types span)) := by
  intro ctx s n t hready hΓ hrun
  obtain ⟨builder, hsteps, rfl⟩ := build_ok hrun
  obtain ⟨rfl, rfl⟩ := Build.insert_some hready.coherent hready.anchored hsteps
  exact ⟨form_emission hform rfl rfl (held_inputs hins hΓ) hreg number?_bare, .refl _ _, by simp⟩

theorem typeOf_ok (h : typeOf v ctx s = .ok (ty, t)) : s.graph.typeOf? v = some ty ∧ s = t := by
  obtain ⟨builder, hsteps, rfl⟩ := build_ok h
  obtain ⟨hty, rfl⟩ := Build.query_some.mp hsteps
  exact ⟨hty, rfl⟩

theorem typeOf_run {f : Ty → Lower α} {a : α} (h : (typeOf v >>= f) ctx s = .ok (a, t)) :
    ∃ ty, s.graph.typeOf? v = some ty ∧ f ty ctx s = .ok (a, t) := by
  obtain ⟨ty, _, htype, h⟩ := bind_ok h
  obtain ⟨hty, rfl⟩ := typeOf_ok htype
  exact ⟨ty, hty, h⟩

theorem insertPrimitive_emission {primitive : Primitive}
    (hready : Ready A H ctx s) (hins : ∀ v ∈ inputs, Held H s v)
    (htyped : s.graph.Typed inputs args) (hcheck : primitive.check args span = .ok ty)
    (hrun : build (Build.insertPrimitive primitive inputs ty here) ctx s = .ok (v, t)) :
    Emission A H s t ∧ t.scope = s.scope ∧ Held H t v ∧ (Fact.typed v ty).Holds A H t := by
  refine insertChecked_emission hready rfl hins ⟨fun operation heq => ?_, by simp⟩
    (fun hA => ?_) hrun
  · obtain rfl := Op.primitive.inj heq
    exact ⟨args, ty, htyped, rfl, (Primitive.resultType?_of_check hcheck).2⟩
  · refine Primitive.check_regular (fun arg harg => ?_) hcheck
    obtain ⟨v, hv⟩ := htyped.exists_value harg
    exact hready.typeOf? hv hA

theorem typeOf_emits (h : .held v ∈ Γ) : Emits A H quiet Γ (typeOf v)
      fun ty => [.typed v ty, .sure (A → ty.Regular)] := by
  refine .ask fun ctx s ty t hrun => ?_
  obtain ⟨hty, rfl⟩ := typeOf_ok hrun
  refine ⟨rfl, fun hready hΓ => ?_⟩
  rw [forall_mem_cons, forall_mem_singleton]
  exact ⟨⟨(hΓ _ h).1, hty⟩, hready.typeOf? hty⟩

theorem query_emits {question : Graph → Option α} :
    Acts A H quiet Γ (build (Build.query question)) := by
  refine .ask fun ctx s a t hrun => ?_
  obtain ⟨builder, hsteps, rfl⟩ := build_ok hrun
  obtain ⟨-, rfl⟩ := Build.query_some.mp hsteps
  exact ⟨rfl, fun _ _ => by simp⟩

theorem typeOf_emits' : Emits A H quiet Γ (typeOf v) fun ty => [.sure (A → ty.Regular)] := by
  refine .ask fun ctx s ty t hrun => ?_
  obtain ⟨hty, rfl⟩ := typeOf_ok hrun
  exact ⟨rfl, fun hready _ => by simpa using hready.typeOf? hty⟩

theorem Emits.bind_typeOf (hf : ∀ ty, (A → ty.Regular) → Emits A H still Γ (f ty) Θ) :
    Emits A H still Γ (typeOf v >>= f) Θ :=
  .bind_sure (Δ := fun _ => []) typeOf_emits' hf

theorem Emits.bind_typed (h : .held v ∈ Γ)
    (hf : ∀ ty, (A → ty.Regular) → Emits A H still (.typed v ty :: Γ) (f ty) Θ) :
    Emits A H still Γ (typeOf v >>= f) Θ :=
  .bind_sure (Δ := fun ty => [.typed v ty]) ((typeOf_emits h).consequence (by simp)) hf

theorem surfaceType_emits {expr : Expr} : Emits A H quiet Γ (surfaceType expr)
    fun ty => [.sure (A → ty.Regular)] := by
  refine .ask fun ctx s ty t hrun => ?_
  obtain ⟨_, _, hread, hrun⟩ := bind_ok hrun
  cases hread
  obtain ⟨hty, rfl⟩ := ofExcept_ok hrun
  refine ⟨rfl, fun hready _ => ?_⟩
  simpa using fun hA => (hready.context hA).host.surfaceClosed.surfaceType expr hty

theorem pooled_emits (hnum : value.numberType? = some ty) :
    Emits A H quiet Γ (build (Build.pooled value ty)) fun v => [.held v, .settled v ty] := by
  intro ctx s v t hready hΓ hrun
  obtain ⟨builder, hsteps, rfl⟩ := build_ok hrun
  rw [forall_mem_cons, forall_mem_singleton]
  have hfd : ∀ {t : LowerState}, Ready A H ctx t → (value, v) ∈ t.builder.pool →
      Held H t v ∧ (Fact.settled v ty).Holds A H t := by
    intro t ht he
    have hheld := ht.held_pooled he
    refine ⟨hheld, fun hA => ⟨hheld.1, ?_⟩⟩
    obtain ⟨found, hfd, hty⟩ := (ht.regular hA).numbers _ he
    cases hnum.symm.trans hfd
    exact hty
  rcases Build.pooled_some hsteps with ⟨he, rfl⟩ | ⟨hnew, rfl, rfl⟩
  · exact ⟨.refl H s, .refl _ _, hfd hready he⟩
  · have hemit : Emission A H s (s.pooled value ty) := .pooled H s hnum hnew
    exact ⟨hemit, .refl _ _, hfd (hemit.ready hready) (.head _)⟩

theorem int_emits {value : Int64} : Emits A H quiet Γ (build (Build.int value))
      fun v => [.held v, .settled v .int] :=
  pooled_emits rfl

theorem constant_emits (hreg : A → ty.Regular) (hnum : value.numberType? = none) :
    Emits A H quiet Γ (build (Build.constant value ty span)) fun v => [.held v, .typed v ty] :=
  insertWith_emits rfl (by simp) hreg fun _ => hnum

theorem bool_emits {value : Bool} : Emits A H quiet Γ (build (Build.bool value span))
      fun v => [.held v, .typed v .bool] :=
  constant_emits (fun _ => .bool) rfl

theorem none_emits (hreg : A → ty.Regular) : Produces A H Γ (build (Build.none ty span)) :=
  (constant_emits hreg rfl).consequence (by simp)

theorem str_emits {value : String} : Produces A H Γ (build (Build.str value span)) :=
  (constant_emits (fun _ => .str) rfl).consequence (by simp)

theorem literal_emits : Produces A H Γ (build (Build.literal value span)) := by
  cases value with
  | int _ | float _ => exact (pooled_emits rfl).consequence (by simp)
  | str _ => exact str_emits
  | bool _ => exact bool_emits.consequence (by simp)
  | nothing => exact none_emits fun _ => .nothing

end Lower

end Flowgraph
