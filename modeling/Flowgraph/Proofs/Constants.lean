import Flowgraph.Proofs.Numbers

/-!
# Constants in the making

While lowering runs, the pool knows the numbers that the graph has, and their types (`Stocked`).  A
number that is asked for is there afterwards, wherever it was made, and reads back as what it is.
Every emission keeps the pool so (`Stocked.of_emission`): it shows in what emissions build.
-/

namespace Flowgraph

open Build Flowgraph.Graph List

variable {A : Prop} {H : List ValueId} {s t : LowerState} {v : ValueId} {value : Literal}
  {i : Int64} {ctx : LowerContext} {ty : Ty} {builder : Builder}

/-- The value is the constant of a number. -/
def Graph.IsNumber (g : Graph) (v : ValueId) (value : Literal) : Prop :=
  ∃ n node, g.node? n = some node ∧ node.number? = some value ∧ v ∈ node.outputs

theorem Graph.IsNumber.constantOf? (h : builder.graph.IsNumber v value)
    (hc : builder.graph.Coherent) : constantOf? v builder = some (some value, builder) := by
  obtain ⟨n, node, hn, hnum, hv⟩ := h
  obtain ⟨made, slot, hmade, horigin⟩ := hc.output n node v hn hv
  simp only [NodeOf.number?, Option.ite_none_right_eq_some] at hnum
  have hattr := (Option.filter_eq_some_iff.mp hnum.2).1
  refine query_some.mpr ⟨?_, rfl⟩
  simp [producer?, hmade, horigin, hn, hnum.1, hattr]

/-! ## The pool -/

/-- The state is well formed, and its pool lists the numbers of the graph. -/
structure Tallied (H : List ValueId) (s : LowerState) : Prop extends WellFormed H s where
  numbered : ∃ ids, Numbered ids s.stock

/-- The numbers of the pool also have their types. -/
structure Stocked (H : List ValueId) (s : LowerState) : Prop extends Tallied H s where
  typed : ∀ entry ∈ s.builder.pool, s.graph.typeOf? entry.2 = entry.1.numberType?

theorem Graph.Numbered.isNumber {ids : List NodeId} {k : Stock} {entry : Literal × ValueId}
    (h : Numbered ids k) (he : entry ∈ k.2) : k.1.IsNumber entry.2 entry.1 := by
  obtain ⟨g, pool⟩ := k
  obtain ⟨hmade, -, -⟩ := h
  dsimp only at hmade he ⊢
  induction hmade with
  | nil => cases he
  | cons hfirst _ ih =>
    rcases mem_cons.mp he with rfl | he
    · exact ⟨_, hfirst⟩
    · exact ih he

namespace Tallied

theorem ready (h : Tallied H s) (ctx : LowerContext) : Ready False H ctx s :=
  ⟨h.toWellFormed, False.elim, False.elim⟩

theorem of_emission (h : Tallied H s) (hemit : Emission A H s t) : Tallied H t := by
  obtain ⟨ids, hids⟩ := h.numbered
  exact ⟨(hemit.sound h.toWellFormed).1, Numbered.of_builds (hemit.builds h.toWellFormed) hids⟩

/-- A number of the pool is there, whether it is made now or was before. -/
theorem isNumber_pooled (h : Tallied H s) (hnum : value.numberType? = some ty)
    (hrun : Lower.build (pooled value ty) ctx s = .ok (v, t)) :
    (value, v) ∈ t.builder.pool ∧ t.graph.IsNumber v value := by
  obtain ⟨builder, hsteps, rfl⟩ := Lower.build_ok hrun
  obtain ⟨ids, hids⟩ := h.numbered
  rcases pooled_some hsteps with ⟨he, rfl⟩ | ⟨hnew, rfl, rfl⟩
  · exact ⟨he, hids.isNumber he⟩
  · exact ⟨.head _, (hids.number hnum hnew).isNumber (.head _)⟩

end Tallied

/-- The numbers of the pool have their types in the graph. -/
def Graph.TypesPool (g : Graph) (pool : List (Literal × ValueId)) : Prop :=
  ∀ entry ∈ pool, ∃ ty, entry.1.numberType? = some ty ∧ g.typeOf? entry.2 = some ty

theorem Graph.TypesPool.mono {g g' : Graph} {pool : List (Literal × ValueId)} (h : g.TypesPool pool)
    (htypes : ∀ entry ∈ pool, ∀ ty, g.typeOf? entry.2 = some ty → g'.typeOf? entry.2 = some ty) :
    g'.TypesPool pool := fun entry he =>
  (h entry he).imp fun ty => .imp_right (htypes entry he ty)

/-- Building keeps the types of the pooled numbers: only values outside the pool are retyped. -/
theorem Graph.Builds.typesPool {k k' : Stock} (h : Builds k k') (hk : k.1.TypesPool k.2) :
    k'.1.TypesPool k'.2 := by
  induction h with
  | refl | block | input | result => exact hk
  | trans _ _ ih ih' => exact ih' (ih hk)
  | attach => exact hk.mono fun _ _ _ => typeOf?_of_types (types_attach ..)
  | @number k value ty hnum _ =>
    refine forall_mem_cons.mpr ⟨⟨ty, hnum, ?_⟩,
      hk.mono fun _ _ _ => typeOf?_of_types (types_attach ..)⟩
    rw [typeOf?_eq, placeAtRoot, types_attach]
    simp [freshValue, types]
  | output => exact hk.mono fun _ _ _ => typeOf?_of_types (types_withOutput ..)
  | param => exact hk.mono fun _ _ _ => typeOf?_of_types (types_withParam ..)
  | retype hv ty => exact hk.mono fun entry he _ => (typeOf?_retype_of_ne _ (hv entry he) ty).trans
  | named => exact hk.mono fun _ _ _ => (typeOf?_named ..).trans

theorem Stocked.of_emission (h : Stocked H s) (hemit : Emission A H s t) : Stocked H t := by
  have htyped : s.graph.TypesPool s.builder.pool := fun entry he => by
    obtain ⟨ty, hty⟩ := (h.held_pooled he).exists_type h.toWellFormed
    exact ⟨ty, h.typed entry he ▸ hty, hty⟩
  refine ⟨h.toTallied.of_emission hemit, fun entry he => ?_⟩
  obtain ⟨ty, hnum, hty⟩ := (hemit.builds h.toWellFormed).typesPool htyped entry he
  rw [hnum, hty]

theorem Build.exists_bind {α β : Type} {steps : Build α} {f : α → Build β} {a : α}
    {builder' : Builder}
    (hsteps : steps builder = some (a, builder')) (hf : ∃ b after, f a builder' = some (b, after)) :
    ∃ b after, (steps >>= f) builder = some (b, after) := by
  obtain ⟨b, after, hf⟩ := hf
  exact ⟨b, after, bind_some.mpr ⟨a, builder', hsteps, hf⟩⟩

theorem Build.exists_pooled {block : Block} (value : Literal) (ty : Ty)
    (hroot : builder.graph.block? root = some block) :
    ∃ v after, pooled value ty builder = some (v, after) := by
  refine Build.exists_bind rfl ?_
  cases builder.pool.find? fun entry => entry.1 = value with
  | some entry => exact ⟨entry.2, builder, rfl⟩
  | none =>
    -- The new node gets its value, and then its place among the constants of the root.
    obtain ⟨attributed, hattr⟩ : ∃ g, (builder.graph.withNode { op := .constant, inputs := [] }
        [ty]).setAttr builder.graph.freshNode "value" value = some g := ⟨_, modifyNode_withNode⟩
    obtain rfl := setAttr_withNode hattr
    obtain ⟨placed, hplaced⟩ : ∃ g, (builder.graph.withNode (NodeOf.setAttr
        { op := .constant, inputs := [] } "value" value) [ty]).insertAt root builder.pool.length
          builder.graph.freshNode = some g := by
      rw [insertAt, modifyNode_withNode]
      exact ⟨_, modifyBlock_some (g := { builder.graph.withNode _ [ty] with nodes := _ }) hroot _⟩
    obtain rfl := insertAt_withNode hplaced
    refine Build.exists_bind (create_some.mpr ⟨_, rfl, rfl⟩) ?_
    refine Build.exists_bind (a := ()) (update_some.mpr ⟨_, hattr, rfl⟩) ?_
    refine Build.exists_bind (a := ()) (update_some.mpr ⟨_, hplaced, rfl⟩) ?_
    refine Build.exists_bind (query_some.mpr ⟨output?_attach .., rfl⟩) ?_
    exact ⟨_, _, rfl⟩

/-- What holds after a number was asked for. -/
structure Supplied (H : List ValueId) (s : LowerState) (value : Literal) (v : ValueId)
    (t : LowerState) : Prop where
  emission : Emission False H s t
  stocked : Stocked H t
  scope : t.scope = s.scope
  held : Held H t v
  number : t.graph.IsNumber v value
  typed : t.graph.typeOf? v = value.numberType?

namespace Lower

theorem pooled_supplies (h : Stocked H s) (hnum : value.numberType? = some ty)
    (hrun : build (pooled value ty) ctx s = .ok (v, t)) : Supplied H s value v t := by
  obtain ⟨he, hnumber⟩ := h.isNumber_pooled hnum hrun
  obtain ⟨builder, hsteps, rfl⟩ := build_ok hrun
  rcases pooled_some hsteps with ⟨-, rfl⟩ | ⟨hnew, rfl, rfl⟩
  · exact ⟨.refl H s, h, rfl, h.held_pooled he, hnumber, h.typed _ he⟩
  · have hpooled := h.of_emission (.pooled (A := False) H s hnum hnew)
    exact ⟨.pooled H s hnum hnew, hpooled, rfl, hpooled.held_pooled he, hnumber, hpooled.typed _ he⟩

/-- A number can always be had. -/
theorem int_supplies (h : Stocked H s) (ctx : LowerContext) (i : Int64) :
    ∃ v t, build (int i) ctx s = .ok (v, t) ∧ Supplied H s (.int i) v t := by
  obtain ⟨block, _, _, hroot, -⟩ := h.pool
  obtain ⟨v, builder, hsteps⟩ := exists_pooled (.int i) .int hroot
  have hrun : build (int i) ctx s = _ := build_eq_ok hsteps
  exact ⟨v, _, hrun, pooled_supplies h rfl hrun⟩

end Lower

/-- The body of a function with parameters starts with all of them stored. -/
theorem stocked_declareAll (body : BodyContext) (decls : List ParamDecl) :
    Stocked [] ((LowerState.start body).declareAll root decls) := by
  have hpool : ∀ s : LowerState, (s.declareAll root decls).builder.pool = s.builder.pool := by
    induction decls with
    | nil => exact fun _ => rfl
    | cons decl rest ih => exact fun s => ih _
  refine ⟨⟨(Lower.wellFormed_declareAll (wellFormed_start body) rfl decls).1, ?_⟩,
    fun entry he => ?_⟩
  · exact Numbered.of_builds (LowerState.builds_declareAll Nat.zero_lt_one decls) .empty
  · rw [hpool] at he
    cases he

end Flowgraph
