import Flowgraph.Proofs.Lowering.Values

/-!
# Containers

Subscripts, literals of lists, tuples and dicts, and assignments to several targets or to the items
of a container.
-/

namespace Flowgraph.Lower

open Build Entity Flowgraph.Fact List

variable {items : List Item} {hint joined : Option Ty} {item : Item} {what : String}
  {types : List Ty} {tuple tensor : ValueId} {seenEllipsis : Bool}
  {entries : List (Operand × Operand)} {bound start stop step : Option Operand}
  {base operand : Operand} {targets : List Target} {ctx : LowerContext}
variable {A : Prop} {H elems : List ValueId} {Γ : List Fact} {v : ValueId} {ty : Ty} {span : Span}

/-! ## Subscripts -/

def IndexEntry.values : IndexEntry → List ValueId
  | .select v | .tensor v => [v]
  | .ellipsis | .slice .. | .newAxis => []

def IndexEntry.Sound (A : Prop) : IndexEntry → Prop
  | .slice start stop step => (ItemForm.slice start stop step).Sound A
  | .ellipsis | .select _ | .newAxis | .tensor _ => True

theorem indexEntry_emits (h : item.Sound A) : Emits A H quiet Γ (indexEntry seenEllipsis item)
      fun entry => .sure (entry.Sound A) :: entry.values.map .held := by
  unfold indexEntry
  split
  · split
    · exact .fail
    · exact .pure_sure trivial (by simp [IndexEntry.values])
  next start stop step hform =>
    refine .pure_sure ?_ (by simp [IndexEntry.values])
    have hsound := h.form
    rwa [hform] at hsound
  · exact .pure_sure trivial (by simp [IndexEntry.values])
  · refine .bind h.operand.value fun v => .bind typeOf_emits' fun ty => ?_
    split
    · exact .pure_sure trivial (by simp [IndexEntry.values])
    · split
      · exact .pure_sure trivial (by simp [IndexEntry.values])
      · exact .fail

theorem indexEntries_emits (h : ∀ item ∈ items, item.Sound A) :
    Emits A H quiet Γ (indexEntries seenEllipsis items) fun entries => entries.flatMap fun entry =>
        .sure (entry.Sound A) :: entry.values.map .held := by
  induction items generalizing Γ seenEllipsis with
  | nil => exact .pure (by simp)
  | cons item rest ih =>
    refine .bind (indexEntry_emits (h item (.head _))) fun entry => ?_
    refine .bind (ih fun item hit => h item (.tail _ hit)) fun entries => ?_
    refine .pure ?_
    rw [flatMap_cons]
    intro fact hφ
    rw [← append_assoc]
    refine mem_append_left Γ ?_
    exact (mem_append.mp hφ).elim (mem_append_right _) (mem_append_left _)

theorem refuseTensorAfterEllipsis_emits {entries : List IndexEntry} :
    Acts A H quiet Γ (refuseTensorAfterEllipsis items entries) := by
  unfold refuseTensorAfterEllipsis
  dsimp only
  split
  · exact .fail
  · exact .pure (by simp)

theorem sliceBound_emits {default : Int64} (h : ∀ operand ∈ bound, operand.Sound A) :
    Produces A H Γ (sliceBound bound default) := by
  unfold sliceBound
  split
  next operand =>
    refine .bind ((h operand rfl).hinted (regularHint_some fun _ => .int)) fun v => ?_
    exact (coerce_emits (by simp)).consequence (by simp)
  next => exact int_emits.consequence (by simp)

theorem sliceBounds_emits (h : (ItemForm.slice start stop step).Sound A) :
    Emits A H quiet Γ (sliceBounds start stop step) fun bounds => bounds.map .held := by
  refine .bind (sliceBound_emits h.1) fun _ => .bind (sliceBound_emits h.2.1) fun _ => ?_
  exact .bind (sliceBound_emits h.2.2) fun _ => .pure (by simp)

def Sliced.values (sliced : Sliced) : List ValueId :=
  sliced.tensor :: sliced.positions.map Prod.snd

theorem applyEntry_emits {sliced : Sliced} {entry : IndexEntry} {axis : Int}
    (hsliced : ∀ v ∈ sliced.values, .held v ∈ Γ) (he : ∀ v ∈ entry.values, .held v ∈ Γ)
    (hsound : .sure (entry.Sound A) ∈ Γ) : Emits A H quiet Γ (applyEntry span sliced entry axis)
      fun sliced => sliced.values.map .held := by
  obtain ⟨htensor, hpositions⟩ := forall_mem_cons.mp hsliced
  -- a new tensor takes the place of the old one, the positions stay
  have hmoved : ∀ v Γ', .held v ∈ Γ' → Γ ⊆ Γ' →
      Emits A H quiet Γ' (pure { sliced with tensor := v })
        fun sliced => sliced.values.map .held := by
    refine fun v Γ' hv hsub => .pure ?_
    rw [forall_mem_map]
    exact forall_mem_cons.mpr ⟨hv, fun w hw => hsub (hpositions w hw)⟩
  unfold applyEntry
  split
  · exact .pure (forall_mem_map.mpr hsliced)
  next position =>
    have hposition : .held position ∈ Γ := he position (by simp [IndexEntry.values])
    refine .bind int_emits fun dim => ?_
    refine .bind (primitive_emits (by simp [htensor, hposition])) fun v => ?_
    exact hmoved v _ (by simp) fun fact hφ => by simp [hφ]
  next start stop step =>
    refine .of_sure hsound fun hslice => ?_
    refine .bind (sliceBounds_emits hslice) fun bounds => .bind int_emits fun dim => ?_
    refine .bind (primitive_emits (by simp +contextual [htensor])) fun v => ?_
    exact hmoved v _ (by simp) fun fact hφ => by simp [hφ]
  · refine .bind int_emits fun dim => ?_
    refine .bind (primitive_emits (by simp [htensor])) fun v => ?_
    exact hmoved v _ (by simp) fun fact hφ => by simp [hφ]
  next tensors =>
    have htensors : .held tensors ∈ Γ := he tensors (by simp [IndexEntry.values])
    refine .pure (forall_mem_map.mpr ?_)
    simp only [Sliced.values, map_append, ← cons_append, forall_mem_append]
    exact ⟨hsliced, by simpa using htensors⟩

theorem decompose_emits (htensor : .held tensor ∈ Γ) (hitems : ∀ item ∈ items, item.Sound A) :
    Emits A H quiet Γ (decompose tensor items span) fun sliced => sliced.values.map .held := by
  refine .bind (indexEntries_emits hitems) fun entries => ?_
  refine .bind refuseTensorAfterEllipsis_emits fun _ => ?_
  refine .foldlM (by simp [Sliced.values, htensor]) fun sliced pair hpair => ?_
  have he : pair.1 ∈ entries := (of_mem_zip hpair).1
  refine applyEntry_emits (fun v hv => ?_) (fun v hv => ?_) ?_
  · exact mem_append_left _ (mem_map_of_mem hv)
  · simp only [nil_append, mem_append, mem_flatMap, mem_cons, mem_map]
    exact Or.inr (Or.inl ⟨pair.1, he, Or.inr ⟨v, hv, rfl⟩⟩)
  · simp only [nil_append, mem_append, mem_flatMap, mem_cons, mem_map]
    exact Or.inr (Or.inl ⟨pair.1, he, Or.inl rfl⟩)

theorem positionList_emits {positions : List (Int × ValueId)}
    (h : ∀ v ∈ positions.map Prod.snd, .held v ∈ Γ) :
    Produces A H Γ (positionList positions span) := by
  refine .bind (.mapM (Θ := fun v => [.held v]) fun axis _ => ?_) fun elems => ?_
  · split
    next position hfd =>
      have hin : position ∈ positions := mem_of_find?_eq_some hfd
      exact .pure (by simpa using h position.2 (mem_map_of_mem hin))
    next => exact none_emits fun _ => .orNone .tensor
  · refine (insertValue_emits rfl (fun v hv => ?_) fun _ => .list (.orNone .tensor)).consequence
      (by simp)
    simp [hv]

theorem tensorSubscript_emits (htensor : .held tensor ∈ Γ) (hitems : ∀ item ∈ items, item.Sound A) :
    Produces A H Γ (tensorSubscript tensor items span) := by
  refine .bind (decompose_emits htensor hitems) fun sliced => ?_
  split
  · exact .pure (by simp [Sliced.values])
  · refine .bind (positionList_emits fun v hv => ?_) fun list =>
      primitive_emits (by simp [Sliced.values])
    exact mem_append_left Γ (mem_map_of_mem (.tail _ hv))

theorem constantIndex_emits (h : operand.Sound A) :
    Acts A H quiet Γ (constantIndex operand what) := by
  refine .bind h.value fun v => .bind typeOf_emits' fun ty => .bind query_emits fun constant => ?_
  split
  · exact .pure (by simp)
  · exact .fail

theorem tupleBound_emits {length : Nat} {default : Nat} (h : ∀ operand ∈ bound, operand.Sound A) :
    Acts A H quiet Γ (tupleBound length bound default) := by
  unfold tupleBound
  split
  next operand => exact .bind (constantIndex_emits (h operand rfl)) fun _ => .pure (by simp)
  next => exact .pure (by simp)

section

variable (htuple : .held tuple ∈ Γ) (htypes : A → ∀ ty ∈ types, ty.Regular)
include htuple htypes

theorem tupleSlice_emits (h : (ItemForm.slice start stop step).Sound A) :
    Produces A H Γ (tupleSlice tuple types item start stop step span) := by
  unfold tupleSlice
  dsimp only
  split
  · exact .fail_bind
  · refine .bind (tupleBound_emits h.1) fun first => ?_
    refine .bind (tupleBound_emits h.2.1) fun last => ?_
    intro ctx s v t hready hΓ hrun
    obtain ⟨_, builder, hsteps, hrun⟩ := build_run hrun
    obtain ⟨rfl, rfl⟩ := insert_some hready.coherent hready.anchored hsteps
    obtain ⟨_, builder, hsteps, hrun⟩ := build_run hrun
    obtain rfl := setAttr_some hsteps
    obtain ⟨_, builder, hsteps, hrun⟩ := build_run hrun
    obtain rfl := setAttr_some hsteps
    obtain ⟨builder, hsteps, rfl⟩ := build_ok hrun
    obtain ⟨hout, rfl⟩ := query_some.mp hsteps
    obtain rfl := Option.some.inj (hout.symm.trans (Graph.output?_place ..))
    have hins : ∀ w ∈ [tuple], Held H s w := held_inputs (by simp [htuple]) hΓ
    refine ⟨form_emission rfl rfl rfl hins (fun hA => ?_) rfl, .refl _ _,
      forall_mem_singleton.mpr (held_fresh hready.toWellFormed)⟩
    exact forall_mem_singleton.mpr (.tuple fun ty hty =>
      htypes hA ty (mem_of_mem_take (mem_of_mem_drop hty)))

theorem tupleItem_emits (h : item.Sound A) : Produces A H Γ (tupleItem tuple types item span) := by
  refine .bind (constantIndex_emits h.operand) fun position => ?_
  dsimp only
  split
  next ty hty =>
    refine (insertWith_emits rfl (by simp [htuple]) (fun hA => ?_) (by nofun)).consequence (by simp)
    split at hty
    · cases hty
    · exact htypes hA ty (mem_of_getElem? hty)
  next => exact .fail

theorem tupleSubscript_emits (h : item.Sound A) :
    Produces A H Γ (tupleSubscript tuple types item span) := by
  unfold tupleSubscript
  split
  next hform => exact tupleSlice_emits htuple htypes (hform ▸ h.form)
  next => exact tupleItem_emits htuple htypes h

end

theorem singleIndex_emits (h : ∀ item ∈ items, item.Sound A) :
    Emits A H quiet Γ (singleIndex items span what) fun item => [.sure (item.Sound A)] := by
  unfold singleIndex
  split
  next item => exact .pure_sure (h item (by simp)) (by simp)
  next => exact .fail

theorem sequenceSubscript_emits (hv : .held v ∈ Γ) (h : item.Sound A) :
    Produces A H Γ (sequenceSubscript v item span) := by
  unfold sequenceSubscript
  split
  next hform =>
    exact .bind (sliceBounds_emits (hform ▸ h.form)) fun bounds =>
      primitive_emits (by simp +contextual [hv])
  next => exact .bind h.operand.value fun position => primitive_emits (by simp [hv])

theorem subscript_emits (hbase : base.Sound A) (hitems : ∀ item ∈ items, item.Sound A) :
    Produces A H Γ (subscript span base items) := by
  refine .bind hbase.entity fun entity => ?_
  split
  next v =>
    refine .bind_typeOf fun ty hty => ?_
    split
    case h_1 | h_2 => exact tensorSubscript_emits (by simp [facts]) hitems
    · refine .bind_sure (singleIndex_emits hitems) fun item hit => ?_
      exact tupleSubscript_emits (by simp [facts]) (fun hA => (hty hA).elems_of_tuple) hit
    case h_4 | h_5 =>
      refine .bind_sure (singleIndex_emits hitems) fun item hit => ?_
      exact sequenceSubscript_emits (by simp [facts]) hit
    · refine .bind_sure (singleIndex_emits hitems) fun item hit => ?_
      refine .bind (hit.operand.hinted (regularHint_some fun hA =>
        (hty hA).key_of_dict)) fun key => ?_
      refine .bind (coerce_emits (by simp)) fun converted => ?_
      exact primitive_emits (by simp [facts])
    · split
      next cls hcls =>
        refine .bind_sure (singleIndex_emits hitems) fun item hit => ?_
        refine .bind hit.operand.value fun position => ?_
        exact callMethod_emits (fun hA => (hty hA).class_of_classWith? hcls)
          (by simp [facts]) (by simp)
      next => exact .fail
  next => exact .fail

/-! ## Literals of containers -/

theorem element_emits (h : item.Sound A) (hhint : RegularHint A hint) :
    Emits A H quiet Γ (element hint item) fun values => values.map .held := by
  unfold element
  split
  next inner hform =>
    have hin : inner.Sound A := by
      have hsound := h.form
      rwa [hform] at hsound
    refine .bind hin.entity fun entity => ?_
    refine .bind (expand?_emits (by simp +contextual)) fun elems => ?_
    split
    · exact .pure (by simp +contextual)
    · exact .bind describe_emits fun _ => .fail
  next => exact .bind (h.operand.hinted hhint) fun v => .pure (by simp)

theorem elements_emits (h : ∀ item ∈ items, item.Sound A) (hhint : RegularHint A hint) :
    Emits A H quiet Γ (elements hint items) fun values => values.map .held := by
  refine .bind (.mapM fun item hit => element_emits (h item hit) hhint) fun values => .pure ?_
  simp only [mem_map, mem_flatten, mem_append, mem_flatMap]
  rintro fact ⟨v, ⟨some, hsome, hv⟩, rfl⟩
  exact Or.inl ⟨some, hsome, v, hv, rfl⟩

theorem commonType?_emits {values : List ValueId} : Emits A H quiet Γ (commonType? what span values)
      fun joined => [.sure (RegularHint A joined)] := by
  refine .derive (.sure (RegularHint A none)) (fun _ _ => regularHint_none A) ?_
  refine (Emits.foldlM (Θ := fun joined => [.sure (RegularHint A joined)]) (by simp)
    fun joined v _ => ?_)
  refine .bind_typeOf fun ty hty => .of_sure
    (show sure (RegularHint A joined) ∈ _ by simp) fun hjoined => ?_
  split
  · exact .pure_sure (regularHint_some hty) (by simp)
  next previous =>
    split
    next found hfd =>
      exact .pure_sure (regularHint_some fun hA =>
        .join _ _ (hjoined hA previous rfl) (hty hA) hfd) (by simp)
    next => exact .fail

theorem commonType?_some {s t : LowerState} {previous : Ty} {values : List ValueId}
    (htyped : s.graph.Typed values types)
    (hrun : values.foldlM (joinType what span) (some previous) ctx s = .ok (joined, t)) :
    types.foldlM Ty.join previous = joined ∧ joined.isSome := by
  induction htyped generalizing previous with
  | nil =>
    obtain ⟨rfl, -⟩ := pure_ok hrun
    exact ⟨rfl, rfl⟩
  | @cons v ty _ _ hv _ ih =>
    obtain ⟨_, _, hstep, hrun⟩ := bind_ok hrun
    obtain ⟨found, hfd, hstep⟩ := typeOf_run hstep
    obtain rfl : ty = found := Option.some.inj (hv.symm.trans hfd)
    cases hj : Ty.join previous ty with simp only [hj] at hstep
    | none => cases hstep
    | some both =>
      obtain ⟨rfl, rfl⟩ := pure_ok hstep
      rw [foldlM_cons, hj]
      exact ih hrun

/-- The common type of some values is the join of their types. -/
theorem commonType?_eq {s t : LowerState} {values : List ValueId} {first : Ty}
    (htyped : s.graph.Typed values (first :: types))
    (hrun : commonType? what span values ctx s = .ok (joined, t)) :
    types.foldlM Ty.join first = joined ∧ joined.isSome := by
  cases htyped with
  | cons hv hr =>
    obtain ⟨_, _, hstep, hrun⟩ := bind_ok hrun
    obtain ⟨ty, hty, hstep⟩ := typeOf_run hstep
    cases hv.symm.trans hty
    obtain ⟨rfl, rfl⟩ := pure_ok hstep
    exact commonType?_some hr hrun

theorem unified_emits {values : List ValueId} {default : Ty} {role : Role}
    (h : ∀ v ∈ values, .held v ∈ Γ) (hhint : RegularHint A hint) (hdefault : default.Regular) :
    Emits A H quiet Γ (unified values hint default what role span)
      fun answer => .sure (A → answer.2.Regular) :: answer.1.map .held := by
  unfold unified
  split
  next ty =>
    refine .bind (.mapM (Θ := fun v => [.held v, .fits v ty]) fun v hv => coerce_emits (h v hv))
      fun converted => .pure_sure (fun hA => hhint hA ty rfl) ?_
    simp +contextual
  next =>
    refine .bind_sure commonType?_emits fun joined hjoined =>
      .pure_sure (fun hA => ?_) (by simpa using h)
    cases joined with
    | none => exact hdefault
    | some ty => exact hjoined hA ty rfl

theorem regularHint_element (h : RegularHint A hint) : RegularHint A (elementHint? hint) := by
  unfold elementHint?
  split
  next elem => exact regularHint_some fun hA => (h hA _ rfl).elem_of_list
  next => exact regularHint_none A

theorem listLiteral_emits (h : ∀ item ∈ items, item.Sound A) (hhint : RegularHint A hint) :
    Produces A H Γ (listLiteral span items hint) := by
  refine .bind (elements_emits h (regularHint_element hhint)) fun values => ?_
  refine .bind_sure (unified_emits (by simp +contextual) (regularHint_element hhint) .tensor)
    fun answer hanswer => ?_
  exact (insertValue_emits rfl (by simp +contextual) fun hA =>
    .list (hanswer hA)).consequence (by simp)

theorem hintedElements_emits (h : ∀ item ∈ items, item.Sound A)
    (htypes : A → ∀ ty ∈ types, ty.Regular) :
    Emits A H quiet Γ (hintedElements items types) fun values => values.map .held := by
  induction items generalizing Γ types with
  | nil => exact .pure (by simp)
  | cons item rest ih =>
    cases types with
    | nil => exact .pure (by simp)
    | cons ty types =>
      refine .bind ((h item (.head _)).operand.hinted (regularHint_some fun hA =>
        htypes hA ty (.head _))) fun v => ?_
      refine .bind (tryConvert_emits ty (by simp)) fun converted => ?_
      refine .bind (ih (fun item hit => h item (.tail _ hit)) fun hA ty
        hty => htypes hA ty (.tail _ hty)) fun values => ?_
      exact .pure (by simp +contextual)

theorem tupleLiteral_emits (h : ∀ item ∈ items, item.Sound A) (hhint : RegularHint A hint) :
    Produces A H Γ (tupleLiteral span items hint) := by
  unfold tupleLiteral
  have hplain : Emits A H quiet Γ (elements none items) fun values => values.map .held :=
    elements_emits h (regularHint_none A)
  split
  next types =>
    split
    · exact .bind (hintedElements_emits h fun hA => (hhint hA _ rfl).elems_of_tuple)
        fun values => tuple_emits (by simp +contextual)
    · exact .bind hplain fun values => tuple_emits (by simp +contextual)
  next => exact .bind hplain fun values => tuple_emits (by simp +contextual)

theorem dictEntries_emits {keyHint valueHint : Option Ty}
    (h : ∀ entry ∈ entries, entry.1.Sound A ∧ entry.2.Sound A)
    (hkeyHint : RegularHint A keyHint) (hvalueHint : RegularHint A valueHint) :
    Emits A H quiet Γ (dictEntries keyHint valueHint entries)
      fun answer => (answer.1 ++ answer.2).map .held := by
  induction entries generalizing Γ with
  | nil => exact .pure (by simp)
  | cons entry rest ih =>
    obtain ⟨hkey, hvalue⟩ := h entry (.head _)
    refine .bind (hkey.hinted hkeyHint) fun key => .bind (hvalue.hinted hvalueHint) fun value => ?_
    refine .bind (ih fun entry he => h entry (.tail _ he)) fun answer => ?_
    refine .pure (forall_mem_map.mpr fun v hv => ?_)
    simp only [mem_append, mem_cons] at hv
    simp only [mem_append, mem_map, held.injEq, exists_eq_right, mem_cons]
    grind

theorem dictLiteral_emits (h : ∀ entry ∈ entries, entry.1.Sound A ∧ entry.2.Sound A)
    (hhint : RegularHint A hint) : Produces A H Γ (dictLiteral span entries hint) := by
  unfold dictLiteral
  split
  next keyHint valueHint hhints =>
    obtain ⟨hkeyHint, hvalueHint⟩ : RegularHint A keyHint ∧ RegularHint A valueHint := by
      split at hhints
      · obtain ⟨rfl, rfl⟩ := Prod.mk.inj hhints
        exact ⟨regularHint_some fun hA => (hhint hA _ rfl).key_of_dict,
          regularHint_some fun hA => (hhint hA _ rfl).value_of_dict⟩
      · obtain ⟨rfl, rfl⟩ := Prod.mk.inj hhints
        exact ⟨regularHint_none A, regularHint_none A⟩
    refine .bind (dictEntries_emits h hkeyHint hvalueHint) fun answer => ?_
    refine .bind_sure (unified_emits (by simp +contextual) hkeyHint .str) fun keys hkeys => ?_
    refine .bind_sure (unified_emits (by simp +contextual) hvalueHint .tensor) fun values hvs => ?_
    dsimp only
    split
    · exact .fail_bind
    · refine (insertValue_emits rfl (fun v hv => ?_) fun hA =>
        .dict (hkeys hA) (hvs hA)).consequence (by simp)
      obtain ⟨pair, hpair, hv⟩ := mem_flatMap.mp hv
      have hzip := of_mem_zip (show (pair.1, pair.2) ∈ keys.1.zip values.1 from hpair)
      simp only [mem_cons, not_mem_nil, or_false] at hv
      simp only [mem_append, mem_map, held.injEq, exists_eq_right]
      grind

/-! ## Targets -/

theorem validateTargets_emits {targets : List Expr} :
    Acts A H quiet Γ (validateTargets targets span) := by
  unfold validateTargets
  dsimp only
  split
  · exact .fail_bind
  · split
    · exact .fail
    · exact .pure (by simp)

theorem distribute_emits
    (htgts : ∀ target ∈ targets, target.Sound A) (helems : ∀ v ∈ elems, .held v ∈ Γ) :
    Acts A H loud Γ (distribute span targets elems) := by
  induction targets generalizing Γ elems with
  | nil => exact .pure (by simp)
  | cons target rest ih =>
    have htgt := htgts target (.head _)
    have hr := fun target htgt => htgts target (.tail _ htgt)
    unfold distribute
    split
    · have hpacked : Produces A H Γ (tuple (elems.take (elems.length - rest.length)) span) :=
        tuple_emits fun v hv => helems v (mem_of_mem_take hv)
      refine .bind hpacked fun packed => ?_
      refine .bind_loud (htgt H _ (.value packed) span (by simp [facts]))
        fun _ => ih hr fun v hv => ?_
      simp [helems v (mem_of_mem_drop hv), isLasting]
    · cases elems with
      | nil => exact .pure (by simp)
      | cons elem elems =>
        have helem : .held elem ∈ Γ := helems elem (.head _)
        refine .bind_loud (htgt H _ (.value elem) span (by simp [facts, helem]))
          fun _ => ih hr fun v hv => ?_
        simp [helems v (.tail _ hv), isLasting]

theorem destructure_emits {entity : Entity} (htgts : ∀ target ∈ targets, target.Sound A)
    (h : ∀ fact ∈ entity.facts A, fact ∈ Γ) :
    Acts A H loud Γ (destructure targets entity span) := by
  unfold destructure
  dsimp only
  refine .bind (expand?_emits h) fun answer => ?_
  split
  · exact .bind describe_emits fun _ => .fail
  next elems =>
    generalize (if targets.any Target.starred = true then targets.length - 1
      else targets.length) = needed
    split
    · split <;> exact .fail_bind
    · split
      · exact .fail_bind
      · exact distribute_emits htgts (by simp +contextual)

/-! ## Items of containers -/

theorem assignItem_emits (hbase : base.Sound A) (hitems : ∀ item ∈ items, item.Sound A)
    (hv : .held v ∈ Γ) : Acts A H quiet Γ (assignItem base items v span) := by
  refine .bind hbase.entity fun entity => ?_
  split
  next container =>
    refine .bind_typeOf fun ty hty => ?_
    split
    iterate 2
      refine .bind (decompose_emits (by simp [facts]) hitems) fun sliced => ?_
      refine .bind (coerce_emits (by simp [hv])) fun converted => ?_
      split
      · exact .bind (primitive_emits (by simp [Sliced.values])) fun _ => .pure (by simp)
      · refine .bind (positionList_emits fun w hw => ?_) fun list => ?_
        · refine mem_append_right _ (mem_append_left _ (mem_map_of_mem ?_))
          exact .tail _ hw
        · exact .bind (primitive_emits (by simp [Sliced.values])) fun _ => .pure (by simp)
    · refine .bind_sure (singleIndex_emits hitems) fun item hit => ?_
      dsimp only
      split
      · exact .fail_bind
      · refine .bind hit.operand.value fun position => ?_
        refine .bind (coerce_emits (by simp [hv])) fun converted => ?_
        exact .bind (primitive_emits (by simp [facts])) fun _ => .pure (by simp)
    · refine .bind_sure (singleIndex_emits hitems) fun item hit => ?_
      refine .bind (hit.operand.hinted (regularHint_some fun hA =>
        (hty hA).key_of_dict)) fun key => .bind (coerce_emits (by simp)) fun position => ?_
      refine .bind (coerce_emits (by simp [hv])) fun converted => ?_
      exact .bind (primitive_emits (by simp [facts])) fun _ => .pure (by simp)
    · split
      next cls hcls =>
        refine .bind_sure (singleIndex_emits hitems) fun item hit => ?_
        refine .bind hit.operand.value fun position => ?_
        exact .bind (callMethod_emits (fun hA => (hty hA).class_of_classWith? hcls)
          (by simp [facts]) (by simp [hv])) fun _ => .pure (by simp)
      next => exact .fail
  next => exact .fail

end Flowgraph.Lower
