import Flowgraph.Proofs.Lowering.Calls
import Flowgraph.Proofs.Lowering.Loops

/-!
# Expressions

Lowering an expression emits, binds nothing and answers what is held; assigning to one emits.  The
proof follows the tree: each form is its combinator, applied to parts that are sound.  The
combinators were verified before, whatever their parts are, so that a case of `operand_sound` names
the lemma of its combinator and gets the parts from the recursion.
-/

namespace Flowgraph

open List Outcome

variable {items : List Item} {value expr target base type candidate : Expr} {op : BinaryOp}
  {callee operand : Operand} {keywords : List Ident} {entity : Entity}
  {lower : Option Ty → Lower Outcome} {here : Span}

namespace Lower

variable {A : Prop} {H : List ValueId} {Γ : List Fact} {v : ValueId} {ty : Ty}
  {span : Span} {name : String}

/-! ## Call expressions -/

theorem argument_emits {item : Item} (h : item.Sound A) : Emits A H quiet Γ (argument item)
      fun entities => entities.flatMap (Entity.facts A) := by
  unfold argument
  split
  next inner hform =>
    have hin : inner.Sound A := by
      have hsound := h.form
      rwa [hform] at hsound
    refine .bind hin.entity fun entity => ?_
    refine .bind (expand?_emits (by simp +contextual)) fun elems => ?_
    split
    · exact .pure (by simp +contextual [Entity.facts])
    · exact .bind describe_emits fun _ => .fail
  next => exact .bind h.operand.entity fun entity => .pure (by simp +contextual)

theorem arguments_emits (h : ∀ item ∈ items, item.Sound A) : Emits A H quiet Γ (arguments items)
      fun entities => entities.flatMap (Entity.facts A) := by
  refine .bind (.mapM fun item hit => argument_emits (h item hit)) fun groups => .pure ?_
  simp only [mem_flatMap, mem_flatten, mem_append]
  rintro fact ⟨entity, ⟨group, hgroup, hent⟩, hφ⟩
  exact Or.inl ⟨group, hgroup, entity, hent, hφ⟩

theorem twoArguments_emits {callee : String} (h : ∀ item ∈ items, item.Sound A) :
    Emits A H quiet Γ (twoArguments callee span items)
      fun pair => [.sure (pair.1.Sound A ∧ pair.2.Sound A)] := by
  unfold twoArguments
  split
  next first second => exact .pure_sure ⟨h first (by simp), h second (by simp)⟩ (by simp)
  next => exact .fail

theorem callGetAttr_emits (h : ∀ item ∈ items, item.Sound A) :
    Denotes A H Γ (callGetAttr span items) := by
  refine .bind_sure (twoArguments_emits h) fun pair hpair => ?_
  dsimp only
  split
  · exact .bind hpair.1.operand.entity fun entity => getAttribute_emits (by simp +contextual)
  · exact .fail

theorem isInstance_emits : Acts A H quiet Γ (isInstance ty candidate span) := by
  unfold isInstance
  split
  iterate 6 exact .pure (by simp)
  refine .bind surfaceType_emits fun target => ?_
  dsimp only
  split
  · split
    · exact .fail_bind
    · exact .pure (by simp)
  · exact .bind (.pure (Δ := fun _ => []) (by simp)) fun _ => .pure (by simp)

theorem callIsInstance_emits (h : ∀ item ∈ items, item.Sound A) :
    Emits A H quiet Γ (callIsInstance span items) fun v => [.held v, .typed v .bool] := by
  refine .bind_sure (twoArguments_emits h) fun pair hpair => ?_
  refine .bind hpair.1.operand.value fun v => .bind typeOf_emits' fun ty => ?_
  exact .bind (.mapM fun _ _ => isInstance_emits) fun verdicts => bool_emits

theorem callAnnotate_emits (h : ∀ item ∈ items, item.Sound A) :
    Produces A H Γ (callAnnotate span items) := by
  refine .bind_sure (twoArguments_emits h) fun pair hpair => ?_
  refine .bind_sure surfaceType_emits fun ty hty => ?_
  refine .bind (hpair.2.operand.hinted (regularHint_some hty)) fun v => ?_
  exact (coerce_emits (by simp)).consequence (by simp)

theorem callExpression_emits (hcal : callee.Sound A) (h : ∀ item ∈ items, item.Sound A) :
    Denotes A H Γ (callExpression span callee items keywords) := by
  unfold callExpression
  dsimp only
  split
  · exact .fail_bind
  · refine .bind preludeCallee?_emits fun entry => ?_
    split
    · exact callGetAttr_emits h
    · exact .bind (callIsInstance_emits h) fun v => .pure (by simp [Entity.facts])
    · exact .bind (callAnnotate_emits h) fun v => .pure (by simp [Entity.facts])
    · refine .bind hcal.entity fun entity => .bind (arguments_emits h) fun args => ?_
      refine call_emits entity args (by simp +contextual) fun arg harg fact hφ => ?_
      exact mem_append_left _ (mem_flatMap.mpr ⟨arg, harg, hφ⟩)

theorem callExpression_verdict {ctx : LowerContext} {s t : LowerState}
    (h : ∀ item ∈ items, item.Sound A) (hready : Ready A H ctx s)
    (hcal : preludeCallee? callee.expr ctx s = .ok (some .isInstance, s))
    (hrun : callExpression span callee items keywords ctx s = .ok (entity, t)) :
    ∀ v ∈ entity.values, (Fact.settled v .bool).Holds A H t := by
  unfold callExpression at hrun
  cases keywords with
  | cons keyword rest =>
    obtain ⟨_, _, hfail, -⟩ := bind_ok hrun
    exact absurd hfail fail_ok
  | nil =>
    obtain ⟨entry, u, he, hrun⟩ := bind_ok hrun
    obtain ⟨rfl, rfl⟩ : some .isInstance = entry ∧ s = u := by
      simpa using hcal.symm.trans he
    obtain ⟨v, hcall, rfl⟩ := map_ok hrun
    obtain ⟨-, -, hafter⟩ := (callIsInstance_emits (Γ := []) h).apply hready (by simp) hcall
    exact forall_mem_singleton.mpr fun _ => hafter (.typed v .bool) (by simp)

/-! ## Forms -/

theorem constantExpr_emits {value : Literal} {hint : Option Ty} (hhint : RegularHint A hint) :
    Produces A H Γ (constant span value hint) := by
  unfold constant
  split
  · exact none_emits fun hA => hhint hA _ rfl
  · exact literal_emits

theorem outcome_emits {action : Lower ValueId} (h : Produces A H Γ action) :
    Emits A H quiet Γ (outcome action) fun outcome => outcome.entity.facts A :=
  .bind h fun v => .pure (by simp [ofValue, Entity.facts])

theorem facts_of_not_isTest (A : Prop) (h : expr.isTest = false) :
    Outcome.facts A expr = fun outcome => outcome.entity.facts A := by
  funext outcome
  rw [Outcome.facts, h]
  exact append_nil _

theorem binaryForm_emits {lhs rhs : Operand} (hlhs : lhs.Sound A) (hrhs : rhs.Sound A) :
    Emits A H quiet Γ (binaryForm span op lhs rhs)
      (Outcome.facts A (.binary span op lhs.expr rhs.expr)) := by
  cases op with
  | and | or => exact shortCircuit_emits hlhs hrhs
  | is | isNot => exact identity_emits hlhs hrhs
  | _ =>
    rw [facts_of_not_isTest A rfl]
    exact outcome_emits (binary_emits hlhs hrhs)

theorem unaryForm_emits {op : UnaryOp} (h : operand.Sound A) :
    Emits A H quiet Γ (unaryForm span op operand)
      (Outcome.facts A (.unary span op operand.expr)) := by
  cases op with
  | not => exact negation_emits h
  | _ =>
    rw [facts_of_not_isTest A rfl]
    exact outcome_emits (unary_emits h)

theorem operand_of_emits (hlower : ∀ H Γ hint, RegularHint A hint → Emits A
      H quiet Γ (lower hint) (Outcome.facts A expr))
    (hcall : ∀ ctx s t, ¬isInstanceCall expr ctx s = .ok (true, t)) :
    Operand.Sound A ⟨expr, lower⟩ :=
  ⟨hlower, fun _ ctx s _ _ _ _ hinstance => absurd hinstance (hcall ctx s s)⟩

theorem operand_of_entity (htest : expr.isTest = false) (hlower : ∀ H Γ hint, RegularHint
      A hint → Emits A H quiet Γ (lower hint) fun outcome => outcome.entity.facts
      A) (hcall : ∀ ctx s t, ¬isInstanceCall expr ctx s = .ok (true, t)) :
    Operand.Sound A ⟨expr, lower⟩ :=
  operand_of_emits (fun H Γ hint hhint => facts_of_not_isTest A htest ▸ hlower H Γ hint hhint) hcall

end Lower

/-! ## The tree -/

namespace Expr

open Lower

variable {A : Prop}

mutual

theorem operand_sound (expr : Expr) : Operand.Sound A ⟨expr, expr.lower⟩ := by
  -- forms that are no tests, then those that may be one; a call may be an `isinstance`, and its
  -- case starts afresh
  cases expr with
    first
      | refine operand_of_entity rfl (fun H Γ hint hhint => ?_) (fun _ _ _ h => by cases h)
        rw [lower]
      | refine operand_of_emits (fun H Γ hint hhint => ?_) (fun _ _ _ h => by cases h)
        rw [lower]
      | skip
  | var span name => exact .bind lookup_emits fun entity => .pure (by simp +contextual)
  | const span value => exact outcome_emits (constantExpr_emits hhint)
  | binary span op lhs rhs => exact binaryForm_emits (operand_sound lhs) (operand_sound rhs)
  | unary span op operand => exact unaryForm_emits (operand_sound operand)
  | ternary span cond body orelse =>
    exact outcome_emits (ternary_emits (operand_sound cond)
      (operand_sound body) (operand_sound orelse) hhint)
  | subscript span base indices =>
    exact outcome_emits (subscript_emits (operand_sound base) (items_sound indices))
  | slice | ellipsis | starred => exact .fail
  | call span callee args keywords =>
    have hargs := items_sound args
    refine ⟨fun H Γ hint _ => ?_, fun H ctx s outcome t hint hready hinstance hrun => ?_⟩
    · rw [facts_of_not_isTest A rfl]
      show Emits _ _ _ _ (lower _ hint) _
      rw [lower]
      exact .bind (callExpression_emits (operand_sound callee) hargs) fun entity =>
        .pure (by simp +contextual)
    · change lower _ hint ctx s = _ at hrun
      rw [lower] at hrun
      obtain ⟨entity, hcall, rfl⟩ := map_ok hrun
      obtain ⟨-, hcal⟩ := isInstanceCall_ok hinstance
      obtain ⟨_, _, _, _, heq, hcal⟩ := hcal rfl
      obtain ⟨rfl, rfl, rfl, rfl⟩ := call.inj heq
      exact callExpression_verdict hargs hready hcal hcall
  | «attribute» span base attr =>
    refine .bind ((operand_sound base).lower H Γ none (regularHint_none A)) fun object => ?_
    exact .bind (getAttribute_emits (by simp +contextual [Outcome.facts])) fun entity =>
      .pure (by simp +contextual)
  | list span elems => exact outcome_emits (listLiteral_emits (items_sound elems) hhint)
  | tuple span elems => exact outcome_emits (tupleLiteral_emits (items_sound elems) hhint)
  | dict span entries => exact outcome_emits (dictLiteral_emits (entries_sound entries) hhint)
  | listComp span elem target iter =>
    exact outcome_emits (comprehension_emits (operand_sound elem)
      (assign_sound target) (operand_sound iter) hhint)

theorem itemForm_sound (expr : Expr) : expr.itemForm.Sound A := by
  cases expr with
  | starred span inner =>
    rw [itemForm]
    exact operand_sound inner
  | slice span start stop step =>
    rw [itemForm]
    exact ⟨operand?_sound start, operand?_sound stop, operand?_sound step⟩
  | const span value => cases value <;> trivial
  | _ => trivial

theorem operand?_sound (expr : Option Expr) : ∀ operand ∈ operand? expr, operand.Sound A := by
  cases expr with
  | none => simp [operand?]
  | some expr =>
    rintro operand hopd
    obtain rfl : Operand.mk expr expr.lower = operand := Option.some.inj hopd
    exact operand_sound expr

theorem items_sound (exprs : List Expr) : ∀ item ∈ Expr.items exprs, item.Sound A := by
  cases exprs with
  | nil => simp [Expr.items]
  | cons expr rest =>
    rw [Expr.items, forall_mem_cons]
    exact ⟨⟨operand_sound expr, itemForm_sound expr⟩, items_sound rest⟩

theorem entries_sound (entries : List (Expr × Expr)) :
    ∀ entry ∈ Expr.entries entries, entry.1.Sound A ∧ entry.2.Sound A := by
  match entries with
  | [] => simp [Expr.entries]
  | (key, value) :: rest =>
    rw [Expr.entries, forall_mem_cons]
    exact ⟨⟨operand_sound key, operand_sound value⟩, entries_sound rest⟩

theorem assign_sound (target : Expr) {starred : Bool} :
    Target.Sound A ⟨starred, target.assign⟩ := by
  intro H Γ entity span hent
  show Emits _ _ _ _ (target.assign entity span) _
  cases target with simp only [assign]
  | var here name => exact bindName_emits (by simp) hent
  | tuple here elems | list here elems =>
    exact .bind validateTargets_emits fun _ =>
      destructure_emits (targets_sound elems) hent
  | subscript here base indices =>
    refine .bind (toValue_emits hent) fun v => .of_quiet ?_
    exact assignItem_emits (operand_sound base) (items_sound indices) (by simp)
  | «attribute» here base attr =>
    refine .bind ((operand_sound base).lower H Γ none (regularHint_none A)) fun object => ?_
    refine .bind (toValue_emits fun fact hφ => ?_) fun v => .of_quiet ?_
    · exact mem_append_right _ (hent fact hφ)
    · exact setAttribute_emits (by simp +contextual [Outcome.facts]) (by simp)
  | _ => exact .fail

theorem targets_sound (exprs : List Expr) : ∀ target ∈ targets exprs, target.Sound A := by
  match exprs with
  | [] => simp [targets]
  | target :: rest =>
    cases target with
    | starred span inner =>
      rw [targets, forall_mem_cons]
      exact ⟨assign_sound inner, targets_sound rest⟩
    | _ =>
      simp only [targets, forall_mem_cons]
      exact ⟨assign_sound _, targets_sound rest⟩

end

end Expr

/-! ## Assignments -/

namespace Lower

variable {A : Prop} {H : List ValueId} {Γ : List Fact} {span : Span} {name attr : String}

theorem assignDeclared_emits : Acts A H loud Γ (assignDeclared target type value span) := by
  unfold assignDeclared
  split
  next => exact .fail
  next name hname =>
    refine .bind_sure surfaceType_emits fun ty hty => ?_
    refine .bind ((Expr.operand_sound value).hinted (regularHint_some hty)) fun v => ?_
    refine .bind typeOf_emits' fun found => .bind (convert?_emits (by simp)) fun converted => ?_
    split
    next converted => exact bindName_emits (by simpa using hty) (by simp [Entity.facts])
    next => exact .fail

theorem assignPlain_emits : Acts A H loud Γ (assignPlain target value span) := by
  have hent {Γ : List Fact} : Denotes A H Γ value.entity := (Expr.operand_sound value).entity
  unfold assignPlain
  split
  case h_1 here elems | h_2 here elems =>
    exact .bind validateTargets_emits fun _ => .bind hent fun entity =>
      destructure_emits (Expr.targets_sound elems) (by simp +contextual)
  next => exact .fail
  next here base indices =>
    refine .bind (Expr.operand_sound value).value fun v => .of_quiet ?_
    exact assignItem_emits (Expr.operand_sound base) (Expr.items_sound indices) (by simp)
  next =>
    have hsound : Target.Sound A ⟨false, target.assign⟩ := Expr.assign_sound target
    exact .bind hent fun entity => hsound H _ entity span (by simp +contextual)

theorem assign_emits {type value : Option Expr} :
    Acts A H loud Γ (assign target type value span) := by
  unfold assign
  split
  next => exact .fail
  next => exact assignDeclared_emits
  next => exact assignPlain_emits

theorem assignTargets_emits {targets : List Expr} (h : ∀ fact ∈ entity.facts A, fact ∈ Γ) :
    Acts A H loud Γ (assignTargets targets entity span) := by
  unfold assignTargets
  split
  next target =>
    have hsound : Target.Sound A ⟨false, target.assign⟩ :=
      Expr.assign_sound target
    exact hsound H Γ entity span h
  next =>
    exact .bind validateTargets_emits fun _ =>
      destructure_emits (Expr.targets_sound targets) h

/-! ### Augmented assignments -/

theorem augmentName_emits : Acts A H loud Γ (augmentName name here op value span) := by
  refine .bind lookup_emits fun entity => .bind (toValue_emits (by simp +contextual)) fun v => ?_
  refine .bind (Expr.operand_sound value).value fun rhs => ?_
  refine .bind (applyAugmented_emits (by simp) (by simp)) fun result => ?_
  exact bindName_emits (by simp) (by simp [Entity.facts])

theorem augmentAttribute_emits :
    Acts A H quiet Γ (augmentAttribute base attr here op value span) := by
  refine .bind (Expr.operand_sound base).entity fun object => ?_
  refine .bind (getAttribute_emits (by simp +contextual)) fun entity => ?_
  refine .bind (toValue_emits (by simp +contextual)) fun current => ?_
  refine .bind (Expr.operand_sound value).value fun rhs => ?_
  refine .bind inPlace?_emits fun operation => ?_
  split
  · exact .bind (primitive_emits (by simp)) fun _ => .pure (by simp)
  · refine .bind (applyBinary_emits (by simp) (by simp)) fun result => ?_
    exact setAttribute_emits (by simp +contextual) (by simp)

theorem augmentTensor_emits {tensor : ValueId} (htensor : .held tensor ∈ Γ)
    (hitems : ∀ item ∈ items, item.Sound A) :
    Acts A H quiet Γ (augmentTensor tensor items op value span) := by
  refine .bind (decompose_emits htensor hitems) fun sliced => ?_
  refine .bind (Expr.operand_sound value).value fun rhs => ?_
  split
  · refine .bind inPlace?_emits fun operation => ?_
    split
    · exact .bind (primitive_emits (by simp [Sliced.values])) fun _ => .pure (by simp)
    · refine .bind (applyBinary_emits (by simp [Sliced.values]) (by simp)) fun result => ?_
      refine .bind (coerce_emits (by simp)) fun result => ?_
      exact .bind (primitive_emits (by simp [Sliced.values])) fun _ => .pure (by simp)
  · refine .bind (positionList_emits (by simp +contextual [Sliced.values])) fun list => ?_
    refine .bind (primitive_emits (by simp [Sliced.values])) fun current => ?_
    refine .bind (applyBinary_emits (by simp) (by simp)) fun result => ?_
    refine .bind (coerce_emits (by simp)) fun result => ?_
    exact .bind (primitive_emits (by simp [Sliced.values])) fun _ => .pure (by simp)

theorem augmentContainer_emits {container : ValueId} {key elem : Ty}
    (hcontainer : .held container ∈ Γ) (hkey : A → key.Regular)
    (hitems : ∀ item ∈ items, item.Sound A) :
    Acts A H quiet Γ (augmentContainer container key elem items op value span) := by
  refine .bind_sure (singleIndex_emits hitems) fun item hit => ?_
  dsimp only
  split
  · exact .fail_bind
  · refine .bind (hit.operand.hinted (regularHint_some hkey)) fun position => ?_
    refine .bind (coerce_emits (by simp)) fun position => ?_
    refine .bind (primitive_emits (by simp [hcontainer])) fun current => ?_
    refine .bind (Expr.operand_sound value).value fun rhs => ?_
    refine .bind (applyBinary_emits (by simp) (by simp)) fun result => ?_
    refine .bind (coerce_emits (by simp)) fun result => ?_
    exact .bind (primitive_emits (by simp [hcontainer])) fun _ => .pure (by simp)

theorem augmentItem_emits (hitems : ∀ item ∈ items, item.Sound A) :
    Acts A H quiet Γ (augmentItem base items op value span) := by
  refine .bind (Expr.operand_sound base).entity fun entity => ?_
  split
  · refine .bind_typeOf fun ty hty => ?_
    split
    · exact augmentTensor_emits (by simp [Entity.facts]) hitems
    · exact augmentTensor_emits (by simp [Entity.facts]) hitems
    · exact augmentContainer_emits (by simp [Entity.facts]) (fun _ => .int) hitems
    · exact augmentContainer_emits (by simp [Entity.facts]) (fun hA => (hty hA).key_of_dict) hitems
    · exact .fail
  · exact .fail

theorem augment_emits : Acts A H loud Γ (augment target op value span) := by
  unfold augment
  dsimp only
  split
  · exact .fail_bind
  · split
    next => exact augmentName_emits
    next => exact .of_quiet augmentAttribute_emits
    next => exact .of_quiet (augmentItem_emits (Expr.items_sound _))
    next => exact .fail

end Lower

end Flowgraph
