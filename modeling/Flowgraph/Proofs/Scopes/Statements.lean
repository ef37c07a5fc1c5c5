import Flowgraph.Proofs.Lowering.Statements
import Flowgraph.Proofs.Scopes.Expressions

/-!
# Statements and the scope

What the statements that hold blocks run, in the states in which they run it (`BranchRuns`,
`loop_parts`, `ForRuns`), and what merging the sides of a branch does to the scope.  All of lowering
is local: `Stmt.lower_local`.
-/

namespace Flowgraph

open Flowgraph.Expr List Option Scope Stmt

namespace Lower

variable {ctx : LowerContext} {s t : LowerState} {span here : Span}
  {name other default attr : String} {targets iters : List Expr} {block : BlockId}
  {binding : Binding} {ident : Ident} {answer a : Unit} {message result : Option Expr}
  {iter type test : Expr} {hint : Option Ty} {entity prepared : Entity} {cond : Operand}

/-! ## Simple statements -/

section Simple

variable {L : Law} [L.Lawful] [Nests L] [Encloses L] [hL : Assigning L] [hspan : L.At span]
  {target value : Expr} {op : BinaryOp} {v : ValueId} {items : List Item}

@[grind ←] theorem entity_keeps [h : L.Covers value.spans] : Keeps L value.entity :=
  .entity (value.lower_keeps h)

@[grind ←] theorem value_keeps [h : L.Covers value.spans] : Keeps L (value.value hint) :=
  .value (value.lower_keeps h)

theorem entity_quiet : Keeps Quiet value.entity := entity_keeps

theorem value_quiet : Keeps Quiet (value.value hint) := value_keeps

theorem operands_keep {cond : Option Expr} (h : L.Covers (spans? cond)) :
    ∀ operand ∈ cond.map Expr.operand, operand.Keeps L := by
  cases cond with
  | none => simp
  | some cond =>
    rintro _ ⟨⟩
    exact cond.lower_keeps h

theorem operands_quiet (cond : Option Expr) :
    ∀ operand ∈ cond.map Expr.operand, operand.Keeps Quiet :=
  operands_keep inferInstance

theorem assignDeclared_keeps [htgt : L.Covers target.spans] [L.Covers type.spans]
    [L.Covers value.spans] :
    Keeps (hL.law target.boundNames) (assignDeclared target type value span) := by
  have := htgt.mem _ target.span_mem
  unfold assignDeclared
  cases hname : target.asName? with
  | none => exact .shape
  | some name =>
    have hnms : target.boundNames = [name] := by
      cases target <;> simp_all [asName?, Expr.boundNames]
    rw [hnms]
    refine .bind .surfaceType fun ty => .bind (hL.reads value_keeps) fun v => ?_
    refine .bind .typeOf fun found => .bind .convert? fun converted => ?_
    cases converted with
    | some converted => exact hL.bind hspan
    | none => exact .type

theorem assignPlain_keeps (h : L.Covers target.spans) [L.Covers value.spans] :
    Keeps (hL.law target.boundNames) (assignPlain target value span) := by
  unfold assignPlain
  split
  case h_1 | h_2 =>
    obtain ⟨_, helems⟩ := Law.covers_cons.mp h
    rw [Expr.boundNames]
    exact .bind .validateTargets fun _ => .bind (hL.reads entity_keeps) fun entity =>
      destructure_keeps (targets_keep _ helems)
  · have := (Law.covers_cons.mp h).1
    exact .shape
  · obtain ⟨hbase, hindices⟩ := Law.covers_append.mp (Law.covers_cons.mp h).2
    exact .bind (hL.reads value_keeps) fun v =>
      hL.reads (.assignItem (lower_keeps _ hbase) (items_keep _ hindices))
  · exact .bind (hL.reads entity_keeps) fun entity => target.assign_keeps entity hspan h

theorem assign_keeps {type value : Option Expr} (h : L.Covers target.spans)
    (hty : L.Covers (spans? type)) (hv : L.Covers (spans? value)) :
    Keeps (hL.law target.boundNames) (assign target type value span) := by
  unfold assign
  split
  · exact .unsupported
  · rw [spans?] at hty hv
    exact assignDeclared_keeps
  · rw [spans?] at hv
    exact assignPlain_keeps h

theorem assignTargets_keeps (h : L.Covers (spansAll targets)) :
    Keeps (hL.law (boundNamesAll targets)) (assignTargets targets entity span) := by
  unfold assignTargets
  split
  next target =>
    rw [Expr.boundNamesAll, Expr.boundNamesAll, append_nil]
    exact target.assign_keeps entity hspan (Law.covers_append.mp h).1
  next => exact .bind .validateTargets fun _ => destructure_keeps (targets_keep _ h)

theorem assignTargets_assigns :
    Keeps (Assigns (boundNamesAll targets)) (assignTargets targets entity span) :=
  assignTargets_keeps (L := Quiet) inferInstance

theorem augmentName_keeps [L.At here] [L.Covers value.spans] :
    Keeps (hL.law [name]) (augmentName name here op value span) := by
  unfold augmentName
  refine .bind .lookup fun entity => .bind .toValue fun current =>
    .bind (hL.reads value_keeps) fun rhs => ?_
  exact .bind .applyAugmented fun result => hL.bind hspan

theorem augmentAttribute_keeps [L.At here] [L.Covers target.spans]
    [L.Covers value.spans] : Keeps L (augmentAttribute target attr here op value span) := by
  unfold augmentAttribute
  refine .bind entity_keeps fun object => .bind .getAttribute fun _ =>
    .bind .toValue fun current => ?_
  grind

@[grind ←] theorem augmentTensor_keeps [L.Covers value.spans] (h : ∀ item ∈ items, item.Keeps L) :
    Keeps L (augmentTensor v items op value span) := by
  unfold augmentTensor
  refine .bind (.decompose h) fun sliced => .bind value_keeps fun rhs => ?_
  split <;> grind

@[grind ←] theorem augmentContainer_keeps {key elem : Ty} [L.Covers value.spans]
    (h : ∀ item ∈ items, item.Keeps L) :
    Keeps L (augmentContainer v key elem items op value span) := by
  unfold augmentContainer
  refine (Keeps.given_singleIndex h).andThen fun item hit => ?_
  have hopd := hit.operand
  have : L.At item.span := hopd.covers.mem _ (span_mem _)
  have hr : Keeps L (do
      let position ← coerce (← item.value (some key)) key item.span .index
      let current ← primitive .getItem [v, position] span
      let rhs ← value.value none
      let result ← applyBinary op current rhs span
      let result ← coerce result elem span .augmented
      let _ ← primitive .setItem [v, position, result] span) := by
    refine .bind (.value hopd) fun _ => .bind .coerce fun position => .bind .primitive fun _ => ?_
    grind
  dsimp only
  split
  · exact .bind .unsupported fun _ => hr
  · exact hr

theorem augmentItem_keeps [L.Covers target.spans] [L.Covers value.spans]
    (h : ∀ item ∈ items, item.Keeps L) : Keeps L (augmentItem target items op value span) := by
  unfold augmentItem
  refine .bind entity_keeps fun entity => ?_
  split <;> grind

theorem augment_keeps (h : L.Covers target.spans) [L.Covers value.spans] :
    Keeps (hL.law (Stmt.augment span target op value).boundNames)
      (augment target op value span) := by
  have := h.mem _ target.span_mem
  unfold augment
  split
  next here name =>
    have := (Law.covers_cons.mp h).1
    rw [Stmt.boundNames]
    exact .guarded .shape augmentName_keeps
  next here base attr =>
    obtain ⟨_, hr⟩ := Law.covers_cons.mp h
    have := (Law.covers_cons.mp hr).2
    exact .guarded .shape (hL.reads augmentAttribute_keeps)
  next here base indices =>
    obtain ⟨_, hindices⟩ := Law.covers_append.mp (Law.covers_cons.mp h).2
    exact .guarded .shape (hL.reads (augmentItem_keeps (items_keep _ hindices)))
  next => exact .guarded .shape .shape

theorem returnValue_keeps [(hL.law [returnName]).BodiesFree] {value : Option Expr}
    (h : L.Covers (spans? value)) : Keeps (hL.law [returnName]) (returnValue value span) := by
  unfold returnValue
  refine .bind .getBody fun body => .guarded .unsupported ?_
  cases value with
  | some value =>
    rw [spans?] at h
    exact .bind (hL.reads value_keeps) fun v => .bind .returned fun _ => hL.bind hspan
  | none =>
    exact .bind (hL.reads (.build (.none hspan.node))) fun v => .bind .returned fun _ =>
      hL.bind hspan

@[grind ←] theorem raise_keeps (h : L.Covers (spans? message)) :
    Keeps L (raise message default span) := by
  unfold raise
  cases message with
  | some message =>
    rw [spans?] at h
    exact .bind value_keeps fun _ => .bind (.build (.insert hspan.node)) fun _ => .pure
  | none =>
    exact .bind (.build (.str hspan.node)) fun _ =>
      .bind (.build (.insert hspan.node)) fun _ => .pure

theorem assertion_keeps (htest : L.Covers test.spans) (h : L.Covers (spans? message)) :
    Keeps L (assertion test message span) := by
  have hcond : Keeps L test.operand.condition := .condition (test.lower_keeps htest)
  unfold assertion
  grind

omit [L.Lawful] [Nests L] [Encloses L] in
theorem declareGlobal_keeps (h : L.At ident.span) :
    Keeps (hL.law [ident.name]) (declareGlobal ident) :=
  .bind (.build (.create fun _ _ _ hch hs => hs.addParam hch)) fun _ =>
    .bind (.build (.update fun _ _ hch hs => hs.modifyValue hch)) fun _ => hL.bind h

end Simple

/-! ## Branches -/

/-- The two sides of a branch whose outcome is not known are lowered, in frames of their own. -/
inductive BranchOpens (ctx : LowerContext) (span : Span) (cond : Operand) (body orelse : Lower Unit)
    (bodyRaises orelseRaises : Bool) (s : LowerState) :
    NodeId → BranchSide → BranchSide → LowerState → Prop
  | intro {s₁ s₂ u₁ v₁ u₂ v₂ : LowerState} {condition : Condition} {branching : Branching}
      {onTrue onFalse : Frame}
      (hcond : cond.condition ctx s = .ok (condition, s₁)) (hknown : condition.known = none)
      (hinsert : insertBranching condition.value span ctx s₁ = .ok (branching, s₂))
      (hrefineTrue : insertRefinements condition.refinements.onTrue ctx
        (s₂.enter branching.onTrue) = .ok ((), u₁))
      (hbody : body ctx u₁ = .ok ((), v₁)) (honTrue : v₁.scope.current? = some onTrue)
      (hrefineFalse : insertRefinements condition.refinements.onFalse ctx
        ((v₁.leave s₂.point).enter branching.onFalse) = .ok ((), u₂))
      (horelse : orelse ctx u₂ = .ok ((), v₂)) (honFalse : v₂.scope.current? = some onFalse) :
      BranchOpens ctx span cond body orelse bodyRaises orelseRaises s branching.node
        { block := branching.onTrue, frame := onTrue, raises := bodyRaises }
        { block := branching.onFalse, frame := onFalse, raises := orelseRaises } (v₂.leave s₂.point)

/-- How a branch is lowered: one side in place where the outcome is known, or else both sides,
which are then merged. -/
inductive BranchRuns (ctx : LowerContext) (span : Span) (cond : Operand) (body orelse : Lower Unit)
    (bodyRaises orelseRaises : Bool) : LowerState → LowerState → Prop
  | decided {s s₁ u t : LowerState} {condition : Condition} {known : Bool}
      (hcond : cond.condition ctx s = .ok (condition, s₁)) (hknown : condition.known = some known)
      (hrefine : insertRefinements (condition.refinements.on known) ctx s₁ = .ok ((), u))
      (hside : (if known then body else orelse) ctx u = .ok ((), t)) :
      BranchRuns ctx span cond body orelse bodyRaises orelseRaises s t
  | open {s u t : LowerState} {n : NodeId} {a b : BranchSide}
      (hopens : BranchOpens ctx span cond body orelse bodyRaises orelseRaises s n a b u)
      (hmerge : mergeSides n a b span ctx u = .ok ((), t)) :
      BranchRuns ctx span cond body orelse bodyRaises orelseRaises s t

theorem branch_runs {body orelse : Lower Unit} {bodyRaises orelseRaises : Bool}
    (h : branch span cond body orelse bodyRaises orelseRaises ctx s = .ok (a, t)) :
    BranchRuns ctx span cond body orelse bodyRaises orelseRaises s t := by
  unfold branch at h
  obtain ⟨condition, s₁, hcond, h⟩ := bind_ok h
  cases hknown : condition.known with
  | some known =>
    cases known <;> simp only [hknown] at h <;> obtain ⟨_, u, href, hside⟩ := bind_ok h <;>
      exact .decided hcond hknown href hside
  | none =>
    simp only [hknown] at h
    obtain ⟨branching, s₂, hinsert, h⟩ := bind_ok h
    obtain ⟨⟨_, trueFrame⟩, s₃, htrue, h⟩ := bind_ok h
    obtain ⟨⟨_, falseFrame⟩, s₄, hfalse, h⟩ := bind_ok h
    obtain ⟨v₁, hinside, hf, rfl⟩ := inBranch_ok htrue
    obtain ⟨_, u₁, hrefT, hbody⟩ := bind_ok hinside
    obtain ⟨v₂, hinside', hframe', rfl⟩ := inBranch_ok hfalse
    obtain ⟨_, u₂, hrefF, horelse⟩ := bind_ok hinside'
    cases trueFrame with
    | none => exact absurd h fail_ok
    | some onTrue =>
      cases falseFrame with
      | none => exact absurd h fail_ok
      | some onFalse =>
        exact .open ⟨hcond, hknown, hinsert, hrefT, hbody, hf.symm, hrefF, horelse, hframe'.symm⟩ h

theorem side_local {map : RefinementMap} {u v : LowerState}
    (href : insertRefinements map ctx (s.enter block) = .ok (a, u)) (h : u.scope.Local v.scope) :
    (s.scope.push block false none).Local v.scope ∧ s.scope.Steady v.scope.pop := by
  have hinside : (s.scope.push block false none).Local v.scope :=
    trans_of Local (insertRefinements_narrows.run href).toLocal h
  exact ⟨hinside, hinside.pop⟩

theorem BranchOpens.steady {body orelse : Lower Unit} {bodyRaises orelseRaises : Bool} {n : NodeId}
    {a b : BranchSide} (h : BranchOpens ctx span cond body orelse bodyRaises orelseRaises s n a b t)
    (hcond : Keeps Quiet cond.condition) (hbody : Keeps Local body) (horelse : Keeps Local orelse) :
    s.scope.Steady t.scope := by
  obtain ⟨hcond', -, hinsert, hrefT, hrunT, -, hrefF, hrunF, -⟩ := h
  exact trans_of Steady (hcond.run hcond').toSteady <|
    trans_of Steady (Keeps.insertBranching.run hinsert) <|
    trans_of Steady (side_local hrefT (hbody.run hrunT)).2 (side_local hrefF (horelse.run hrunF)).2

/-! ## Merging -/

section Merging

variable {n : NodeId} {a b live : BranchSide} {names : List String}

/-- The name is bound as before, and a fault is deferred for it.  If it was bound, the fault is that
its two meanings are of different kinds. -/
def Unsettled (before : Option Found) (name : String) (scope : Scope) : Prop :=
  scope.find? name = before ∧ ∃ fault, scope.deferredInBody? name = some fault ∧
    fault.Defers name ∧ (before = none ∨ ∃ span onTrue onFalse,
      fault = .type span (.branchKinds name onTrue onFalse))

/-- The scopes say the same about the name. -/
structure SameAbout (name : String) (scope scope' : Scope) : Prop where
  slot : scope'.slot? name = scope.slot? name
  find : scope'.find? name = scope.find? name
  deferred : scope'.deferredInBody? name = scope.deferredInBody? name

/-- What the scope after a merge says about a name of that fate, by what it said before.  No fault
is deferred any more for a name that gets a new meaning. -/
def Fate.Holds (name : String) (before after : Scope) : Fate → Prop
  | .joined _ _ ty =>
    after.slot? name = some (.assigned (.plain ty)) ∧ after.deferredInBody? name = none
  | .bound binding =>
    after.slot? name = some (.assigned binding) ∧ after.deferredInBody? name = none
  | .clash => False
  | .unsettled => Unsettled (before.find? name) name after
  | .kept => SameAbout name before after

/-- How the scope changes where a name is given its fate. -/
def Fate.Settles (name : String) (scope scope' : Scope) : Fate → Prop
  | .joined _ _ ty => Binds name (.plain ty) scope scope'
  | .bound binding => Binds name binding scope scope'
  | .clash => False
  | .unsettled => ∃ fault, fault.Defers name ∧ scope' = scope.defer name fault ∧
    (scope.find? name = none ∨ ∃ span onTrue onFalse,
      fault = .type span (.branchKinds name onTrue onFalse))
  | .kept => scope' = scope

theorem returnFrom_keeps {R : Law} [R.Lawful] [R.At span] {side : SideType} :
    Keeps R (returnFrom block name side span) := by
  unfold returnFrom
  grind

theorem mergeVariable_binds {onTrue onFalse : BlockId × SideType} {joined : Ty} :
    Keeps (Binds name (.plain joined)) (mergeVariable n name onTrue onFalse joined span) := by
  unfold mergeVariable
  refine .after returnFrom_keeps fun _ => .after returnFrom_keeps fun _ => ?_
  exact .after .addOutput fun merged => .after .nameValue fun _ => store_binds

theorem mergeStep_settles (hrun : mergeStep n a b span name ctx s = .ok (answer, t)) :
    (fate a b s.scope name).Settles name s.scope t.scope := by
  cases mergeStep_runs hrun with
  | joined _ _ _ hrun hfate => exact hfate ▸ mergeVariable_binds.run hrun
  | @bound binding _ hrun hfate =>
    obtain rfl := recordBinding_ok hrun
    rw [hfate]
    cases binding <;> rfl
  | clash hrun => exact absurd hrun fail_ok
  | @deferred fault hrun hfault hcase hfate =>
    obtain rfl := deferFault_ok hrun
    exact hfate ▸ ⟨fault, hfault, rfl, hcase⟩
  | kept hrun hfate =>
    obtain ⟨-, rfl⟩ := pure_ok hrun
    exact hfate ▸ rfl

section Fate

variable {scope scope' scope'' : Scope}

theorem Binds.slot? (h : Binds name binding scope scope') (hbody : scope.HasBody) :
    scope'.slot? name = some (.assigned binding) := by
  obtain rfl := h
  exact slot?_bindCurrent_self _ _ ((scope.sameBindings_clearDeferred name).hasBody hbody).ne_nil

theorem Binds.undeferred (h : Binds name binding scope scope') :
    scope'.deferredInBody? name = none := by
  obtain rfl := h
  rw [deferredInBody?_bindCurrent, deferredInBody?_clearDeferred_self]

theorem Records.assignedHere (h : Records name scope scope') (hbody : scope.HasBody) :
    scope'.AssignedHere name :=
  h.imp fun _ h => h.slot? hbody

theorem SameAbout.trans (h : SameAbout name scope scope')
    (h' : SameAbout name scope' scope'') : SameAbout name scope scope'' :=
  ⟨h'.slot.trans h.slot, h'.find.trans h.find, h'.deferred.trans h.deferred⟩

theorem Binds.apart (h : Binds other binding scope scope') (hne : name ≠ other) :
    SameAbout name scope scope' := by
  obtain rfl := h
  have hsame := scope.sameBindings_clearDeferred other
  have hslot := slot?_bindCurrent (scope.clearDeferred other) (.assigned binding) hne
  exact ⟨hslot.trans (hsame.slot? name),
    ((local_bindCurrent _ other _).kept.find? hslot).trans (hsame.find? name),
    by rw [deferredInBody?_bindCurrent, deferredInBody?_clearDeferred scope hne]⟩

namespace Fate

variable {fate : Fate}

theorem Settles.assigns (h : fate.Settles name scope scope') (hname : name ∈ names) :
    scope.Assigns names scope' := by
  cases fate with
  | joined | bound => exact Records.assigns ⟨_, h⟩ hname
  | clash => exact h.elim
  | unsettled =>
    obtain ⟨fault, hfault, rfl, -⟩ := h
    exact .quiet (scope.quiet_defer hfault)
  | kept => exact h ▸ refl_of (Assigns names) scope

theorem Settles.apart (h : fate.Settles other scope scope') (hne : name ≠ other) :
    SameAbout name scope scope' := by
  cases fate with
  | joined | bound => exact Binds.apart h hne
  | clash => exact h.elim
  | unsettled =>
    obtain ⟨fault, -, rfl, -⟩ := h
    have hsame := scope.sameBindings_defer other fault
    exact ⟨hsame.slot? name, hsame.find? name, by rw [deferredInBody?_defer, if_neg hne]⟩
  | kept =>
    obtain rfl := h
    exact ⟨rfl, rfl, rfl⟩

theorem Settles.holds (h : fate.Settles name scope scope') (hbody : scope.HasBody) :
    fate.Holds name scope scope' := by
  cases fate with
  | joined | bound => exact ⟨Binds.slot? h hbody, Binds.undeferred h⟩
  | clash => exact h.elim
  | unsettled =>
    obtain ⟨fault, hfault, rfl, hcase⟩ := h
    obtain ⟨frame, hf⟩ := isSome_iff_exists.mp hbody
    refine ⟨(scope.sameBindings_defer name fault).find? name, fault, ?_, hfault, hcase⟩
    rw [deferredInBody?_defer, if_pos rfl, hf]
    rfl
  | kept =>
    obtain rfl := h
    exact ⟨rfl, rfl, rfl⟩

theorem Holds.congr {before before' : Scope} (h : fate.Holds name before scope)
    (hbefore : SameAbout name before' before) (hafter : SameAbout name scope scope') :
    fate.Holds name before' scope' := by
  cases fate with
  | joined | bound => exact ⟨hafter.slot.trans h.1, hafter.deferred.trans h.2⟩
  | clash => exact h
  | unsettled =>
    obtain ⟨hfind, fault, hfault, hcase⟩ := h
    rw [hbefore.find] at hfind hcase
    exact ⟨hafter.find.trans hfind, fault, hafter.deferred.trans hfault, hcase⟩
  | kept => exact (hbefore.trans h).trans hafter

end Fate

end Fate

theorem fate_congr {scope scope' : Scope} (h : scope'.find? name = scope.find? name) :
    fate a b scope' name = fate a b scope name := by
  rw [fate, fate, BranchSide.binding?, BranchSide.binding?, h]
  rfl

/-- Names are merged one after the other, each as its fate says. -/
theorem mergeSteps_hold (hnodup : names.Nodup) (hbody : s.scope.HasBody)
    (hrun : names.forM (mergeStep n a b span) ctx s = .ok (answer, t)) :
    (∀ name ∈ names, (fate a b s.scope name).Holds name s.scope t.scope) ∧
      ∀ name ∉ names, SameAbout name s.scope t.scope := by
  induction names generalizing s with
  | nil =>
    obtain ⟨-, rfl⟩ := pure_ok hrun
    exact ⟨by simp, fun _ _ => ⟨rfl, rfl, rfl⟩⟩
  | cons name rest ih =>
    obtain ⟨hnot, hnodup⟩ := nodup_cons.mp hnodup
    obtain ⟨_, u, hstep, hr⟩ := bind_ok hrun
    have hsettles := mergeStep_settles hstep
    obtain ⟨hholds, hsame⟩ := ih hnodup
      ((hsettles.assigns (mem_singleton_self name)).isLocal.hasBody hbody) hr
    refine ⟨forall_mem_cons.mpr ⟨?_, fun other hin => ?_⟩, fun other hother => ?_⟩
    · exact (hsettles.holds hbody).congr ⟨rfl, rfl, rfl⟩ (hsame name hnot)
    · have hfirst := hsettles.apart (ne_of_mem_of_not_mem hin hnot)
      exact fate_congr hfirst.find ▸ (hholds other hin).congr hfirst ⟨rfl, rfl, rfl⟩
    · rw [mem_cons, not_or] at hother
      exact (hsettles.apart hother.1).trans (hsame other hother.2)

theorem mergeSides_assigns :
    Keeps (Assigns (a.frame.definedNames ++ b.frame.definedNames)) (mergeSides n a b span) := by
  rw [mergeSides_eq]
  refine .forM fun name hname => .of_run fun ctx s answer t hrun => ?_
  exact (mergeStep_settles hrun).assigns (mem_sortedNames.mp hname)

/-- What a merged name is afterwards: assigned, or bound as before with a fault deferred for it. -/
def Merged (before : Option Found) (name : String) (scope : Scope) : Prop :=
  scope.AssignedHere name ∨ Unsettled before name scope

theorem mergeSides_live (hside : live = a ∨ live = b) (hrs : live.raises = false)
    (hbind : live.frame.assigned? name = some binding) (hbody : s.scope.HasBody)
    (hrun : mergeSides n a b span ctx s = .ok (answer, t)) :
    Merged (s.scope.find? name) name t.scope := by
  have hname : name ∈ a.frame.definedNames ++ b.frame.definedNames := by
    rcases hside with rfl | rfl <;> simp [mem_definedNames hbind]
  rw [mergeSides_eq] at hrun
  have hholds := (mergeSteps_hold ((sortedNames_sorted _).imp String.ne_of_lt) hbody hrun).1 name
    (mem_sortedNames.mpr hname)
  have hspoken : fate a b s.scope name ≠ .kept := by
    have hof : ∀ visible x y, Fate.of visible x y ≠ .kept := by
      rintro _ (_ | _ | _) (_ | _ | _) <;> grind [Fate.of]
    rw [fate]
    rcases hside with rfl | rfl
    · cases b.raises <;> simp [hrs, hbind, hof]
    · cases a.raises <;> simp [hrs, hbind, hof]
  cases hfate : fate a b s.scope name <;> rw [hfate] at hholds
  · exact Or.inl ⟨_, hholds.1⟩
  · exact Or.inl ⟨_, hholds.1⟩
  · exact hholds.elim
  · exact Or.inr hholds
  · exact absurd hfate hspoken

end Merging

/-! ## Loops over elements -/

/-- One round of a loop over elements. -/
def forRound (targets : List Expr) (span : Span) (body : Lower Unit) (elem : ValueId) :
    Lower Unit := do
  assignTargets targets (.value elem) span
  body

theorem forRound_local {body : Lower Unit} {elem : ValueId} (h : Keeps Local body) :
    Keeps Local (forRound targets span body elem) :=
  .bind (assignTargets_assigns.mono fun _ _ hassigns => hassigns.isLocal) fun _ => h

/-- What a loop over a tuple lowers before its rounds. -/
inductive Unrolls (ctx : LowerContext) (iter : Expr) (span : Span) (s : LowerState) :
    List ValueId → LowerState → Prop
  | intro {s₁ s₂ s₃ : LowerState} {iterable : Entity} {elems : Option (List ValueId)}
      (hiter : iter.entity ctx s = .ok (iterable, s₁))
      (htuple : isTuple iterable ctx s₁ = .ok (true, s₂))
      (helems : expand? iterable span none ctx s₂ = .ok (elems, s₃)) :
      Unrolls ctx iter span s (elems.getD []) (s₃.enterLoop .unrolled)

/-- What a loop over anything else lowers before the loop. -/
inductive Iterates (ctx : LowerContext) (iter : Expr) (span : Span) (s : LowerState) :
    Entity → ValueId → LowerState → Prop
  | intro {s₁ s₂ s₃ s₄ : LowerState} {iterable prepared : Entity} {trip : ValueId}
      (hiter : iter.entity ctx s = .ok (iterable, s₁))
      (htuple : isTuple iterable ctx s₁ = .ok (false, s₂))
      (hprepare : prepareIterable iterable iter.span ctx s₂ = .ok (prepared, s₃))
      (htrip : length span prepared ctx s₃ = .ok (trip, s₄)) :
      Iterates ctx iter span s prepared trip s₄

theorem Unrolls.quiet {elems : List ValueId} (h : Unrolls ctx iter span s elems t) :
    s.scope.Quiet t.scope := by
  obtain ⟨hiter, htuple, helems⟩ := h
  exact trans_of Quiet (entity_quiet.run hiter)
    (trans_of Quiet (Keeps.isTuple.run htuple) (Keeps.expand?.run helems))

theorem Iterates.quiet {trip : ValueId}
    (h : Iterates ctx iter span s prepared trip t) : s.scope.Quiet t.scope := by
  obtain ⟨hiter, htuple, hprepare, htrip⟩ := h
  exact trans_of Quiet (entity_quiet.run hiter) (trans_of Quiet
    (Keeps.isTuple.run htuple) (trans_of Quiet (Keeps.prepareIterable.run hprepare)
      ((Keeps.length _).run htrip)))

/-- How a loop over elements is lowered: round by round in place for a tuple, or else once, in the
frame of a loop. -/
inductive ForRuns (ctx : LowerContext) (targets : List Expr) (iter : Expr) (span : Span)
    (body : Lower Unit) : LowerState → LowerState → Prop
  | unrolled {s u t : LowerState} {elems : List ValueId}
      (hunrolls : Unrolls ctx iter span s elems u)
      (hrounds : elems.forM (forRound targets span body) ctx u = .ok ((), t)) :
      ForRuns ctx targets iter span body s t.leaveLoop
  | looped {s u t : LowerState} {prepared : Entity} {trip : ValueId}
      (hiterates : Iterates ctx iter span s prepared trip u) (hloop : loop (some trip) none span
        (fun counter => do forRound targets span body (← item span counter prepared)) ctx u =
          .ok ((), t)) : ForRuns ctx targets iter span body s t

theorem forLoop_runs {body : Lower Unit} (h : forLoop targets iters span body ctx s = .ok (a, t)) :
    ∃ iter, iters = [iter] ∧ ForRuns ctx targets iter span body s t := by
  unfold forLoop at h
  split at h
  next iter =>
    dsimp only at h
    split at h
    · exact absurd h fail_bind_ok
    · obtain ⟨iterable, s₁, hiter, h⟩ := bind_ok h
      obtain ⟨isTuple, s₂, htuple, h⟩ := bind_ok h
      cases isTuple with
      | true =>
        obtain ⟨elems, s₃, helems, h⟩ := bind_ok h
        obtain ⟨u, hrounds, rfl⟩ := withLoop_ok h
        exact ⟨iter, rfl, .unrolled ⟨hiter, htuple, helems⟩ hrounds⟩
      | false =>
        obtain ⟨prepared, s₃, hprepare, h⟩ := bind_ok h
        obtain ⟨trip, s₄, htrip, h⟩ := bind_ok h
        exact ⟨iter, rfl, .looped ⟨hiter, htuple, hprepare, htrip⟩ h⟩
  next => exact absurd h fail_ok

theorem ForRuns.keeps {R : Scope → Scope → Prop} [IsPreorder Scope R] {body : Lower Unit}
    (hq : ∀ scope scope', scope.Quiet scope' → R scope scope')
    (hrounds : ∀ elems, Keeps R (List.forM elems (forRound targets span body)))
    (hloop : ∀ trip prepared, Keeps R (loop (some trip) none span
      fun counter => do forRound targets span body (← item span counter prepared)))
    (h : ForRuns ctx targets iter span body s t) : R s.scope t.scope := by
  cases h with
  | unrolled hunr hrun =>
    have hrounded := (hrounds _).run hrun
    exact trans_of R (hq _ _ hunr.quiet) hrounded
  | looped hiter hrun => exact trans_of R (hq _ _ hiter.quiet) ((hloop _ _).run hrun)

/-! ## Definitions -/

section Definitions

variable {R : Scope → Scope → Prop} [IsPreorder Scope R]

theorem declareParam_assigns {param : Param} :
    Keeps (Assigns [param.name.name]) (declareParam block param) := by
  have hr : ∀ ty, Keeps (Assigns [param.name.name]) (do
      let v ← addParam block ty
      bindName param.name.name (.value v) none param.name.span
      return (param.name.name, ty)) := fun ty =>
    .bind .addParam fun v => .bind bindName_assigns fun _ => .pure
  unfold declareParam
  split
  · exact .bind .surfaceType hr
  · exact .bind .read fun _ => .bind .pure hr

theorem body_keeps {params : List Param} {statements : Lower Unit}
    {closure : Option NodeId} (h : Keeps Local statements) :
    Keeps R (body name params result span statements block closure) := by
  have hinside : Keeps Local (do
      let params ← params.mapM (declareParam block)
      statements
      let output ← bodyResult span
      addResult block output
      return { name, params, result := ← typeOf output : Signature }) := by
    refine .bind (.mapM fun param _ => declareParam_assigns.mono fun _ _ h => h.isLocal) fun _ => ?_
    refine .bind h fun _ => .bind (.bodyResult fun _ => .fail) fun output => ?_
    grind
  unfold body
  refine .bind ?_ fun declared =>
    .bind (withFrame_body (.withBody (.inBlock hinside))) fun _ => .pure
  cases result with
  | none => exact .pure
  | some result => exact .bind .surfaceType fun _ => .pure

end Definitions

end Lower

open Lower

theorem DefOf.lowerClosure_records {definition : DefOf Stmt}
    (h : Keeps Local (lowerAll definition.body)) :
    Keeps (Records definition.name.name) definition.lowerClosure := by
  obtain ⟨name, params, result, body, span⟩ := definition
  rw [DefOf.lowerClosure]
  refine .after .insertClosure fun inserted => .after (body_keeps h) fun signature => ?_
  exact .after .graph fun closure => .after .recordSignature fun _ => bindName_records

theorem Stmt.lowerAll_cons_ok {ctx : LowerContext} {s t : LowerState} {stmt : Stmt}
    {rest : List Stmt} {a : Unit} (h : lowerAll (stmt :: rest) ctx s = .ok (a, t)) :
    ∃ u, stmt.lower ctx s = .ok ((), u) ∧ lowerAll rest ctx u = .ok ((), t) := by
  cases rest with
  | nil =>
    simp only [lowerAll, isEmpty_nil, Bool.not_true, Bool.false_eq_true, if_false] at h
    obtain ⟨_, u, hstmt, hr⟩ := bind_ok h
    exact ⟨u, hstmt, hr⟩
  | cons next more =>
    rw [lowerAll] at h
    obtain ⟨_, _, hchecked, h⟩ := bind_ok h
    obtain rfl := requireNoReturn_ok hchecked
    obtain ⟨_, u, hstmt, hr⟩ := bind_ok h
    exact ⟨u, hstmt, hr⟩

/-- A statement without statements inside, nested definitions left aside. -/
def Stmt.isSimple : Stmt → Bool
  | .branch .. | .whileLoop .. | .forLoop .. => false
  | _ => true

theorem Stmt.lower_keeps {L : Law} [L.Lawful] [Nests L] [Encloses L] [hL : Assigning L]
    [(hL.law [returnName]).BodiesFree] (stmt : Stmt) (hsimple : stmt.isSimple)
    (h : L.Covers stmt.spans) (hdefine : ∀ span definition, stmt = .define span definition →
      Keeps (hL.law stmt.boundNames) definition.lowerClosure) :
    Keeps (hL.law stmt.boundNames) stmt.lower := by
  cases stmt with
  | branch | whileLoop | forLoop => cases hsimple
  | assign span target ty value =>
    simp only [spans, Law.covers_cons, Law.covers_append] at h
    obtain ⟨_, htgt, hty, hv⟩ := h
    exact assign_keeps htgt hty hv
  | augment span target op value =>
    simp only [spans, Law.covers_cons, Law.covers_append] at h
    obtain ⟨_, htgt, _⟩ := h
    exact augment_keeps htgt
  | ret span value =>
    simp only [spans, Law.covers_cons] at h
    obtain ⟨_, hv⟩ := h
    exact returnValue_keeps hv
  | leave span | next span =>
    have := (Law.covers_cons.mp h).1
    rw [Stmt.lower, Lower.exitLoop]
    grind
  | pass span => exact .pure
  | raise span value =>
    simp only [spans, Law.covers_cons] at h
    obtain ⟨_, hv⟩ := h
    exact hL.reads (raise_keeps hv)
  | assert span test message =>
    simp only [spans, Law.covers_cons, Law.covers_append] at h
    obtain ⟨_, htest, hmessage⟩ := h
    exact hL.reads (assertion_keeps htest hmessage)
  | eval span value =>
    simp only [spans, Law.covers_cons] at h
    obtain ⟨_, _⟩ := h
    exact .bind (hL.reads entity_keeps) fun _ => .pure
  | globals span names =>
    simp only [spans, Law.covers_cons] at h
    refine .forM fun ident hident =>
      hL.mono ?_ (declareGlobal_keeps (h.2.mem _ (List.mem_map_of_mem hident)))
    simpa [Stmt.boundNames] using ⟨ident, hident, rfl⟩
  | define span definition => exact hdefine span definition rfl

instance {names : List String} : (Assigning.law (Law.scope Quiet) names).BodiesFree :=
  inferInstanceAs (Law.scope (Assigns names)).BodiesFree

theorem Stmt.lower_assigns_of (stmt : Stmt) (hsimple : stmt.isSimple)
    (h : ∀ span definition, stmt = .define span definition →
      Keeps Local (lowerAll definition.body)) : Keeps (Assigns stmt.boundNames) stmt.lower :=
  stmt.lower_keeps (L := Quiet) hsimple inferInstance fun span definition heq => by
    subst heq
    exact (DefOf.lowerClosure_records (h span definition rfl)).mono fun _ _ hrecords =>
      hrecords.assigns (by simp [boundNames])

mutual

theorem Stmt.lower_local (stmt : Stmt) : Keeps Local stmt.lower := by
  cases stmt with
  | branch span cond body orelse =>
    rw [lower]
    refine .of_run fun ctx s a t hrun => ?_
    have hcond : Keeps Quiet cond.operand.condition := .condition cond.lower_quiet
    cases branch_runs hrun with
    | @decided _ _ _ _ known hcond' _ href hside =>
      refine trans_of Local (hcond.run hcond').isLocal ?_
      refine trans_of Local (insertRefinements_narrows.run href).toLocal ?_
      cases known with
      | true => exact (lowerAll_local body).run hside
      | false => exact (lowerAll_local orelse).run hside
    | «open» hopens hmerge =>
      have hsteady := hopens.steady hcond (lowerAll_local body) (lowerAll_local orelse)
      exact trans_of Local hsteady.isLocal (mergeSides_assigns.run hmerge).isLocal
  | whileLoop span cond body =>
    rw [lower]
    exact (loop_steady (operands_quiet cond) fun _ => Stmt.lowerAll_local body).mono
      fun _ _ h => h.isLocal
  | forLoop span targets iters body =>
    rw [lower]
    refine .of_run fun ctx s a t hrun => ?_
    have hround : ∀ elem, Keeps Local (forRound targets span (lowerAll body) elem) :=
      fun elem => forRound_local (lowerAll_local body)
    obtain ⟨iter, rfl, hruns⟩ := forLoop_runs hrun
    exact hruns.keeps (fun _ _ h => h.isLocal)
      (fun _ => .forM fun elem _ => hround elem) fun _ prepared =>
      (loop_steady (by simp) fun counter => .bind (.item counter prepared) hround).mono
        fun _ _ h => h.isLocal
  | define span definition =>
    obtain ⟨name, params, result, body, here⟩ := definition
    refine (lower_assigns_of _ rfl ?_).mono fun _ _ h => h.isLocal
    rintro _ _ ⟨⟩
    exact lowerAll_local body
  | _ => exact (lower_assigns_of _ rfl (by nofun)).mono fun _ _ h => h.isLocal

theorem Stmt.lowerAll_local (stmts : List Stmt) : Keeps Local (lowerAll stmts) := by
  cases stmts with
  | nil => exact .pure
  | cons stmt rest =>
    refine .of_run fun ctx s a t hrun => ?_
    obtain ⟨u, hstmt, hr⟩ := lowerAll_cons_ok hrun
    exact trans_of Local (stmt.lower_local.run hstmt) ((Stmt.lowerAll_local rest).run hr)

end

theorem Stmt.lower_assigns (stmt : Stmt) (h : stmt.isSimple) :
    Keeps (Assigns stmt.boundNames) stmt.lower :=
  stmt.lower_assigns_of h fun _ definition _ => lowerAll_local definition.body

end Flowgraph
