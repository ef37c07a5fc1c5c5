import Flowgraph.Proofs.Scopes.Statements

/-!
# Assignments assign

A simple statement that is lowered assigns every name that it binds, in the innermost frame:
`Stmt.lower_assignedHere`.
-/

namespace Flowgraph

open List Scope

namespace Lower

variable {ctx : LowerContext} {s t : LowerState} {x : String} {span : Span} {a : Unit}
  {targets rest : List Target} {elems : List ValueId}

/-- Assigning to the target assigns the name. -/
def Reaches (x : String) (target : Target) : Prop :=
  ∀ entity span ctx s a t, s.scope.HasBody → target.assign entity span ctx s = .ok (a, t) →
    t.scope.AssignedHere x

/-- There are enough elements for the targets. -/
def Suffices (targets : List Target) (elems : List ValueId) : Prop :=
  targets.length ≤ elems.length ∨
    (targets.countP Target.starred = 1 ∧ targets.length ≤ elems.length + 1)

/-- The first target is assigned some entity, and the elements left suffice for the rest. -/
theorem distribute_cons_ok {target : Target} (henough : Suffices (target :: rest) elems)
    (hrun : distribute span (target :: rest) elems ctx s = .ok (a, t)) :
    ∃ entity u v left, s.scope = u.scope ∧ target.assign entity span ctx u = .ok ((), v) ∧
      Suffices rest left ∧ distribute span rest left ctx v = .ok (a, t) := by
  unfold distribute at hrun
  cases hstarred : target.starred with
  | true =>
    have hlen : rest.length ≤ elems.length := by
      rcases henough with h | ⟨-, h⟩ <;> simp at h <;> omega
    rw [if_pos hstarred] at hrun
    obtain ⟨packed, u, htuple, hrun⟩ := bind_ok hrun
    obtain ⟨_, v, hassign, hr⟩ := bind_ok hrun
    refine ⟨_, u, v, _, Keeps.tuple.run htuple, hassign, Or.inl ?_, hr⟩
    rw [length_drop]
    omega
  | false =>
    rw [if_neg (by simp [hstarred])] at hrun
    cases elems with
    | nil =>
      -- Without elements the one target would be starred.
      rcases henough with h | ⟨hcount, h⟩
      · simp at h
      · have hnil : rest = [] := length_eq_zero_iff.mp (by simpa using h)
        simp [hnil, hstarred] at hcount
    | cons elem elems =>
      obtain ⟨_, v, hassign, hr⟩ := bind_ok hrun
      refine ⟨_, s, v, elems, rfl, hassign, ?_, hr⟩
      rcases henough with h | ⟨hcount, h⟩
      · exact Or.inl (by simpa using h)
      · exact Or.inr ⟨by simpa [hstarred] using hcount, by simpa using h⟩

theorem distribute_reaches (hkeeps : ∀ target ∈ targets, target.Keeps (Tracks x))
    (hreaches : ∃ target ∈ targets, Reaches x target)
    (henough : Suffices targets elems) (hbody : s.scope.HasBody)
    (hrun : distribute span targets elems ctx s = .ok (a, t)) : t.scope.AssignedHere x := by
  induction targets generalizing elems s with
  | nil =>
    obtain ⟨target, hmem, -⟩ := hreaches
    exact absurd hmem not_mem_nil
  | cons target rest ih =>
    obtain ⟨hfirst, hr⟩ := forall_mem_cons.mp hkeeps
    obtain ⟨entity, u, v, left, hsc, hassign, hleft, hlater⟩ :=
      distribute_cons_ok henough hrun
    have hbody₁ : u.scope.HasBody := hsc ▸ hbody
    obtain ⟨found, hmem, hfd⟩ := hreaches
    rcases mem_cons.mp hmem with rfl | hmem
    · have hkept : Keeps (Tracks x) (distribute span rest left) := distribute_keeps hr
      exact (hkept.run hlater).assigned (hfd _ _ _ _ _ _ hbody₁ hassign)
    · have hbody₂ : v.scope.HasBody := ((hfirst _ _ inferInstance).run hassign).hasBody hbody₁
      exact ih hr ⟨found, hmem, hfd⟩ hleft hbody₂ hlater

theorem destructure_reaches {entity : Entity} (hkeeps : ∀ target ∈ targets, target.Keeps (Tracks x))
    (hreaches : ∃ target ∈ targets, Reaches x target) (hone : targets.countP Target.starred ≤ 1)
    (hbody : s.scope.HasBody) (hrun : destructure targets entity span ctx s = .ok (a, t)) :
    t.scope.AssignedHere x := by
  unfold destructure at hrun
  dsimp only at hrun
  obtain ⟨elems, u, hexpand, hrun⟩ := bind_ok hrun
  have hbody' : u.scope.HasBody := by
    have hsc : s.scope = u.scope := Keeps.expand?.run hexpand
    exact hsc ▸ hbody
  cases elems with
  | none =>
    obtain ⟨_, _, -, hrun⟩ := bind_ok hrun
    exact absurd hrun fail_ok
  | some elems =>
    cases hstar : targets.any Target.starred with
    | true =>
      simp only [hstar, if_true, Bool.not_true, Bool.false_and, Bool.false_eq_true,
        if_false] at hrun
      split at hrun
      next => exact absurd hrun fail_bind_ok
      next hfew =>
        have hcount : targets.countP Target.starred = 1 :=
          le_antisymm hone (countP_pos_iff.mpr (any_eq_true.mp hstar))
        refine distribute_reaches hkeeps hreaches (Or.inr ⟨hcount, ?_⟩) hbody' hrun
        omega
    | false =>
      simp only [hstar, Bool.false_eq_true, if_false] at hrun
      split at hrun
      next => exact absurd hrun fail_bind_ok
      next hfew =>
        split at hrun
        next => exact absurd hrun fail_bind_ok
        next => exact distribute_reaches hkeeps hreaches (Or.inl (not_lt.mp hfew)) hbody' hrun

theorem validateTargets_ok {exprs : List Expr} (h : validateTargets exprs span ctx s = .ok (a, t)) :
    exprs.countP Expr.isStarred ≤ 1 := by
  unfold validateTargets at h
  dsimp only at h
  split at h
  next => exact absurd h fail_bind_ok
  next hone => omega

end Lower

open Lower

namespace Expr

theorem starred_targets (exprs : List Expr) :
    (targets exprs).countP Target.starred = exprs.countP isStarred := by
  induction exprs with
  | nil => rfl
  | cons expr rest ih => cases expr <;> simp [targets, countP_cons, isStarred, ih]

theorem targets_track {x : String} (exprs : List Expr) :
    ∀ target ∈ targets exprs, target.Keeps (Tracks x) := by
  intro target htgt entity span _
  have hassigns : Keeps (Assigns (boundNamesAll exprs)) (target.assign entity span) :=
    targets_keep (L := Quiet) exprs inferInstance target htgt entity span inferInstance
  exact hassigns.mono fun _ _ h => h.tracks

mutual

theorem assign_reaches {x : String} (target : Expr) (hx : x ∈ target.boundNames)
    (entity : Entity) (span : Span) {ctx : LowerContext} {s t : LowerState} {a : Unit}
    (hbody : s.scope.HasBody) (hrun : target.assign entity span ctx s = .ok (a, t)) :
    t.scope.AssignedHere x := by
  match target with
  | .var here name =>
    rw [boundNames, mem_singleton] at hx
    rw [assign] at hrun
    exact hx ▸ (bindName_records.run hrun).assignedHere hbody
  | .tuple here elems | .list here elems =>
    rw [boundNames] at hx
    rw [assign] at hrun
    obtain ⟨_, u, hvalid, hrun⟩ := bind_ok hrun
    have hsc : s.scope = u.scope := Keeps.validateTargets.run hvalid
    refine destructure_reaches (targets_track elems) (targets_reach elems hx) ?_ (hsc ▸ hbody) hrun
    exact (starred_targets elems).trans_le (validateTargets_ok hvalid)
  | .starred here inner =>
    rw [assign] at hrun
    exact absurd hrun fail_ok
  | .const .. | .binary .. | .unary .. | .ternary .. | .slice .. | .ellipsis .. | .call ..
  | .dict ..
  | .listComp .. | .subscript .. | .attribute .. =>
    simp [boundNames] at hx

theorem targets_reach {x : String} (exprs : List Expr) (hx : x ∈ boundNamesAll exprs) :
    ∃ target ∈ targets exprs, Reaches x target := by
  match exprs with
  | [] => simp [boundNamesAll] at hx
  | expr :: rest =>
    rw [boundNamesAll] at hx
    rcases mem_append.mp hx with hx | hx
    · cases expr with
      | starred span inner =>
        rw [boundNames] at hx
        exact ⟨⟨true, inner.assign⟩, by simp [targets],
          fun entity span _ _ _ _ hbody hrun => assign_reaches inner hx entity span hbody hrun⟩
      | _ =>
        exact ⟨_, (.head _),
          fun entity span _ _ _ _ hbody hrun => assign_reaches _ hx entity span hbody hrun⟩
    · obtain ⟨target, htgt, hreaches⟩ := targets_reach rest hx
      refine ⟨target, ?_, hreaches⟩
      cases expr <;> exact .tail _ htgt

end

end Expr

namespace Lower

variable {ctx : LowerContext} {s t : LowerState} {x name : String} {span here : Span} {a : Unit}
  {value target type : Expr}

theorem destructured_reaches {exprs : List Expr} (source : Lower Entity) (hsrc : Keeps Quiet source)
    (hx : x ∈ Expr.boundNamesAll exprs) (hbody : s.scope.HasBody)
    (hrun :
      (do validateTargets exprs here; destructure (Expr.targets exprs) (← source) span) ctx s =
      .ok (a, t)) : t.scope.AssignedHere x := by
  obtain ⟨_, u, hvalid, hrun⟩ := bind_ok hrun
  obtain ⟨entity, v, hent, hrun⟩ := bind_ok hrun
  have hsc : s.scope = u.scope := Keeps.validateTargets.run hvalid
  have hbody' : v.scope.HasBody := (hsrc.run hent).bindings.hasBody (hsc ▸ hbody)
  refine destructure_reaches (Expr.targets_track exprs) (Expr.targets_reach exprs hx) ?_ hbody' hrun
  exact (Expr.starred_targets exprs).trans_le (validateTargets_ok hvalid)

theorem assignTargets_reaches {targets : List Expr} {entity : Entity}
    (hx : x ∈ Expr.boundNamesAll targets) (hbody : s.scope.HasBody)
    (hrun : assignTargets targets entity span ctx s = .ok (a, t)) : t.scope.AssignedHere x := by
  unfold assignTargets at hrun
  split at hrun
  next target =>
    exact target.assign_reaches (by simpa [Expr.boundNamesAll] using hx) entity span hbody hrun
  next => exact destructured_reaches (pure entity) .pure hx hbody hrun

theorem assignDeclared_reaches (hx : x ∈ target.boundNames)
    (hbody : s.scope.HasBody) (hrun : assignDeclared target type value span ctx s = .ok (a, t)) :
    t.scope.AssignedHere x := by
  unfold assignDeclared at hrun
  cases hname : target.asName? with
  | none =>
    rw [hname] at hrun
    exact absurd hrun fail_ok
  | some name =>
    obtain ⟨here, rfl⟩ := Expr.asName?_eq_some hname
    rw [Expr.boundNames, mem_singleton] at hx
    rw [hname] at hrun
    obtain ⟨ty, s₁, hty, hrun⟩ := bind_ok hrun
    obtain ⟨v, s₂, hv, hrun⟩ := bind_ok hrun
    obtain ⟨found, s₃, htypeOf, hrun⟩ := bind_ok hrun
    obtain ⟨converted, s₄, hconvert, hrun⟩ := bind_ok hrun
    have hq : s.scope.Quiet s₄.scope :=
      trans_of Quiet (Keeps.surfaceType.run hty) (trans_of Quiet
        (value_quiet.run hv) (trans_of Quiet (Keeps.typeOf.run htypeOf)
          (Keeps.convert?.run hconvert)))
    cases converted with
    | none => exact absurd hrun fail_ok
    | some converted =>
      exact hx ▸ (bindName_records.run hrun).assignedHere (hq.bindings.hasBody hbody)

theorem assignPlain_reaches (hx : x ∈ target.boundNames)
    (hbody : s.scope.HasBody) (hrun : assignPlain target value span ctx s = .ok (a, t)) :
    t.scope.AssignedHere x := by
  unfold assignPlain at hrun
  split at hrun
  case h_1 here elems | h_2 here elems =>
    rw [Expr.boundNames] at hx
    exact destructured_reaches value.entity entity_quiet hx hbody hrun
  next => exact absurd hrun fail_ok
  next => simp [Expr.boundNames] at hx
  next =>
    obtain ⟨entity, u, hent, hrun⟩ := bind_ok hrun
    have hbody' := (entity_quiet.run hent).bindings.hasBody hbody
    exact target.assign_reaches hx entity span hbody' hrun

theorem augmentName_reaches {op : BinaryOp} (hbody : s.scope.HasBody)
    (hrun : augment (.var here name) op value span ctx s = .ok (a, t)) :
    t.scope.AssignedHere name := by
  unfold augment at hrun
  dsimp only at hrun
  split at hrun
  next => exact absurd hrun fail_bind_ok
  next =>
    obtain ⟨entity, s₁, hlook, hrun⟩ := bind_ok hrun
    obtain ⟨current, s₂, hcur, hrun⟩ := bind_ok hrun
    obtain ⟨rhs, s₃, hv, hrun⟩ := bind_ok hrun
    obtain ⟨result, s₄, happly, hrun⟩ := bind_ok hrun
    have hq : s.scope.Quiet s₄.scope :=
      trans_of Quiet (Keeps.lookup.run hlook) (trans_of Quiet
        (Keeps.toValue.run hcur) (trans_of Quiet (value_quiet.run hv)
          (Keeps.applyAugmented.run happly)))
    exact (bindName_records.run hrun).assignedHere (hq.bindings.hasBody hbody)

theorem returnValue_reaches {value : Option Expr} (hbody : s.scope.HasBody)
    (hrun : returnValue value span ctx s = .ok (a, t)) : t.scope.AssignedHere returnName := by
  have hr : ∀ {v : ValueId} {u : LowerState}, u.scope.HasBody →
      (do bindName returnName (.value (← returned v span)) none span : Lower Unit) ctx u =
        .ok (a, t) → t.scope.AssignedHere returnName := by
    intro v u hbody hrun
    obtain ⟨w, u', hret, hrun⟩ := bind_ok hrun
    have hsc : u.scope = u'.scope := Keeps.returned.run hret
    exact (bindName_records.run hrun).assignedHere (hsc ▸ hbody)
  unfold returnValue at hrun
  obtain ⟨body, s₁, hgetBody, hrun⟩ := bind_ok hrun
  have hsc : s.scope = s₁.scope := Keeps.getBody.run hgetBody
  dsimp only at hrun
  split at hrun
  next => exact absurd hrun fail_bind_ok
  next =>
    cases value with
    | some value =>
      obtain ⟨v, s₂, hv, hrun⟩ := bind_ok hrun
      exact hr ((value_quiet.run hv).bindings.hasBody (hsc ▸ hbody)) hrun
    | none =>
      obtain ⟨v, s₂, hbuild, hrun⟩ := bind_ok hrun
      have hscope' : s₁.scope = s₂.scope := Keeps.graph.run hbuild
      exact hr (hscope' ▸ hsc ▸ hbody) hrun

theorem declareGlobals_reaches {ident : Ident} {idents : List Ident} (h : ident ∈ idents)
    (hbody : s.scope.HasBody) (hrun : idents.forM declareGlobal ctx s = .ok (a, t)) :
    t.scope.AssignedHere ident.name := by
  have htracks : ∀ other, Keeps (Tracks ident.name) (declareGlobal other) := fun _ =>
    (declareGlobal_keeps (L := Quiet) inferInstance).mono fun _ _ hassigns => hassigns.tracks
  induction idents generalizing s with
  | nil => cases h
  | cons other rest ih =>
    obtain ⟨_, u, hstep, hr⟩ := bind_ok hrun
    rcases mem_cons.mp h with rfl | h
    · have hrecords : Keeps (Records ident.name) (declareGlobal ident) :=
        .after .graph fun _ => .after .graph fun _ => bindName_records
      have hlater : Keeps (Tracks ident.name) (rest.forM declareGlobal) :=
        .forM fun _ _ => htracks _
      exact (hlater.run hr).assigned ((hrecords.run hstep).assignedHere hbody)
    · exact ih h (((htracks other).run hstep).hasBody hbody) hr

end Lower

theorem Stmt.lower_assignedHere {ctx : LowerContext} {s t : LowerState} {x : String} {a : Unit}
    (stmt : Stmt) (hsimple : stmt.isSimple) (hx : x ∈ stmt.boundNames) (hbody : s.scope.HasBody)
    (hrun : stmt.lower ctx s = .ok (a, t)) : t.scope.AssignedHere x := by
  cases stmt with
  | branch | whileLoop | forLoop => cases hsimple
  | assign span target ty value =>
    rw [Stmt.lower] at hrun
    unfold Lower.assign at hrun
    split at hrun
    · exact absurd hrun fail_ok
    · exact assignDeclared_reaches hx hbody hrun
    · exact assignPlain_reaches hx hbody hrun
  | augment span target op value =>
    cases target with
    | var here name =>
      rw [boundNames, mem_singleton] at hx
      exact hx ▸ augmentName_reaches hbody hrun
    | _ => simp [boundNames] at hx
  | ret span value =>
    rw [boundNames, mem_singleton] at hx
    exact hx ▸ returnValue_reaches hbody hrun
  | leave | next | pass | raise | assert | eval => simp [boundNames] at hx
  | globals span names =>
    obtain ⟨ident, hident, rfl⟩ := mem_map.mp hx
    exact declareGlobals_reaches hident hbody hrun
  | define span definition =>
    rw [boundNames, mem_singleton] at hx
    rw [Stmt.lower] at hrun
    exact hx ▸ ((DefOf.lowerClosure_records (lowerAll_local definition.body)).run hrun).assignedHere
      hbody

end Flowgraph
