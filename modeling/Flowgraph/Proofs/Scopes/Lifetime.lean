import Flowgraph.Proofs.Scopes.Blocks

/-!
# How long a refinement lasts

A test narrows variables in the frame of the block that it guards, and the frame is dropped with the
block.  A branch whose outcome is known has no block: its side is lowered in place, and what its
test narrows stays narrowed in the frame of the code around it.  `Stmt.lower_keeps_type` says that
this is the only way in which a statement changes the type of a variable that it does not assign.
-/

namespace Flowgraph

open Flowgraph.Frame List Option Scope

/-! ## Names that a frame does not assign -/

namespace Scope

variable {x other : String} {scope scope' : Scope}

/-- The names that the innermost frame assigns. -/
def assignedNames (scope : Scope) : List String :=
  (scope.current?.map definedNames).getD []

theorem SameBindings.assignedNames (h : scope.SameBindings scope') :
    scope'.assignedNames = scope.assignedNames := by
  have hcore : ∀ scope : Scope, scope.assignedNames =
      ((scope.frames.map core).head?.map definedNames).getD [] := by
    intro scope
    rw [head?_map, Option.map_map]
    rfl
  rw [hcore, hcore, h]

theorem mem_assignedNames_bindCurrent {slot : Slot}
    (h : x ∈ (scope.bindCurrent other slot).assignedNames) :
    (x = other ∧ slot.assigned?.isSome) ∨ x ∈ scope.assignedNames := by
  obtain ⟨_ | ⟨frame, outer⟩⟩ := scope
  · exact Or.inr h
  · obtain ⟨entry, he, rfl⟩ := mem_map.mp h
    obtain ⟨⟨key, found⟩, hmem, hfd⟩ := mem_filterMap.mp he
    obtain ⟨binding, hbind, rfl⟩ := map_eq_some_iff.mp hfd
    rcases NameMap.mem_insertEntry hmem with heq | hold
    · obtain ⟨rfl, rfl⟩ := Prod.mk.inj heq
      exact Or.inl ⟨rfl, isSome_of_eq_some hbind⟩
    · exact Or.inr (mem_map.mpr ⟨(key, binding),
        mem_filterMap.mpr ⟨(key, found), hold, hfd⟩, rfl⟩)

/-- The innermost frame does not come to assign the name. -/
structure Spares (x : String) (scope scope' : Scope) : Prop extends Local scope scope' where
  unassigned : x ∉ scope.assignedNames → x ∉ scope'.assignedNames

instance (x : String) : IsPreorder Scope (Spares x) where
  refl scope := ⟨refl_of Local scope, id⟩
  trans _ _ _ h h' :=
    ⟨trans_of Local h.toLocal h'.toLocal, fun hx => h'.unassigned (h.unassigned hx)⟩

theorem Steady.spares (h : scope.Steady scope') : scope.Spares x scope' :=
  ⟨h.isLocal, fun hx => h.bindings.assignedNames.symm ▸ hx⟩

theorem Steady.slot? (h : scope.Steady scope') : scope'.slot? x = scope.slot? x :=
  h.bindings.slot? x

theorem spares_bindAssigned (scope : Scope) (binding : Binding) (h : x ≠ other) :
    scope.Spares x ((scope.clearDeferred other).bindCurrent other (.assigned binding)) := by
  have hclear : scope.Steady (scope.clearDeferred other) :=
    ⟨scope.sameBindings_clearDeferred other, (scope.local_clearDeferred other).outside⟩
  refine trans_of (Spares x) hclear.spares ⟨local_bindCurrent _ _ _, fun hx hmem => ?_⟩
  exact (mem_assignedNames_bindCurrent hmem).elim (fun heq => h heq.1) hx

theorem spares_recordRefined (scope : Scope) (ty : Ty) :
    scope.Spares x (scope.recordRefined other ty) := by
  refine ⟨local_bindCurrent _ _ _, fun hx hmem => ?_⟩
  exact (mem_assignedNames_bindCurrent hmem).elim (fun heq => nomatch heq.2) hx

theorem Assigns.spares {names : List String} (h : scope.Assigns names scope') (hx : x ∉ names) :
    scope.Spares x scope' ∧ scope'.slot? x = scope.slot? x := by
  have hrecord : ∀ (scope : Scope) {name : String} (binding : Binding), name ∈ names →
      scope.Spares x ((scope.clearDeferred name).bindCurrent name (.assigned binding)) ∧
        ((scope.clearDeferred name).bindCurrent name (.assigned binding)).slot? x =
          scope.slot? x := by
    intro scope name binding hname
    have hne : x ≠ name := fun heq => hx (heq ▸ hname)
    exact ⟨scope.spares_bindAssigned binding hne, (slot?_bindCurrent _ _ hne).trans
      ((scope.sameBindings_clearDeferred name).slot? x)⟩
  induction h with
  | quiet h => exact ⟨h.toSteady.spares, h.toSteady.slot?⟩
  | plain scope ty hname => exact hrecord scope (.plain ty) hname
  | entity scope entity hname => exact hrecord scope (.entity entity) hname
  | trans _ _ ih ih' => exact ⟨trans_of (Spares x) ih.1 ih'.1, ih'.2.trans ih.2⟩

end Scope

namespace Lower

variable {ctx : LowerContext} {s t : LowerState} {x : String} {map : RefinementMap} {a : Unit}

theorem insertRefinements_spares : Keeps (Spares x) (insertRefinements map) := by
  refine .forM fun entry _ => .of_run fun ctx s a t hrun => ?_
  rcases narrow_scope hrun with ⟨hsc, -⟩ | ⟨hsc, -⟩
  · exact hsc ▸ refl_of (Spares x) s.scope
  · exact hsc ▸ s.scope.spares_recordRefined entry.2.ty

theorem side_spares {block : BlockId} {u v : LowerState} {frame : Frame}
    (href : insertRefinements map ctx (s.enter block) = .ok (a, u))
    (h : u.scope.Spares x v.scope) (hf : v.scope.current? = some frame) :
    x ∉ frame.definedNames := by
  have hinside := trans_of (Spares x) (insertRefinements_spares.run href) h
  have hempty : x ∉ (s.enter block).scope.assignedNames := not_mem_nil
  simpa [assignedNames, hf] using hinside.unassigned hempty

end Lower

/-! ## Branches in place -/

open Lower

mutual

/-- Lowering the statement narrows the variable in the frame around it: it is, or it comes in place
to, a branch whose outcome is known and whose test narrows the variable. -/
inductive Stmt.NarrowsInPlace (ctx : LowerContext) (x : String) : LowerState → Stmt → Prop
  | here {s s₁ : LowerState} {span : Span} {cond : Expr} {body orelse : List Stmt}
      {condition : Condition} {known : Bool}
      (hcond : cond.operand.condition ctx s = .ok (condition, s₁))
      (hknown : condition.known = some known) (hx : x ∈ (condition.refinements.on known).names) :
      NarrowsInPlace ctx x s (.branch span cond body orelse)
  | inside {s u : LowerState} {stmt : Stmt} {block : List Stmt} :
      stmt.Continues ctx s u block → Stmt.AnyNarrowsInPlace ctx x u block →
      NarrowsInPlace ctx x s stmt

inductive Stmt.AnyNarrowsInPlace (ctx : LowerContext) (x : String) : LowerState → List Stmt → Prop
  | first {s : LowerState} {stmt : Stmt} {rest : List Stmt} :
      Stmt.NarrowsInPlace ctx x s stmt → AnyNarrowsInPlace ctx x s (stmt :: rest)
  | later {s u : LowerState} {stmt : Stmt} {rest : List Stmt}
      (hrun : stmt.lower ctx s = .ok ((), u)) :
      AnyNarrowsInPlace ctx x u rest → AnyNarrowsInPlace ctx x s (stmt :: rest)

end

namespace Stmt

variable {ctx : LowerContext} {s t : LowerState} {x : String} {a : Unit} {narrows : Prop}

/-- Statements that leave a name unassigned and, unless they narrow it in place, as it was. -/
def Leaves (x : String) (s t : LowerState) (narrows : Prop) : Prop :=
  s.scope.Spares x t.scope ∧ (t.scope.slot? x = s.scope.slot? x ∨ narrows)

theorem leaves_of_steady (h : s.scope.Steady t.scope) : Leaves x s t narrows :=
  ⟨h.spares, Or.inl h.slot?⟩

theorem rounds_leaves {targets : List Expr} {span : Span} {body : List Stmt}
    (hx : x ∉ Expr.boundNamesAll targets) (hbody : ∀ s t, lowerAll body ctx s = .ok ((), t) →
      Leaves x s t (AnyNarrowsInPlace ctx x s body))
    (elems : List ValueId)
    (h : elems.forM (forRound targets span (lowerAll body)) ctx s = .ok (a, t)) :
    Leaves x s t (∃ before elem after u v, elems = before ++ elem :: after ∧
      before.forM (forRound targets span (lowerAll body)) ctx s = .ok ((), u) ∧
      assignTargets targets (.value elem) span ctx u = .ok ((), v) ∧
      AnyNarrowsInPlace ctx x v body) := by
  induction elems generalizing s with
  | nil =>
    obtain ⟨-, rfl⟩ := pure_ok h
    exact ⟨refl_of (Spares x) s.scope, Or.inl rfl⟩
  | cons elem rest ih =>
    obtain ⟨_, u, hround, hr⟩ := bind_ok h
    obtain ⟨_, v, htgts, hrun⟩ := bind_ok hround
    obtain ⟨hsp, hslot⟩ := (assignTargets_assigns.run htgts).spares hx
    obtain ⟨hspares', hbody'⟩ := hbody v u hrun
    obtain ⟨hspares'', hrest'⟩ := ih hr
    refine ⟨trans_of (Spares x) hsp (trans_of (Spares x) hspares' hspares''), ?_⟩
    rcases hbody' with hslot' | hnarr
    · rcases hrest' with hslot'' | ⟨before, other, after, u', v', rfl, hbef, hrest'⟩
      · exact Or.inl (hslot''.trans (hslot'.trans hslot))
      · refine Or.inr ⟨elem :: before, other, after, u', v', rfl, ?_, hrest'⟩
        exact bind_iff.mpr ⟨(), u, hround, hbef⟩
    · exact Or.inr ⟨[], elem, rest, s, v, rfl, rfl, htgts, hnarr⟩

mutual

theorem lower_leaves (stmt : Stmt) (hx : x ∉ stmt.boundNames) {s t : LowerState}
    (h : stmt.lower ctx s = .ok (a, t)) : Leaves x s t (NarrowsInPlace ctx x s stmt) := by
  cases stmt with
  | branch span cond body orelse =>
    rw [boundNames, mem_append, not_or] at hx
    rw [lower] at h
    have hcond : Keeps Quiet cond.operand.condition := .condition cond.lower_quiet
    cases branch_runs h with
    | @decided _ u _ condition known hcond' hknown href hside =>
      have hbef := (hcond.run hcond').toSteady
      have hsp : s.scope.Spares x u.scope :=
        trans_of (Spares x) hbef.spares (insertRefinements_spares.run href)
      have hside' : Leaves x u t (AnyNarrowsInPlace ctx x u (if known then body else orelse)) := by
        cases known with
        | true => exact lowerAll_leaves body hx.1 hside
        | false => exact lowerAll_leaves orelse hx.2 hside
      refine ⟨trans_of (Spares x) hsp hside'.1, ?_⟩
      by_cases hmem : x ∈ (condition.refinements.on known).names
      · exact Or.inr (.here hcond' hknown hmem)
      · refine hside'.2.imp (fun hslot => ?_) (.inside (.known hcond' hknown href))
        rw [hslot, insertRefinements_slot? hmem href, hbef.slot?]
    | «open» hopens hmerge =>
      have hsteady := hopens.steady hcond (lowerAll_local body) (lowerAll_local orelse)
      obtain ⟨-, -, -, hrefT, hbody, honTrue, hrefF, horelse, honFalse⟩ := hopens
      -- Neither frame assigns the name, so that it is not merged.
      have hmerged := (mergeSides_assigns.run hmerge).spares (mem_append.not.mpr (not_or.mpr
        ⟨side_spares hrefT (lowerAll_leaves body hx.1 hbody).1 honTrue,
          side_spares hrefF (lowerAll_leaves orelse hx.2 horelse).1 honFalse⟩))
      exact ⟨trans_of (Spares x) hsteady.spares hmerged.1, Or.inl (hmerged.2.trans hsteady.slot?)⟩
  | whileLoop span cond body =>
    rw [lower] at h
    exact leaves_of_steady
      ((loop_steady (operands_quiet cond) (fun _ => lowerAll_local body)).run h)
  | forLoop span targets iters body =>
    rw [boundNames, mem_append, not_or] at hx
    rw [lower] at h
    obtain ⟨iter, rfl, hruns⟩ := forLoop_runs h
    cases hruns with
    | unrolled hunr hrounds =>
      have hbef := hunr.quiet.toSteady
      obtain ⟨hsp, hslot⟩ :=
        rounds_leaves hx.1 (fun _ _ hrun => lowerAll_leaves body hx.2 hrun) _ hrounds
      refine ⟨trans_of (Spares x) hbef.spares hsp, ?_⟩
      rcases hslot with hslot | ⟨_, _, _, _, _, hsplit, hrun, htgts, hnarr⟩
      · exact Or.inl (hslot.trans hbef.slot?)
      · exact Or.inr (.inside (.round (hsplit ▸ hunr) hrun htgts) hnarr)
    | @looped _ _ prepared _ hiter hloop =>
      have hbef := hiter.quiet.toSteady
      have hround : ∀ elem, Keeps Local (forRound targets span (lowerAll body) elem) :=
        fun elem => forRound_local (lowerAll_local body)
      exact leaves_of_steady (trans_of Steady hbef
        ((loop_steady (by simp) fun counter => .bind (.item counter prepared) hround).run hloop))
  | _ =>
    obtain ⟨hspares, hslot⟩ := ((lower_assigns _ rfl).run h).spares hx
    exact ⟨hspares, Or.inl hslot⟩

theorem lowerAll_leaves (stmts : List Stmt) (hx : x ∉ boundNamesAll stmts) {s t : LowerState}
    (h : lowerAll stmts ctx s = .ok (a, t)) : Leaves x s t (AnyNarrowsInPlace ctx x s stmts) := by
  cases stmts with
  | nil => exact leaves_of_steady (Keeps.pure.run h)
  | cons stmt rest =>
    rw [boundNamesAll, mem_append, not_or] at hx
    obtain ⟨u, hstmt, hr⟩ := lowerAll_cons_ok h
    obtain ⟨hsp, hfirst⟩ := lower_leaves stmt hx.1 hstmt
    obtain ⟨hspares', hlater⟩ := lowerAll_leaves rest hx.2 hr
    refine ⟨trans_of (Spares x) hsp hspares', ?_⟩
    rcases hfirst with hslot | hnarr
    · exact hlater.imp (fun hslot' => hslot'.trans hslot) (.later hstmt)
    · exact Or.inr (.first hnarr)

end

/-- A statement leaves the type of every variable that it does not assign, unless it narrows the
variable in place. -/
theorem lower_keeps_type {stmt : Stmt} (h : stmt.lower ctx s = .ok (a, t))
    (hx : x ∉ stmt.boundNames) :
    t.scope.typeOf? x = s.scope.typeOf? x ∨ stmt.NarrowsInPlace ctx x s := by
  obtain ⟨hspares, hslot⟩ := lower_leaves stmt hx h
  exact hslot.imp_left hspares.kept.typeOf?

end Stmt

/-! ## A refinement that lasts -/

/-- `if isinstance(y, int) or x is not None: pass` -/
def knownTest : Stmt :=
  .branch .null (.binary .null .or
      (.call .null (.var .null "isinstance") [.var .null "y", .var .null "int"] [])
      (.binary .null .isNot (.var .null "x") (.const .null .nothing))) [.pass .null] []

/-- The parameters `x: Optional[int]` and `y: int` of a function. -/
def optionalParams : Lower (List (String × Ty)) :=
  [⟨⟨"x", .null⟩, some (.subscript .null (.var .null "Optional") [.var .null "int"])⟩,
    ⟨⟨"y", .null⟩, some (.var .null "int")⟩].mapM (declareParam Graph.root)

/-- The first operand decides that the test holds, and the second says that `x` is not `None`. -/
theorem knownTest_runs :
    ∃ params s, optionalParams .bare (.start (.start "f" none)) = .ok (params, s) ∧
      ∃ a t, knownTest.lower .bare s = .ok (a, t) ∧
        (s.scope.typeOf? "x").map Ty.render = some "Optional[int]" ∧
        (t.scope.typeOf? "x").map Ty.render = some "int" := by
  decide +kernel

theorem knownTest_outlives :
    ∃ params s, optionalParams .bare (.start (.start "f" none)) = .ok (params, s) ∧
      ∃ a t, knownTest.lower .bare s = .ok (a, t) ∧ "x" ∉ knownTest.boundNames ∧
        t.scope.typeOf? "x" ≠ s.scope.typeOf? "x" := by
  obtain ⟨params, s, hparams, a, t, hrun, hbefore, hafter⟩ := knownTest_runs
  exact ⟨params, s, hparams, a, t, hrun, by decide, fun heq => by simp [heq, hbefore] at hafter⟩

theorem knownTest_narrowsInPlace :
    ∃ params s, optionalParams .bare (.start (.start "f" none)) = .ok (params, s) ∧
      knownTest.NarrowsInPlace .bare "x" s := by
  obtain ⟨params, s, hparams, a, t, hrun, hbefore, hafter⟩ := knownTest_runs
  refine ⟨params, s, hparams, ?_⟩
  exact (Stmt.lower_keeps_type hrun (by decide)).resolve_left fun heq => by
    simp [heq, hbefore] at hafter

end Flowgraph
