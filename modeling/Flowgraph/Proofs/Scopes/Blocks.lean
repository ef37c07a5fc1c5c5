import Flowgraph.Proofs.Scopes.Statements

/-!
# The statements inside a statement

Where lowering a statement comes to the statements inside it.  The side of a branch whose outcome is
known and the rounds of a loop over a tuple are lowered in place (`Stmt.Continues`), the other
blocks in a frame of their own (`Stmt.Opens`).

A frame that assigns a name goes on to do so, except that a branch in place may narrow the name, and
then its assignment is forgotten (`Stmt.lower_holds`).
-/

namespace Flowgraph

open List RefinementMap

open Lower

/-! ## Coming to a block -/

/-- Lowering the statement from the first state, the block is lowered from the second state, in the
same frame. -/
inductive Stmt.Continues (ctx : LowerContext) : Stmt → LowerState → LowerState → List Stmt → Prop
  | known {s s₁ u : LowerState} {span : Span} {cond : Expr} {body orelse : List Stmt}
      {condition : Condition} {known : Bool}
      (hcond : cond.operand.condition ctx s = .ok (condition, s₁))
      (hknown : condition.known = some known)
      (hrefine : insertRefinements (condition.refinements.on known) ctx s₁ = .ok ((), u)) :
      Continues ctx (.branch span cond body orelse) s u (if known then body else orelse)
  | round {s s₁ u v : LowerState} {span : Span} {targets : List Expr} {iter : Expr}
      {body : List Stmt} {before after : List ValueId} {elem : ValueId}
      (hunrolls : Unrolls ctx iter span s (before ++ elem :: after) s₁)
      (hbefore : before.forM (forRound targets span (Stmt.lowerAll body)) ctx s₁ = .ok ((), u))
      (htargets : assignTargets targets (.value elem) span ctx u = .ok ((), v)) :
      Continues ctx (.forLoop span targets [iter] body) s v body

/-- Lowering the statement from the first state, the block is lowered from the second state, in a
frame of its own.  The statements `aside` were lowered before it, but do not run before it. -/
inductive Stmt.Opens (ctx : LowerContext) :
    Stmt → List Stmt → LowerState → LowerState → List Stmt → Prop
  | onTrue {s s₁ s₂ u : LowerState} {span : Span} {cond : Expr} {body orelse : List Stmt}
      {condition : Condition} {branching : Branching}
      (hcond : cond.operand.condition ctx s = .ok (condition, s₁)) (hknown : condition.known = none)
      (hinsert : insertBranching condition.value span ctx s₁ = .ok (branching, s₂))
      (hrefine : insertRefinements condition.refinements.onTrue ctx (s₂.enter branching.onTrue) =
        .ok ((), u)) : Opens ctx (.branch span cond body orelse) [] s u body
  | onFalse {s s₁ s₂ u v w : LowerState} {span : Span} {cond : Expr} {body orelse : List Stmt}
      {condition : Condition} {branching : Branching}
      (hcond : cond.operand.condition ctx s = .ok (condition, s₁)) (hknown : condition.known = none)
      (hinsert : insertBranching condition.value span ctx s₁ = .ok (branching, s₂))
      (hrefineTrue : insertRefinements condition.refinements.onTrue ctx
        (s₂.enter branching.onTrue) = .ok ((), u)) (hbody : Stmt.lowerAll body ctx u = .ok ((), v))
      (hrefine : insertRefinements condition.refinements.onFalse ctx
        ((v.leave s₂.point).enter branching.onFalse) = .ok ((), w)) :
      Opens ctx (.branch span cond body orelse) body s w orelse
  | whileBody {s s₁ u : LowerState} {span : Span} {cond : Option Expr} {body : List Stmt}
      {n : NodeId} {block : BlockId} {counter : ValueId} {map : RefinementMap}
      (hopen : openLoop none (cond.map Expr.operand) span ctx s =
        .ok ((n, block, counter, map), s₁))
      (hrefine : insertRefinements map ctx ((s₁.enter block).enterLoop .loop) = .ok ((), u)) :
      Opens ctx (.whileLoop span cond body) [] s u body
  | forBody {s s₁ s₂ u v w : LowerState} {span : Span} {targets : List Expr} {iter : Expr}
      {body : List Stmt} {prepared : Entity} {trip counter elem : ValueId} {n : NodeId}
      {block : BlockId} {map : RefinementMap}
      (hiterates : Iterates ctx iter span s prepared trip s₁)
      (hopen : openLoop (some trip) none span ctx s₁ = .ok ((n, block, counter, map), s₂))
      (hrefine : insertRefinements map ctx ((s₂.enter block).enterLoop .loop) = .ok ((), u))
      (hitem : item span counter prepared ctx u = .ok (elem, v))
      (htargets : assignTargets targets (.value elem) span ctx v = .ok ((), w)) :
      Opens ctx (.forLoop span targets [iter] body) [] s w body

/-! ## Tested names -/

/-- The variables that a test compares with `None`. -/
def Expr.testedNames : Expr → List String
  | .binary _ .is lhs rhs | .binary _ .isNot lhs rhs => (testedForNone? lhs rhs).toList
  | .binary _ .and lhs rhs | .binary _ .or lhs rhs => lhs.testedNames ++ rhs.testedNames
  | .unary _ .not operand => operand.testedNames
  | _ => []

mutual

/-- The variables that branches compare with `None`, nested definitions left aside. -/
def Stmt.testedNames : Stmt → List String
  | .branch _ cond body orelse =>
    cond.testedNames ++ Stmt.testedNamesAll body ++ Stmt.testedNamesAll orelse
  | .whileLoop _ _ body | .forLoop _ _ _ body => Stmt.testedNamesAll body
  | _ => []

def Stmt.testedNamesAll : List Stmt → List String
  | [] => []
  | stmt :: rest => stmt.testedNames ++ Stmt.testedNamesAll rest

end

theorem RefinementMap.names_intersect (a b : RefinementMap) : (a.intersect b).names ⊆ a.names := by
  intro name hname
  obtain ⟨⟨_, narrowing⟩, he, rfl⟩ := mem_map.mp hname
  obtain ⟨ours, -, hours, -⟩ := mem_intersect he
  exact mem_map.mpr ⟨_, hours, rfl⟩

theorem RefinementMap.names_union (a b : RefinementMap) :
    (a.union b).names ⊆ a.names ++ b.names := by
  intro name hname
  obtain ⟨⟨_, narrowing⟩, he, rfl⟩ := mem_map.mp hname
  rcases mem_union he with ⟨hours, -⟩ | ⟨htheirs, -⟩ | ⟨ours, -, hours, -⟩
  · exact mem_append_left _ (mem_map_of_mem hours)
  · exact mem_append_right _ (mem_map_of_mem htheirs)
  · exact mem_append_left _ (mem_map.mpr ⟨_, hours, rfl⟩)

theorem Refinements.names_ofIdentity (typeOf : String → Option Ty) (isNone outcome : Bool)
    (lhs rhs : Expr) : ((Refinements.ofIdentity typeOf isNone lhs rhs).on outcome).names ⊆
      (Expr.testedForNone? lhs rhs).toList := by
  rcases Expr.ofIdentity_eq typeOf isNone lhs rhs with ⟨name, span, htested, heq⟩ | ⟨-, heq⟩
  · rw [heq, htested, Refinements.ofNoneTest]
    have hsingle : ∀ ty, (single name ty span).names = [name] := fun _ => rfl
    split
    · cases isNone <;> cases outcome <;> simp [Refinements.on, hsingle]
    · cases outcome <;> exact nil_subset _
  · rw [heq]
    cases outcome <;> exact nil_subset _

theorem Expr.names_refinements (typeOf : String → Option Ty) (expr : Expr) (outcome : Bool) :
    ((expr.refinements typeOf).on outcome).names ⊆ expr.testedNames := by
  have hboth : ∀ {a b as bs : List String}, a ⊆ as → b ⊆ bs → a ++ b ⊆ as ++ bs := fun ha hb =>
    append_subset.mpr ⟨subset_append_of_subset_left _ ha, subset_append_of_subset_right _ hb⟩
  induction expr using Expr.refinements.induct generalizing outcome with
  | case1 span lhs rhs | case2 span lhs rhs =>
    exact Refinements.names_ofIdentity typeOf _ outcome lhs rhs
  | case3 span lhs rhs ihl ihr =>
    cases outcome with
    | true => exact Subset.trans (names_intersect _ _) (subset_append_of_subset_left _ (ihl true))
    | false => exact Subset.trans (names_union _ _) (hboth (ihl false) (ihr false))
  | case4 span lhs rhs ihl ihr =>
    cases outcome with
    | true => exact Subset.trans (names_union _ _) (hboth (ihl true) (ihr true))
    | false => exact Subset.trans (names_intersect _ _) (subset_append_of_subset_left _ (ihl false))
  | case5 span operand ih =>
    cases outcome with
    | true => exact ih false
    | false => exact ih true
  | case6 expr his hisNot hand hor hnot =>
    rw [refinements] <;> first | (cases outcome <;> exact nil_subset _) | assumption

namespace Lower

variable {ctx : LowerContext} {s t u : LowerState} {x : String} {map : RefinementMap} {a : Unit}
  {condition : Condition}

theorem condition_refinements {operand : Operand}
    (h : operand.condition ctx s = .ok (condition, t)) :
    condition.refinements = operand.expr.refinements s.scope.typeOf? := by
  replace h := getScope_run h
  split at h
  · obtain ⟨_, _, -, h⟩ := bind_ok h
    obtain ⟨_, _, -, h⟩ := bind_ok h
    rw [← (pure_ok h).1]
  · obtain ⟨_, _, -, h⟩ := bind_ok h
    split at h
    · obtain ⟨_, _, -, h⟩ := bind_ok h
      obtain ⟨_, _, -, h⟩ := bind_ok h
      rw [← (pure_ok h).1]
    · obtain ⟨_, _, -, h⟩ := bind_ok h
      rw [← (pure_ok h).1]

theorem insertRefinements_slot? (hx : x ∉ map.names)
    (h : insertRefinements map ctx s = .ok (a, t)) : t.scope.slot? x = s.scope.slot? x := by
  have hes : ∀ (entries : List (String × Narrowing)) {s a t}, x ∉ entries.map Prod.fst →
      entries.forM (fun entry => narrow entry.1 entry.2) ctx s = .ok (a, t) →
      t.scope.slot? x = s.scope.slot? x := by
    intro entries
    induction entries with
    | nil =>
      intro s a t _ hrun
      obtain ⟨-, rfl⟩ := pure_ok hrun
      rfl
    | cons entry rest ih =>
      intro s a t hx hrun
      obtain ⟨hne, hr⟩ := ne_and_not_mem_of_not_mem_cons hx
      obtain ⟨_, u, hnarrow, hrun⟩ := bind_ok hrun
      refine (ih hr hrun).trans ?_
      rcases narrow_scope hnarrow with ⟨hsc, -⟩ | ⟨hsc, -⟩
      · rw [hsc]
      · rw [hsc]
        exact Scope.slot?_bindCurrent _ _ hne
  exact hes map.entries hx h

theorem refine_tracks {cond : Expr} {outcome : Bool} (hx : x ∉ cond.testedNames)
    (hcond : cond.operand.condition ctx s = .ok (condition, t))
    (href : insertRefinements (condition.refinements.on outcome) ctx t = .ok (a, u)) :
    s.scope.Tracks x u.scope := by
  have hq : Keeps Scope.Quiet cond.operand.condition := .condition cond.lower_quiet
  have hnarr := insertRefinements_narrows.run href
  have hslot : u.scope.slot? x = t.scope.slot? x := by
    refine insertRefinements_slot? (fun hmem => hx ?_) href
    rw [condition_refinements hcond] at hmem
    exact cond.names_refinements _ outcome hmem
  refine trans_of (Scope.Tracks x) (hq.run hcond).tracks
    ⟨⟨hnarr.toLocal, fun ⟨binding, hbind⟩ => ⟨binding, hslot.trans hbind⟩⟩,
      fun hfind hpend => Or.inl ?_⟩
  exact (hnarr.unfound x hfind).imp_right fun hkeep => hkeep hpend

end Lower

/-! ## Assignments last -/

namespace Stmt

variable {x : String}

mutual

theorem lower_holds (stmt : Stmt) (hx : x ∉ stmt.testedNames) :
    Keeps (Scope.Holds x) stmt.lower := by
  refine .of_run fun ctx s a t h => ?_
  cases stmt with
  | branch span cond body orelse =>
    simp only [testedNames, mem_append, not_or] at hx
    obtain ⟨⟨hcond, hbody⟩, horelse⟩ := hx
    rw [Stmt.lower] at h
    have hq : Keeps Scope.Quiet cond.operand.condition := .condition cond.lower_quiet
    cases branch_runs h with
    | @decided _ u _ _ known hcond' _ href hside =>
      refine trans_of (Scope.Holds x) (refine_tracks hcond hcond' href).toHolds ?_
      cases known with
      | true => exact (lowerAll_holds body hbody).run hside
      | false => exact (lowerAll_holds orelse horelse).run hside
    | «open» hopens hmerge =>
      have hsteady := hopens.steady hq (lowerAll_local body) (lowerAll_local orelse)
      exact trans_of (Scope.Holds x) hsteady.holds (mergeSides_assigns.run hmerge).tracks.toHolds
  | whileLoop span cond body =>
    rw [Stmt.lower] at h
    exact ((loop_steady (operands_quiet cond) (fun _ => lowerAll_local body)).run h).holds
  | forLoop span targets iters body =>
    rw [Stmt.lower] at h
    obtain ⟨iter, rfl, hruns⟩ := forLoop_runs h
    refine hruns.keeps (fun _ _ hq => hq.toSteady.holds) (fun _ => ?_) fun _ prepared => ?_
    · exact .forM fun elem _ => .bind (assignTargets_assigns.mono fun _ _ hassigns =>
        hassigns.tracks.toHolds) fun _ => lowerAll_holds body hx
    · exact (loop_steady (by simp) fun counter => .bind (.item counter prepared) fun _ =>
        forRound_local (lowerAll_local body)).mono fun _ _ hsteady => hsteady.holds
  | _ => exact ((lower_assigns _ rfl).run h).tracks.toHolds

theorem lowerAll_holds (stmts : List Stmt) (hx : x ∉ testedNamesAll stmts) :
    Keeps (Scope.Holds x) (lowerAll stmts) := by
  cases stmts with
  | nil => exact .pure
  | cons stmt rest =>
    rw [testedNamesAll, mem_append, not_or] at hx
    refine .of_run fun ctx s a t h => ?_
    obtain ⟨u, hstmt, hr⟩ := lowerAll_cons_ok h
    exact trans_of (Scope.Holds x) ((lower_holds stmt hx.1).run hstmt)
      ((lowerAll_holds rest hx.2).run hr)

end

end Stmt

/-! ## Names of the body itself -/

namespace Scope

variable {name : String} {scope scope' : Scope} {b : BlockId} {closure : Option NodeId}

/-- One of the frames assigns the name, up to the first one that starts a body. -/
def AssignedIn (name : String) : List Frame → Prop
  | [] => False
  | frame :: outer =>
    (frame.assigned? name).isSome ∨ (frame.startsBody = false ∧ AssignedIn name outer)

/-- The current body assigns the name. -/
def Owns (scope : Scope) (name : String) : Prop :=
  AssignedIn name scope.frames

theorem assignedIn_map_core (frames : List Frame) :
    AssignedIn name (frames.map Frame.core) ↔ AssignedIn name frames := by
  induction frames with
  | nil => rfl
  | cons frame outer ih => simp [AssignedIn, Frame.assigned?, Frame.core, ← ih]

theorem assignedIn_core {frames frames' : List Frame}
    (h : frames'.map Frame.core = frames.map Frame.core) :
    AssignedIn name frames' ↔ AssignedIn name frames := by
  rw [← assignedIn_map_core, h, assignedIn_map_core]

theorem SameBindings.owns (h : scope.SameBindings scope') : scope'.Owns name ↔ scope.Owns name :=
  assignedIn_core h

theorem AssignedHere.owns (h : scope.AssignedHere name) : scope.Owns name := by
  obtain ⟨frames⟩ := scope
  obtain ⟨frame, hf⟩ := h.current?
  obtain ⟨binding, hbind⟩ := h.assigned? hf
  obtain ⟨outer, rfl⟩ : ∃ outer, frames = frame :: outer := head?_eq_some_iff.mp hf
  exact Or.inl (Option.isSome_of_eq_some hbind)

theorem Holds.owns (h : scope.Holds name scope') (howns : scope.Owns name) : scope'.Owns name := by
  obtain ⟨frames⟩ := scope
  obtain ⟨frames'⟩ := scope'
  cases frames with
  | nil => exact howns.elim
  | cons frame outer =>
    obtain ⟨frame', outer', rfl, hshell, -⟩ := map_eq_cons_iff.mp h.kept.shells
    have hstarts : frame'.shell.startsBody = frame.shell.startsBody :=
      congrArg Frame.startsBody hshell
    simp only [Frame.shell] at hstarts
    rcases howns with hhere | ⟨hinside, houter⟩
    · have hasgn : (⟨frame :: outer⟩ : Scope).AssignedHere name :=
        (assignedHere_iff rfl).mpr (Option.isSome_iff_exists.mp hhere)
      exact (h.assigned hasgn).owns
    · exact Or.inr ⟨hstarts.trans hinside, (assignedIn_core h.kept.outer).mpr houter⟩

theorem Local.owns_of_push (h : (scope.push b false closure).Local scope')
    (howns : scope.Owns name) : scope'.Owns name := by
  obtain ⟨frames'⟩ := scope'
  obtain ⟨frame', outer', rfl, hshell, -⟩ := map_eq_cons_iff.mp h.kept.shells
  have hstarts : frame'.startsBody = false := congrArg Frame.startsBody hshell
  exact Or.inr ⟨hstarts, (assignedIn_core h.kept.outer).mpr howns⟩

theorem Owns.found (h : scope.Owns name) : (findWithinBody name scope.frames).isSome := by
  have hfs : ∀ frames, AssignedIn name frames → (findWithinBody name frames).isSome := by
    intro frames
    induction frames with
    | nil => exact False.elim
    | cons frame outer ih =>
      intro h
      rw [findWithinBody]
      split
      next => rfl
      next hnone =>
        rcases h with hhere | ⟨hinside, houter⟩
        · obtain ⟨binding, hbind⟩ := Option.isSome_iff_exists.mp hhere
          simp [Frame.get?, assigned?_eq_some.mp hbind] at hnone
        · rw [hinside]
          exact ih houter
  exact hfs scope.frames h

end Scope

end Flowgraph
