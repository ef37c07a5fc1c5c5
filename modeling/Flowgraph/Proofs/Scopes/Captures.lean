import Flowgraph.Proofs.Scopes.Blocks
import Flowgraph.Proofs.Scopes.Targets
import Mathlib.Logic.Relation

/-!
# Reads after an assignment

A name that the body of a closure does not assign is read outside, where it is captured once and for
all.  After an assignment of the body itself such a read would be stale.

`Stmt.Visits` says where the control paths through a body come, and whether the body has assigned
the name on the way.  A frame that assigns the name is found before anything outside the body
(`Scope.Owns`), and merging hands assignments on to the frame outside.
-/

namespace Flowgraph

open Scope Stmt

variable {ctx : LowerContext} {s v : LowerState}

open Lower

variable {targets : List Expr} {path : LowerState → Bool → Exit → Bool → Prop} {names : List String}
  {elems : List ValueId} {target loop : Stmt} {x : String} {stmt : Stmt} {u t : LowerState}

/-! ## Control paths -/

/-- How a control path leaves a statement: past its end, out of the loop around it, or on to the
next round of that loop.  A path that returns or raises ends. -/
inductive Exit where
  | done
  | left
  | next

def Stmt.isLoop : Stmt → Bool
  | .whileLoop .. | .forLoop .. => true
  | _ => false

/-- The names that a loop assigns at the start of each round. -/
def Stmt.loopTargets : Stmt → List String
  | .forLoop _ targets _ _ => Expr.boundNamesAll targets
  | _ => []

/-- Lowering the statement comes to the block, in place or in a frame of its own. -/
def Stmt.Enters (ctx : LowerContext) (stmt : Stmt) (s u : LowerState) (block : List Stmt) : Prop :=
  stmt.Continues ctx s u block ∨ ∃ aside, stmt.Opens ctx aside s u block

/-- Any number of rounds of a loop in a frame of its own, along paths through its body.  The flags
say whether `x` was assigned before and after. -/
def Rounds (ctx : LowerContext) (x : String) (loop : Stmt) (body : List Stmt) (s : LowerState)
    (path : LowerState → Bool → Exit → Bool → Prop) : Bool → Bool → Prop :=
  Relation.ReflTransGen fun before after => ∃ u exit,
    loop.Opens ctx [] s u body ∧ path u (before || loop.loopTargets.contains x) exit after

/-- The rounds of a loop over a tuple, one after the other in the same frame. -/
def Turns (ctx : LowerContext) (x : String) (targets : List Expr) (span : Span) (body : Lower Unit)
    (path : LowerState → Bool → Exit → Bool → Prop) :
    List ValueId → LowerState → Bool → LowerState → Bool → Prop
  | [], s, before, t, after => t = s ∧ after = before
  | elem :: rest, s, before, t, after => ∃ v u middle,
    assignTargets targets (.value elem) span ctx s = .ok ((), v) ∧
    path v (before || (Expr.boundNamesAll targets).contains x) .done middle ∧
    body ctx v = .ok ((), u) ∧ Turns ctx x targets span body path rest u middle t after

mutual

/-- A control path through a statement that is lowered from a state.  The flags say whether `x` was
assigned before and after. -/
def Stmt.Path (ctx : LowerContext) (x : String) : Stmt → LowerState → Bool → Exit → Bool → Prop
  | .branch span cond body orelse, s, before, exit, after =>
    (∃ u, (branch span cond body orelse).Enters ctx s u body ∧
      PathAll ctx x body u before exit after) ∨
    ∃ u, (branch span cond body orelse).Enters ctx s u orelse ∧
      PathAll ctx x orelse u before exit after
  | .whileLoop span cond body, s, before, exit, after =>
    exit = .done ∧ Rounds ctx x (.whileLoop span cond body) body s (PathAll ctx x body) before after
  | .forLoop span targets iters body, s, before, exit, after =>
    exit = .done ∧
      (Rounds ctx x (.forLoop span targets iters body) body s (PathAll ctx x body) before after ∨
        ∃ iter elems u t, iters = [iter] ∧ Unrolls ctx iter span s elems u ∧
          Turns ctx x targets span (lowerAll body) (PathAll ctx x body) elems u before t after)
  | .leave _, _, before, exit, after => exit = .left ∧ after = before
  | .next _, _, before, exit, after => exit = .next ∧ after = before
  | .ret .., _, _, _, _ | .raise .., _, _, _, _ => False
  | stmt, _, before, exit, after => exit = .done ∧ after = (before || stmt.boundNames.contains x)

def Stmt.PathAll (ctx : LowerContext) (x : String) :
    List Stmt → LowerState → Bool → Exit → Bool → Prop
  | [], _, before, exit, after => exit = .done ∧ after = before
  | stmt :: rest, s, before, exit, after =>
    (∃ u middle, Path ctx x stmt s before .done middle ∧ stmt.lower ctx s = .ok ((), u) ∧
      PathAll ctx x rest u middle exit after) ∨
    (exit ≠ .done ∧ Path ctx x stmt s before exit after)

end

/-- A control path through the statements comes to the statement `target`, which is lowered from the
state `u`.  The condition of a loop is come to again after every round. -/
inductive Stmt.Visits (ctx : LowerContext) (x : String) :
    List Stmt → LowerState → Bool → Stmt → LowerState → Bool → Prop
  | here {stmt : Stmt} {rest : List Stmt} {s : LowerState} {flag : Bool} :
      Visits ctx x (stmt :: rest) s flag stmt s flag
  | later {stmt target : Stmt} {rest : List Stmt} {s t u : LowerState} {before middle after : Bool}
      (hpath : stmt.Path ctx x s before .done middle) (hrun : stmt.lower ctx s = .ok ((), t))
      (hrest : Visits ctx x rest t middle target u after) :
      Visits ctx x (stmt :: rest) s before target u after
  | side {span : Span} {cond : Expr} {body orelse block rest : List Stmt} {s u v : LowerState}
      {target : Stmt} {before after : Bool}
      (henters : (branch span cond body orelse).Enters ctx s u block)
      (hblock : Visits ctx x block u before target v after) :
      Visits ctx x (.branch span cond body orelse :: rest) s before target v after
  | round {loop target : Stmt} {body rest : List Stmt} {s u v : LowerState}
      {before middle after : Bool} (hloop : loop.isLoop)
      (hrounds : Rounds ctx x loop body s (PathAll ctx x body) before middle)
      (hopens : loop.Opens ctx [] s u body)
      (hbody : Visits ctx x body u (middle || loop.loopTargets.contains x) target v after) :
      Visits ctx x (loop :: rest) s before target v after
  | again {span : Span} {cond : Expr} {body rest : List Stmt} {s s₁ u v w : LowerState} {n : NodeId}
      {block next : BlockId} {counter : ValueId} {map : RefinementMap} {before after : Bool}
      (hrounds : Rounds ctx x (.whileLoop span (some cond) body) body s (PathAll ctx x body)
        before after)
      (hopen : openLoop none (some cond.operand) span ctx s = .ok ((n, block, counter, map), s₁))
      (hrefine : insertRefinements map ctx ((s₁.enter block).enterLoop .loop) = .ok ((), u))
      (hbody : lowerAll body ctx u = .ok ((), v))
      (hnext : addBlock n ctx (v.leaveLoop.leave s₁.point) = .ok (next, w)) :
      Visits ctx x (.whileLoop span (some cond) body :: rest) s before (.eval span cond)
        (w.enter next) after
  | turn {span : Span} {targets : List Expr} {iter : Expr} {body rest : List Stmt}
      {s s₁ u v w : LowerState} {done todo : List ValueId} {elem : ValueId} {target : Stmt}
      {before middle after : Bool} (hunrolls : Unrolls ctx iter span s (done ++ elem :: todo) s₁)
      (hturns : Turns ctx x targets span (lowerAll body) (PathAll ctx x body) done s₁ before
        u middle) (htargets : assignTargets targets (.value elem) span ctx u = .ok ((), v))
      (hbody :
        Visits ctx x body v (middle || (Expr.boundNamesAll targets).contains x) target w after) :
      Visits ctx x (.forLoop span targets [iter] body :: rest) s before target w after

theorem Stmt.Visits.append {rest : List Stmt} {before after : Bool}
    (h : Visits ctx x [stmt] s before target u after) :
    Visits ctx x (stmt :: rest) s before target u after := by
  cases h with
  | here => exact .here
  | later _ _ hr => cases hr
  | side hent hb => exact .side hent hb
  | round hloop hrounds hopens hbody => exact .round hloop hrounds hopens hbody
  | again hrounds hopen href hbody hnext => exact .again hrounds hopen href hbody hnext
  | turn hunr hturns htgts hbody => exact .turn hunr hturns htgts hbody

/-- On the way through a statement: some expressions have been lowered and some targets assigned,
and blocks of an expression have been entered. -/
inductive Evaluates (ctx : LowerContext) (x : String) : LowerState → Bool → LowerState → Bool → Prop
  | refl (s : LowerState) (flag : Bool) : Evaluates ctx x s flag s flag
  | built {α : Type} {steps : Build α} {a : α} {s t : LowerState} {flag : Bool} :
      build steps ctx s = .ok (a, t) → Evaluates ctx x s flag t flag
  | expr {expr : Expr} {hint : Option Ty} {outcome : Outcome} {s t : LowerState} {flag : Bool} :
      expr.lower hint ctx s = .ok (outcome, t) → Evaluates ctx x s flag t flag
  | target {target : Expr} {entity : Entity} {span : Span} {s t : LowerState} {flag : Bool} :
      target.assign entity span ctx s = .ok ((), t) →
      Evaluates ctx x s flag t (flag || target.boundNames.contains x)
  | block {block : BlockId} {map : RefinementMap} {s t : LowerState} {flag : Bool} :
      insertRefinements map ctx (s.enter block) = .ok ((), t) → Evaluates ctx x s flag t flag
  | trans {s t u : LowerState} {before middle after : Bool} :
      Evaluates ctx x s before t middle → Evaluates ctx x t middle u after →
      Evaluates ctx x s before u after

/-! ## What paths assign -/

section

variable {ctx : LowerContext} {x : String} {before after : Bool} {exit : Exit}

theorem or_contains : (before || names.contains x) = true ↔ before = true ∨ x ∈ names := by
  simp

section

variable (hpath : ∀ {u start exit after}, path u start exit after →
    after = true → start = true ∨ x ∈ names)
include hpath

theorem Rounds.flag {body : List Stmt} {s : LowerState}
    (h : Rounds ctx x loop body s path before after) (hafter : after = true) :
    before = true ∨ (x ∈ loop.loopTargets ++ names ∧ ∃ u, loop.Opens ctx [] s u body) := by
  induction h with
  | refl => exact .inl hafter
  | tail _ hround ih =>
    obtain ⟨u, exit, hopens, hbody⟩ := hround
    rcases hpath hbody hafter with hstart | hx
    · rcases or_contains.mp hstart with hmid | htgt
      · exact ih hmid
      · exact .inr ⟨List.mem_append_left _ htgt, u, hopens⟩
    · exact .inr ⟨List.mem_append_right _ hx, u, hopens⟩

theorem Turns.flag {span : Span} {body : Lower Unit} (elems : List ValueId)
    {s : LowerState} (h : Turns ctx x targets span body path elems s before t after)
    (hafter : after = true) : before = true ∨ x ∈ Expr.boundNamesAll targets ++ names := by
  induction elems generalizing s before with
  | nil => exact .inl (h.2 ▸ hafter)
  | cons elem rest ih =>
    obtain ⟨v, u, middle, -, hbody, -, hr⟩ := h
    rcases ih hr with hmid | hx
    · rcases hpath hbody hmid with hstart | hx
      · exact (or_contains.mp hstart).imp_right (List.mem_append_left _)
      · exact .inr (List.mem_append_right _ hx)
    · exact .inr hx

end

mutual

theorem Stmt.Path.flag {stmt : Stmt} {s : LowerState} {before after : Bool} {exit : Exit}
    (h : stmt.Path ctx x s before exit after) (hafter : after = true) :
    before = true ∨ x ∈ stmt.boundNames := by
  cases stmt with
  | branch span cond body orelse =>
    rw [Path] at h
    rw [boundNames, List.mem_append]
    rcases h with ⟨u, -, h⟩ | ⟨u, -, h⟩
    · exact (PathAll.flag h hafter).imp_right .inl
    · exact (PathAll.flag h hafter).imp_right .inr
  | whileLoop span cond body =>
    rw [Path] at h
    exact (h.2.flag (fun hbody => PathAll.flag hbody) hafter).imp_right And.left
  | forLoop span targets iters body =>
    rw [Path] at h
    rw [boundNames]
    rcases h.2 with hrounds | ⟨_, elems, _, _, _, _, hturns⟩
    · exact (hrounds.flag (fun hbody => PathAll.flag hbody) hafter).imp_right And.left
    · exact hturns.flag (fun hbody => PathAll.flag hbody) elems hafter
  | leave | next =>
    rw [Path] at h
    exact .inl (h.2 ▸ hafter)
  | ret | raise => exact h.elim
  | _ => exact or_contains.mp (h.2 ▸ hafter)

theorem Stmt.PathAll.flag {stmts} {s : LowerState} {before after : Bool} {exit : Exit}
    (h : PathAll ctx x stmts s before exit after) (hafter : after = true) :
    before = true ∨ x ∈ boundNamesAll stmts := by
  cases stmts with
  | nil => exact .inl (h.2 ▸ hafter)
  | cons stmt rest =>
    rw [PathAll] at h
    rw [boundNamesAll, List.mem_append]
    rcases h with ⟨u, middle, hstmt, -, hr⟩ | ⟨-, hstmt⟩
    · rcases PathAll.flag hr hafter with hmid | hx
      · exact (Path.flag hstmt hmid).imp_right .inl
      · exact .inr (.inr hx)
    · exact (Path.flag hstmt hafter).imp_right .inl

end

mutual

theorem Stmt.Path.alwaysRaises {stmt : Stmt} {s : LowerState} {before after : Bool}
    (h : stmt.Path ctx x s before .done after) : stmt.alwaysRaises = false := by
  cases stmt with
  | branch span cond body orelse =>
    rw [Path] at h
    rw [alwaysRaises, Bool.and_eq_false_iff]
    rcases h with ⟨u, -, h⟩ | ⟨u, -, h⟩
    · exact .inl (PathAll.lastAlwaysRaises h)
    · exact .inr (PathAll.lastAlwaysRaises h)
  | raise => exact h.elim
  | _ => rfl

theorem Stmt.PathAll.lastAlwaysRaises {stmts} {s : LowerState} {before after : Bool}
    (h : PathAll ctx x stmts s before .done after) : lastAlwaysRaises stmts = false := by
  match stmts with
  | [] => rfl
  | stmt :: rest =>
    rw [PathAll] at h
    obtain ⟨u, middle, hstmt, -, hr⟩ := h.resolve_right fun hexit => hexit.1 rfl
    cases rest with
    | nil => exact Path.alwaysRaises hstmt
    | cons next more =>
      show lastAlwaysRaises (next :: more) = false
      exact PathAll.lastAlwaysRaises hr

end

end

/-! ## Names from outside -/

namespace Scope

variable {scope scope' : Scope} {x : String} {b : BlockId}

/-- A function around the current body binds the name. -/
def BoundOutside (scope : Scope) (x : String) : Prop :=
  (findFrom x (outside scope.frames)).isSome

/-- A fault is deferred because the name means things of different kinds. -/
def Conflicts (scope : Scope) (x : String) : Prop :=
  ∃ span onTrue onFalse, scope.deferredInBody? x = some (.type span (.branchKinds x onTrue onFalse))

theorem Local.boundOutside (h : scope.Local scope') (hx : scope.BoundOutside x) :
    scope'.BoundOutside x := by
  rwa [BoundOutside, h.outside]

theorem BoundOutside.hasBody (h : scope.BoundOutside x) : scope.HasBody := by
  have hfs : ∀ frames : List Frame, (findFrom x (outside frames)).isSome →
      (frames.find? Frame.startsBody).isSome := by
    intro frames
    induction frames with
    | nil => simp [outside, findFrom]
    | cons frame outer ih => cases hstarts : frame.startsBody <;> simp_all [outside]
  exact hfs scope.frames h

theorem BoundOutside.found (h : scope.BoundOutside x) : (scope.find? x).isSome := by
  have hfs : ∀ frames : List Frame, (findFrom x (outside frames)).isSome →
      (findFrom x frames).isSome := by
    intro frames
    induction frames with
    | nil => exact id
    | cons frame outer ih =>
      intro h
      rw [findFrom]
      cases frame.get? x with
      | some binding => rfl
      | none =>
        rw [outside] at h
        split at h
        · exact h
        · exact ih h
  exact hfs scope.frames h

/-- A function around the current body binds the name; if the flag is set, the body assigned it. -/
structure Warrants (scope : Scope) (x : String) (assigned : Bool) : Prop where
  outside : scope.BoundOutside x
  owns : assigned = true → scope.Owns x

section

variable {assigned : Bool} (h : scope.Warrants x assigned)
include h

theorem Warrants.steady (hsteady : scope.Steady scope') : scope'.Warrants x assigned :=
  ⟨hsteady.isLocal.boundOutside h.outside, fun hflag => hsteady.bindings.owns.mpr (h.owns hflag)⟩

theorem Warrants.tracks (htr : scope.Tracks x scope') : scope'.Warrants x assigned :=
  ⟨htr.toLocal.boundOutside h.outside, fun hflag => htr.toHolds.owns (h.owns hflag)⟩

theorem Warrants.inside (hlocal : (scope.push b false none).Local scope') :
    scope'.Warrants x assigned :=
  ⟨hlocal.boundOutside h.outside, fun hflag => hlocal.owns_of_push (h.owns hflag)⟩

theorem Warrants.assign (htr : scope.Tracks x scope')
    (hassigns : x ∈ names → scope.HasBody → scope'.AssignedHere x) :
    scope'.Warrants x (assigned || names.contains x) := by
  refine ⟨(h.tracks htr).outside, fun hflag => ?_⟩
  rcases or_contains.mp hflag with hbef | hmem
  · exact (h.tracks htr).owns hbef
  · exact (hassigns hmem h.outside.hasBody).owns

end

/-- What the body assigned inside a block, if not before it, the frame of the block assigns. -/
theorem Local.owns_cases (h : (scope.push b false none).Local scope') (howns : scope'.Owns x) :
    scope'.AssignedHere x ∨ scope.Owns x := by
  obtain ⟨frames'⟩ := scope'
  obtain ⟨frame', outer', rfl, -, -⟩ := List.map_eq_cons_iff.mp h.kept.shells
  rcases howns with hhere | ⟨-, houter⟩
  · exact .inl ((assignedHere_iff rfl).mpr (Option.isSome_iff_exists.mp hhere))
  · exact .inr ((assignedIn_core h.kept.outer).mp houter)

/-- A name of the body itself is found in the body, without crossing into a closure. -/
theorem Owns.find? (h : scope.Owns x) :
    ∃ found, scope.find? x = some found ∧ findWithinBody x scope.frames = some found ∧
      scope.closureCrossedFrom? found.frame = none := by
  have hfs : ∀ frames, AssignedIn x frames → ∃ found, findFrom x frames = some found ∧
      findWithinBody x frames = some found ∧ found.frame < frames.length ∧
      (frames.take (frames.length - (found.frame + 1))).filter Frame.startsBody = [] := by
    intro frames
    induction frames with
    | nil => exact False.elim
    | cons frame outer ih =>
      intro h
      rw [findFrom, findWithinBody]
      cases hget : frame.get? x with
      | some binding => exact ⟨⟨outer.length, binding⟩, rfl, rfl, by simp, by simp⟩
      | none =>
        have hnone : (frame.assigned? x).isSome = false := by
          rw [Frame.get?, Option.map_eq_none_iff] at hget
          simp [Frame.assigned?, hget]
        obtain ⟨hinside, houter⟩ := h.resolve_left (by simp [hnone])
        obtain ⟨found, hfind, hwi, hlt, hcr⟩ := ih houter
        refine ⟨found, hfind, by simpa [hinside] using hwi, by simp; omega, ?_⟩
        have hlen : (frame :: outer).length - (found.frame + 1) =
            outer.length - (found.frame + 1) + 1 := by simp; omega
        rw [hlen, List.take_succ_cons, List.filter_cons_of_neg (by simp [hinside]), hcr]
  obtain ⟨found, hfind, hwi, -, hcr⟩ := hfs scope.frames h
  exact ⟨found, hfind, hwi, by simp [closureCrossedFrom?, hcr]⟩

end Scope

/-! ## Coming to a block -/

section

variable {ctx : LowerContext} {x : String} {s t u : LowerState} {span : Span} {cond iter : Expr}
  {stmt : Stmt} {body orelse aside block : List Stmt} {a : Unit}

theorem Lower.ok_unique {α : Type} {action : Lower α} {a b : α}
    (h : action ctx s = .ok (a, t)) (h' : action ctx s = .ok (b, u)) : a = b ∧ t = u := by
  simpa using h.symm.trans h'

section

variable (h : stmt.Opens ctx aside s u block)
include h

/-- A block with a frame of its own is lowered in a frame on top of those of the statement. -/
theorem Stmt.Opens.inside :
    ∃ scope b, s.scope.Steady scope ∧ (scope.push b false none).Local u.scope := by
  have hq : ∀ cond : Expr, Keeps Quiet cond.operand.condition :=
    fun cond => .condition cond.lower_quiet
  have hbranching : ∀ {v : ValueId} {span : Span},
      Keeps Steady (insertBranching v span) := Keeps.insertBranching
  cases h with
  | onTrue hcond _ hinsert href =>
    exact ⟨_, _, trans_of Steady ((hq _).run hcond).toSteady
      (hbranching.run hinsert), (insertRefinements_narrows.run href).toLocal⟩
  | onFalse hcond _ hinsert hrefT hbody href =>
    have htrue := (side_local hrefT ((lowerAll_local _).run hbody)).2
    exact ⟨_, _, trans_of Steady ((hq _).run hcond).toSteady
      (trans_of Steady (hbranching.run hinsert) htrue),
      (insertRefinements_narrows.run href).toLocal⟩
  | whileBody hopen href =>
    exact ⟨_, _, ((openLoop_keeps (operands_quiet _)).run hopen).toSteady,
      (insertRefinements_narrows.run href).toLocal⟩
  | forBody hiter hopen href hit htgts =>
    have hopn := (openLoop_keeps (L := Quiet) (by simp)).run hopen
    have hitem' := (Keeps.item (R := Local) _ _).run hit
    exact ⟨_, _, trans_of Steady hiter.quiet.toSteady hopn.toSteady,
      trans_of Local (insertRefinements_narrows.run href).toLocal
        (trans_of Local hitem' (assignTargets_assigns.run htgts).isLocal)⟩

theorem Stmt.Opens.warrants {assigned : Bool} (hstart : s.scope.Warrants x assigned) :
    u.scope.Warrants x assigned := by
  obtain ⟨scope, b, hsteady, hlocal⟩ := h.inside
  exact (hstart.steady hsteady).inside hlocal

end

theorem Stmt.Continues.branch (h : (branch span cond body orelse).Continues ctx s u block)
    (hx : x ∉ cond.testedNames) : s.scope.Tracks x u.scope ∧
      ((branch span cond body orelse).lower ctx s = .ok (a, t) →
        lowerAll block ctx u = .ok ((), t)) := by
  cases h with
  | known hcond hknown href =>
    refine ⟨refine_tracks hx hcond href, fun hrun => ?_⟩
    rw [lower] at hrun
    cases branch_runs hrun with
    | decided hcond' hknown' hrefine' hside =>
      obtain ⟨rfl, rfl⟩ := ok_unique hcond hcond'
      obtain rfl : _ = _ := Option.some.inj (hknown.symm.trans hknown')
      obtain ⟨-, rfl⟩ := ok_unique href hrefine'
      rw [← hside]
      split <;> rfl
    | «open» hopens =>
      obtain ⟨hcond', hknown', -⟩ := hopens
      obtain ⟨rfl, rfl⟩ := ok_unique hcond hcond'
      cases hknown.symm.trans hknown'

theorem Stmt.Opens.branch (h : (branch span cond body orelse).Opens ctx aside s u block)
    (hrun : (branch span cond body orelse).lower ctx s = .ok (a, t)) :
    ∃ v, lowerAll block ctx u = .ok ((), v) ∧
      (v.scope.AssignedHere x → lastAlwaysRaises block = false → s.scope.HasBody →
        Merged (s.scope.find? x) x t.scope) := by
  have hq : Keeps Quiet cond.operand.condition := .condition cond.lower_quiet
  rw [lower] at hrun
  cases branch_runs hrun with
  | decided hcond' hknown' =>
    cases h with
    | onTrue hcond hknown | onFalse hcond hknown =>
      obtain ⟨rfl, rfl⟩ := ok_unique hcond hcond'
      cases hknown.symm.trans hknown'
  | «open» hopens hmerge =>
    have hsteady := hopens.steady hq (lowerAll_local body) (lowerAll_local orelse)
    rw [← hsteady.bindings.find? x]
    obtain ⟨hcond', -, hinsert', hrefineTrue', hbody', honTrue, hrefF, horelse, honFalse⟩ := hopens
    cases h with
    | onTrue hcond _ hinsert href =>
      obtain ⟨rfl, rfl⟩ := ok_unique hcond hcond'
      obtain ⟨rfl, rfl⟩ := ok_unique hinsert hinsert'
      obtain ⟨-, rfl⟩ := ok_unique href hrefineTrue'
      refine ⟨_, hbody', fun hasgn hrs hhas => ?_⟩
      obtain ⟨binding, hbind⟩ := hasgn.assigned? honTrue
      exact mergeSides_live (.inl rfl) hrs hbind (hsteady.bindings.hasBody hhas) hmerge
    | onFalse hcond _ hinsert hrefT hbody href =>
      obtain ⟨rfl, rfl⟩ := ok_unique hcond hcond'
      obtain ⟨rfl, rfl⟩ := ok_unique hinsert hinsert'
      obtain ⟨-, rfl⟩ := ok_unique hrefT hrefineTrue'
      obtain ⟨-, rfl⟩ := ok_unique hbody hbody'
      obtain ⟨-, rfl⟩ := ok_unique href hrefF
      refine ⟨_, horelse, fun hasgn hrs hhas => ?_⟩
      obtain ⟨binding, hbind⟩ := hasgn.assigned? honFalse
      exact mergeSides_live (.inr rfl) hrs hbind (hsteady.bindings.hasBody hhas) hmerge

theorem Lower.Unrolls.forM {body : Lower Unit} (h : Unrolls ctx iter span s elems u)
    (hrun : ForRuns ctx targets iter span body s t) :
    ∃ v, elems.forM (forRound targets span body) ctx u = .ok ((), v) ∧ t.scope = v.scope := by
  obtain ⟨hiter, htuple, helems⟩ := h
  cases hrun with
  | unrolled hunr hrounds =>
    obtain ⟨hiter', htuple', helems'⟩ := hunr
    obtain ⟨rfl, rfl⟩ := ok_unique hiter hiter'
    obtain ⟨-, rfl⟩ := ok_unique htuple htuple'
    obtain ⟨rfl, rfl⟩ := ok_unique helems helems'
    exact ⟨_, hrounds, rfl⟩
  | looped hiterates =>
    obtain ⟨hiter', htuple'⟩ := hiterates
    obtain ⟨rfl, rfl⟩ := ok_unique hiter hiter'
    cases (ok_unique htuple htuple').1

end

/-! ## Assignments are not lost -/

/-- Lowering the statement loses no assignment to the name: a loop in a frame of its own assigns
only what the body assigned before it, and no two meanings of different kinds are to be merged. -/
structure Stmt.Fair (ctx : LowerContext) (x : String) (stmt : Stmt) (s : LowerState) : Prop where
  loops : stmt.isLoop → x ∈ stmt.boundNames →
    ∀ {u body}, stmt.Opens ctx [] s u body → s.scope.Owns x
  kinds : ∀ {t}, stmt.lower ctx s = .ok ((), t) → ¬t.scope.Conflicts x

/-- The control paths come to fair statements only. -/
def Stmt.AllFair (ctx : LowerContext) (x : String) (stmts : List Stmt) (s : LowerState)
    (before : Bool) : Prop :=
  ∀ target u flag, Visits ctx x stmts s before target u flag → target.Fair ctx x u

section

variable {ctx : LowerContext} {x : String} {s t u : LowerState} {before after : Bool} {span : Span}
  {body : Lower Unit}

theorem Stmt.Enters.owns {cond : Expr} {body orelse block : List Stmt}
    (h : (branch span cond body orelse).Enters ctx s u block) (hx : x ∉ cond.testedNames)
    (hstart : s.scope.Warrants x before) (hrs : lastAlwaysRaises block = false)
    (hrun : (branch span cond body orelse).lower ctx s = .ok ((), t))
    (hkinds : ¬t.scope.Conflicts x) (hholds : s.scope.Owns x → t.scope.Owns x)
    (hb : ∀ {v}, lowerAll block ctx u = .ok ((), v) → u.scope.Warrants x before →
      v.scope.Owns x) : t.scope.Owns x := by
  rcases h with hcontinues | ⟨aside, hopens⟩
  · obtain ⟨htr, hside⟩ := hcontinues.branch hx
    exact hb (hside hrun) (hstart.tracks htr)
  · obtain ⟨v, hside, hmerged⟩ := hopens.branch (x := x) hrun
    have howns := hb hside (hopens.warrants hstart)
    obtain ⟨scope, b, hsteady, hlocal⟩ := hopens.inside
    have hinside := trans_of Local hlocal ((lowerAll_local block).run hside)
    rcases hinside.owns_cases howns with hasgn | hbef
    · rcases hmerged hasgn hrs hstart.outside.hasBody with hhere | ⟨-, fault, hdfr, -, hcase⟩
      · exact hhere.owns
      · rcases hcase with hnone | ⟨span, onTrue, onFalse, rfl⟩
        · simpa [hnone] using hstart.outside.found
        · exact absurd ⟨span, onTrue, onFalse, hdfr⟩ hkinds
    · exact hholds (hsteady.bindings.owns.mp hbef)

theorem assignTargets_warrants {entity} (hstart : s.scope.Warrants x before)
    (hrun : assignTargets targets entity span ctx s = .ok ((), t)) :
    t.scope.Warrants x (before || (Expr.boundNamesAll targets).contains x) :=
  hstart.assign (assignTargets_assigns.run hrun).tracks fun hmem hbody =>
    assignTargets_reaches hmem hbody hrun

section

variable (h : Turns ctx x targets span body path elems s before t after)
include h

theorem Turns.run : elems.forM (forRound targets span body) ctx s = .ok ((), t) := by
  induction elems generalizing s before with
  | nil =>
    obtain ⟨rfl, -⟩ := h
    rfl
  | cons elem rest ih =>
    obtain ⟨v, u, middle, htgts, -, hbody, hr⟩ := h
    have hround : forRound targets span body elem ctx s = .ok ((), u) :=
      bind_iff.mpr ⟨(), v, htgts, hbody⟩
    exact bind_iff.mpr ⟨(), u, hround, ih hr⟩

theorem Turns.warrants
    (hstart : s.scope.Warrants x before) (hround : ∀ done {elem todo u middle v w after}, elems =
      done ++ elem :: todo → Turns ctx x targets span body path done s before u middle →
      assignTargets targets (.value elem) span ctx u = .ok ((), v) →
      v.scope.Warrants x (middle || (Expr.boundNamesAll targets).contains x) → path v
      (middle || (Expr.boundNamesAll targets).contains x) .done after → body ctx v = .ok ((), w) →
      w.scope.Warrants x after) : t.scope.Warrants x after := by
  induction elems generalizing s before with
  | nil =>
    obtain ⟨rfl, rfl⟩ := h
    exact hstart
  | cons elem rest ih =>
    obtain ⟨v, u, middle, htgts, hpath, hbody, hr⟩ := h
    have hstart' := assignTargets_warrants hstart htgts
    refine ih hr (hround [] rfl ⟨rfl, rfl⟩ htgts hstart' hpath hbody) ?_
    intro done elem' todo u' middle' v' w' after' hsplit hturns
    exact hround (elem :: done) (by rw [hsplit]; rfl) ⟨v, u, middle, htgts, hpath, hbody, hturns⟩

end

mutual

/-- A path past the end of a statement leaves the name to the body, if the body assigned it. -/
theorem Stmt.Path.warrants {stmt : Stmt} {s t : LowerState} {before after : Bool}
    (h : stmt.Path ctx x s before .done after) (hx : x ∉ stmt.testedNames)
    (hstart : s.scope.Warrants x before)
    (hfair : AllFair ctx x [stmt] s before) (hrun : stmt.lower ctx s = .ok ((), t)) :
    t.scope.Warrants x after := by
  refine ⟨(stmt.lower_local.run hrun).boundOutside hstart.outside, fun hafter => ?_⟩
  have hhere := hfair stmt s before .here
  have hholds : s.scope.Owns x → t.scope.Owns x := ((stmt.lower_holds hx).run hrun).owns
  cases stmt with
  | branch span cond body orelse =>
    rw [Path] at h
    simp only [testedNames, List.mem_append, not_or] at hx
    rcases h with ⟨u, hent, h⟩ | ⟨u, hent, h⟩
    · refine hent.owns hx.1.1 hstart h.lastAlwaysRaises hrun (hhere.kinds hrun) hholds
        fun hside hstart' => ?_
      exact (PathAll.warrants h hx.1.2 hstart'
        (fun target v flag hvis => hfair target v flag (.side hent hvis)) hside).owns hafter
    · refine hent.owns hx.1.1 hstart h.lastAlwaysRaises hrun (hhere.kinds hrun) hholds
        fun hside hstart' => ?_
      exact (PathAll.warrants h hx.2 hstart'
        (fun target v flag hvis => hfair target v flag (.side hent hvis)) hside).owns hafter
  | whileLoop span cond body =>
    rw [Path] at h
    rcases h.2.flag (fun hbody => PathAll.flag hbody) hafter with hbef | ⟨hmem, u, hopens⟩
    · exact hholds (hstart.owns hbef)
    · exact hholds (hhere.loops rfl hmem hopens)
  | forLoop span targets iters body =>
    rw [Path] at h
    rcases h.2 with hrounds | ⟨iter, elems, u, v, rfl, hunr, hturns⟩
    · rcases hrounds.flag (fun hbody => PathAll.flag hbody) hafter with
        hbef | ⟨hmem, u, hopens⟩
      · exact hholds (hstart.owns hbef)
      · exact hholds (hhere.loops rfl hmem hopens)
    · rw [lower] at hrun
      obtain ⟨iter', hiter, hruns⟩ := forLoop_runs hrun
      obtain rfl : iter = iter' := by simpa using hiter
      obtain ⟨w, hforM, hsc⟩ := hunr.forM hruns
      obtain ⟨-, rfl⟩ := ok_unique hforM hturns.run
      rw [hsc]
      refine (hturns.warrants (hstart.steady hunr.quiet.toSteady) ?_).owns hafter
      intro done elem todo u' middle v' w' after' hsplit hdone htgts hstart' hpath hbody
      exact PathAll.warrants hpath hx hstart' (fun target v flag hvis =>
        hfair target v flag (.turn (hsplit ▸ hunr) hdone htgts hvis)) hbody
  | leave | next => cases h.1
  | ret | raise => exact h.elim
  | _ =>
    -- the simple statements, which assign in the frame where they stand
    rcases or_contains.mp (h.2 ▸ hafter) with hbef | hmem
    · exact hholds (hstart.owns hbef)
    · exact (lower_assignedHere _ rfl hmem hstart.outside.hasBody hrun).owns

theorem Stmt.PathAll.warrants {stmts : List Stmt} {s t : LowerState} {before after : Bool}
    (h : PathAll ctx x stmts s before .done after) (hx : x ∉ testedNamesAll stmts)
    (hstart : s.scope.Warrants x before)
    (hfair : AllFair ctx x stmts s before) (hrun : lowerAll stmts ctx s = .ok ((), t)) :
    t.scope.Warrants x after := by
  cases stmts with
  | nil =>
    obtain ⟨-, rfl⟩ := pure_ok hrun
    exact h.2 ▸ hstart
  | cons stmt rest =>
    rw [PathAll] at h
    rw [testedNamesAll, List.mem_append, not_or] at hx
    obtain ⟨u, middle, hstmt, hrun₁, hr⟩ := h.resolve_right fun hexit => hexit.1 rfl
    obtain ⟨u', hrun₁', hrun₂⟩ := lowerAll_cons_ok hrun
    obtain ⟨-, rfl⟩ := ok_unique hrun₁ hrun₁'
    have hmid : u.scope.Warrants x middle := Path.warrants hstmt hx.1 hstart
      (fun target v flag hvis => hfair target v flag hvis.append) hrun₁
    exact PathAll.warrants hr hx.2 hmid
      (fun target v flag hvis => hfair target v flag (.later hstmt hrun₁ hvis)) hrun₂

end

/-- Wherever a path comes after an assignment of the body, the name is the body's own. -/
theorem Stmt.Visits.warrants {stmts} (h : Visits ctx x stmts s before target u after)
    (hx : x ∉ testedNamesAll stmts) (hstart : s.scope.Warrants x before)
    (hfair : AllFair ctx x stmts s before) : u.scope.Warrants x after := by
  induction h with
  | here => exact hstart
  | @later stmt _ rest s t _ _ middle _ hpath hrun hr ih =>
    rw [testedNamesAll, List.mem_append, not_or] at hx
    refine ih hx.2 ?_ fun target u flag hvis => hfair target u flag (.later hpath hrun hvis)
    exact hpath.warrants hx.1 hstart
      (fun target v flag hvis => hfair target v flag hvis.append) hrun
  | @side span cond body orelse block rest s u v target before after hent hb ih =>
    simp only [testedNamesAll, testedNames, List.mem_append, not_or] at hx
    obtain ⟨⟨⟨hcond, hbody⟩, horelse⟩, -⟩ := hx
    have hfair' : AllFair ctx x block u before := fun target v flag hvis =>
      hfair target v flag (.side hent hvis)
    rcases hent with hcontinues | ⟨aside, hopens⟩
    · have htr := (hcontinues.branch (a := ()) (t := u) hcond).1
      refine ih ?_ (hstart.tracks htr) hfair'
      cases hcontinues
      split <;> assumption
    · refine ih ?_ (hopens.warrants hstart) hfair'
      cases hopens <;> assumption
  | @round loop target body rest s u v before middle after hloop hrounds hopens hbody ih =>
    have hfair' : AllFair ctx x body u (middle || loop.loopTargets.contains x) :=
      fun target v flag hvis => hfair target v flag (.round hloop hrounds hopens hvis)
    have hnms : loop.boundNames = loop.loopTargets ++ boundNamesAll body ∧
        x ∉ testedNamesAll body := by
      rw [testedNamesAll, List.mem_append, not_or] at hx
      cases hopens with
      | onTrue | onFalse => cases hloop
      | whileBody | forBody => exact ⟨rfl, hx.1⟩
    have hloops := (hfair loop s before .here).loops hloop
    refine ih hnms.2 (hopens.warrants ⟨hstart.outside, fun hflag => ?_⟩) hfair'
    -- what an earlier round or the targets assign is, by fairness, assigned before the loop too
    rcases or_contains.mp hflag with hmid | htgt
    · rcases hrounds.flag (fun hpath => hpath.flag) hmid with hbef | ⟨hmem, -⟩
      · exact hstart.owns hbef
      · exact hloops (hnms.1 ▸ hmem) hopens
    · exact hloops (hnms.1 ▸ List.mem_append_left _ htgt) hopens
  | @again span cond body rest s s₁ u v w n block next counter map before after hrounds hopen href
      hrun hnext =>
      have hopn := (openLoop_keeps (L := Quiet) (operands_quiet (some cond))).run hopen
      have hinside : (s₁.scope.push block false none).Local v.scope :=
        trans_of Local (insertRefinements_narrows.run href).toLocal ((lowerAll_local body).run hrun)
      have hleft : s.scope.Steady w.scope := trans_of Steady hopn.toSteady
        (trans_of Steady hinside.pop ((Keeps.addBlock (R := Steady)).run hnext))
      have hentered : (w.scope.push next false none).Local (w.enter next).scope := refl_of _ _
      refine Warrants.inside (Warrants.steady ⟨hstart.outside, fun hafter => ?_⟩ hleft) hentered
      rcases hrounds.flag (fun hpath => hpath.flag) hafter with hbef | ⟨hmem, _, hopens⟩
      · exact hstart.owns hbef
      · exact (hfair _ s before .here).loops rfl hmem hopens
  | @turn span targets iter body rest s s₁ u v w done todo elem target before middle after hunr
      hturns htgts hbody ih =>
      rw [testedNamesAll, List.mem_append, not_or] at hx
      have hdone := hturns.warrants (hstart.steady hunr.quiet.toSteady) <| by
          intro done' elem' todo' u' middle' v' w' after' hsplit hdone' htargets' hstart' hpath
          have hunrolls' :
            Unrolls ctx iter span s (done' ++ elem' :: (todo' ++ elem :: todo)) s₁ := by
            simpa [hsplit] using hunr
          exact hpath.warrants hx.1 hstart' fun target v flag hvis =>
            hfair target v flag (.turn hunrolls' hdone' htargets' hvis)
      exact ih hx.1 (assignTargets_warrants hdone htgts) fun target v flag hvis =>
        hfair target v flag (.turn hunr hturns htgts hvis)

theorem Evaluates.warrants (h : Evaluates ctx x s before t after)
    (hstart : s.scope.Warrants x before) : t.scope.Warrants x after := by
  induction h with
  | refl => exact hstart
  | built hrun => exact hstart.steady ((Keeps.graph (R := Steady)).run hrun)
  | expr hrun => exact hstart.steady (((Expr.lower_quiet _).lower _).run hrun).toSteady
  | target hrun =>
    exact hstart.assign ((Expr.assign_assigns _ _ _).run hrun).tracks fun hmem hbody =>
      Expr.assign_reaches _ hmem _ _ hbody hrun
  | block hrun => exact hstart.inside (insertRefinements_narrows.run hrun).toLocal
  | trans _ _ ih ih' => exact ih' (ih hstart)

end

/-! ## Reads -/

/-- Load a variable at the current point. -/
def Lower.loadHere (name : String) (ty : Ty) (span : Span) : Lower ValueId := do
  let v ← build (Build.insertWith .load [] ty "name" (.str name) span)
  nameValue v name
  return v

/-- Reading the name gives what the current body assigned: an entity, or a variable that is loaded
where it is read. -/
def ReadsOwn (ctx : LowerContext) (s : LowerState) (name : String) : Prop :=
  ∃ found, findWithinBody name s.scope.frames = some found ∧ ∀ span,
    lookup name span ctx s = (match found.binding with
      | .entity denoted => pure denoted
      | .plain ty => return Entity.value (← loadHere name ty span)) ctx s

theorem readsOwn_of_owns {name} (h : s.scope.Owns name) : ReadsOwn ctx s name := by
  obtain ⟨⟨frame, binding⟩, hfind, hwi, hcr⟩ := h.find?
  refine ⟨_, hwi, fun span => ?_⟩
  rw [lookup, bind_of_ok rfl]
  cases binding with
  | entity denoted => simp only [hfind]
  | plain ty =>
    have hload : load name ty frame span ctx s = loadHere name ty span ctx s := by
      rw [load, bind_of_ok rfl]
      simp only [hcr]
      rfl
    simp only [hfind]
    show Except.bind (load name ty frame span ctx s) _ = Except.bind (loadHere name ty span ctx s) _
    rw [hload]

/-- In a nested body a read that some control path comes to after an assignment of the body gives
what the body assigned, and nothing that was captured. -/
theorem Stmt.Visits.reads_own {ctx : LowerContext} {x : String} {stmts : List Stmt}
    {target : Stmt} {s u v : LowerState} {middle : Bool}
    (hvisits : Stmt.Visits ctx x stmts s false target u middle)
    (hread : Evaluates ctx x u middle v true) (houtside : s.scope.BoundOutside x)
    (hx : x ∉ Stmt.testedNamesAll stmts) (hfair : Stmt.AllFair ctx x stmts s false) :
    ReadsOwn ctx v x := by
  have hmiddle := hvisits.warrants hx ⟨houtside, Bool.noConfusion⟩ hfair
  exact readsOwn_of_owns ((hread.warrants hmiddle).owns rfl)

/-! ## A stale read -/

/-- `x = value` -/
def assignX (value : Int64) : Stmt :=
  .assign .null (.var .null "x") none (some (.const .null (.int value)))

/-- `while c: x = 2` -/
def assignLoop : Stmt :=
  .whileLoop .null (some (.var .null "c")) [assignX 2]

/-- `return x` -/
def returnX : Stmt :=
  .ret .null (some (.var .null "x"))

/-- The parameters `x: int` and `c: bool` of a function, and a closure after them. -/
def beforeClosure : Lower (NodeId × BlockId) := do
  let _ ← [("x", "int"), ("c", "bool")].mapM fun (name, type) =>
    declareParam Graph.root ⟨⟨name, .null⟩, some (.var .null type)⟩
  insertClosure .null

theorem assignLoop_path (before : Bool) (hopens : assignLoop.Opens ctx [] s u [assignX 2])
    (hassign : (assignX 2).lower ctx u = .ok ((), v)) :
    assignLoop.Path ctx "x" s before .done true := by
  have hround : PathAll ctx "x" [assignX 2] u (before || assignLoop.loopTargets.contains "x")
      .done true :=
    .inl ⟨v, true, ⟨rfl, by simp [assignX, boundNames, Expr.boundNames]⟩, hassign, rfl, rfl⟩
  exact ⟨rfl, .single ⟨u, .done, hopens, hround⟩⟩

/-- After a loop that assigns the name, the read crosses into the closure. -/
theorem assignLoop_read_stale : ∃ inner s,
    beforeClosure .bare (.start (.start "f" none)) = .ok (inner, s) ∧
      ∃ u, Stmt.Visits .bare "x" [assignLoop, returnX]
          (s.enterBody inner.2 (some inner.1) (.start "g" none)) false returnX u true ∧
        (u.scope.find? "x").bind (fun found => u.scope.closureCrossedFrom? found.frame) =
          some inner.1 ∧ ¬ReadsOwn .bare u "x" := by
  obtain ⟨inner, s, hstart, ⟨n, block, counter, map⟩, s₁, hopen, ⟨⟩, u, hrefine, ⟨⟩, v,
      hassign, ⟨⟩, t, hrun, hcrossed, hnone⟩ : ∃ inner s,
        beforeClosure .bare (.start (.start "f" none)) = .ok (inner, s) ∧
        ∃ opened s₁, openLoop none (some (Expr.var .null "c").operand) .null .bare
            (s.enterBody inner.2 (some inner.1) (.start "g" none)) = .ok (opened, s₁) ∧
          ∃ a u, insertRefinements opened.2.2.2 .bare ((s₁.enter opened.2.1).enterLoop .loop) =
              .ok (a, u) ∧ ∃ a v, (assignX 2).lower .bare u = .ok (a, v) ∧
              ∃ a t, assignLoop.lower .bare (s.enterBody inner.2 (some inner.1) (.start "g" none)) =
                  .ok (a, t) ∧
                (t.scope.find? "x").bind (fun found => t.scope.closureCrossedFrom? found.frame) =
                  some inner.1 ∧ (Scope.findWithinBody "x" t.scope.frames).isNone := by
    decide +kernel
  have hpath := assignLoop_path false (.whileBody hopen hrefine) hassign
  refine ⟨inner, s, hstart, t, .later hpath hrun .here, hcrossed, fun ⟨found, hfound, _⟩ => ?_⟩
  simp [hfound] at hnone

theorem Stmt.fair_of_run
    (hloops : stmt.isLoop → s.scope.Owns x) (hrun : stmt.lower ctx s = .ok ((), t))
    (hnone : (t.scope.deferredInBody? x).isNone) : stmt.Fair ctx x s where
  loops hloop _ _ _ _ := hloops hloop
  kinds hrun' := by
    obtain ⟨-, rfl⟩ := ok_unique hrun hrun'
    rintro ⟨span, onTrue, onFalse, hdfr⟩
    simp [hdfr] at hnone

set_option synthInstance.maxSize 1000 in
/-- If the name is assigned before the loop as well, the read after it is not stale. -/
theorem assignLoop_read_own : ∃ inner s,
    beforeClosure .bare (.start (.start "f" none)) = .ok (inner, s) ∧
      ∃ u, Stmt.Visits .bare "x" [assignX 1, assignLoop, returnX]
          (s.enterBody inner.2 (some inner.1) (.start "g" none)) false returnX u true ∧
        ReadsOwn .bare u "x" := by
  obtain ⟨inner, s, hstart, houtside, ⟨⟩, s₁, hfirst, hfirst', ⟨n, block, counter, map⟩, s₂,
      hopen, ⟨⟩, u, hrefine, ⟨⟩, v, hassign, hassign', next, w, hnext, ⟨⟩, w', heval, heval', ⟨⟩,
      t, hloop, hloop', ⟨⟩, r, hreturn, hreturn'⟩ : ∃ inner s,
        beforeClosure .bare (.start (.start "f" none)) = .ok (inner, s) ∧
        (Scope.findFrom "x" (Scope.outside
          (s.enterBody inner.2 (some inner.1) (.start "g" none)).scope.frames)).isSome ∧
        ∃ a s₁, (assignX 1).lower .bare
            (s.enterBody inner.2 (some inner.1) (.start "g" none)) = .ok (a, s₁) ∧
          (s₁.scope.deferredInBody? "x").isNone ∧
          ∃ opened s₂, openLoop none (some (Expr.var .null "c").operand) .null .bare s₁ =
              .ok (opened, s₂) ∧ ∃ a u, insertRefinements opened.2.2.2 .bare
                ((s₂.enter opened.2.1).enterLoop .loop) = .ok (a, u) ∧
              ∃ a v, (assignX 2).lower .bare u = .ok (a, v) ∧
                (v.scope.deferredInBody? "x").isNone ∧
                ∃ next w, addBlock opened.1 .bare (v.leaveLoop.leave s₂.point) = .ok (next, w) ∧
                  ∃ a w', (Stmt.eval .null (.var .null "c")).lower .bare (w.enter next) =
                      .ok (a, w') ∧ (w'.scope.deferredInBody? "x").isNone ∧
                    ∃ a t, assignLoop.lower .bare s₁ = .ok (a, t) ∧
                      (t.scope.deferredInBody? "x").isNone ∧
                      ∃ a r, returnX.lower .bare t = .ok (a, r) ∧
                        (r.scope.deferredInBody? "x").isNone := by
    decide +kernel
  have hassigns : ∀ value, "x" ∈ (assignX value).boundNames := fun _ => List.mem_singleton_self "x"
  have howns : s₁.scope.Owns "x" :=
    (Stmt.lower_assignedHere _ rfl (hassigns 1) (Scope.BoundOutside.hasBody houtside) hfirst).owns
  have hpath : (assignX 1).Path .bare "x" (s.enterBody inner.2 (some inner.1) (.start "g" none))
      false .done true := ⟨rfl, rfl⟩
  have hvisits : Stmt.Visits .bare "x" [assignX 1, assignLoop, returnX]
      (s.enterBody inner.2 (some inner.1) (.start "g" none)) false returnX t true :=
    .later hpath hfirst
      (.later (assignLoop_path true (.whileBody hopen hrefine) hassign) hloop .here)
  refine ⟨inner, s, hstart, t, hvisits, hvisits.reads_own (.refl t true) houtside (by decide) ?_⟩
  -- Every statement that a path comes to is one of those that were run above.
  intro target state flag hvisited
  cases hvisited with
  | here => exact Stmt.fair_of_run (fun hloop => nomatch hloop) hfirst hfirst'
  | later _ hfirst₂ hrest =>
    obtain ⟨-, rfl⟩ := ok_unique hfirst hfirst₂
    cases hrest with
    | here => exact Stmt.fair_of_run (fun _ => howns) hloop hloop'
    | later _ hloop₂ hrest =>
      obtain ⟨-, rfl⟩ := ok_unique hloop hloop₂
      cases hrest with
      | here => exact Stmt.fair_of_run (fun hloop => nomatch hloop) hreturn hreturn'
      | later hpath => exact hpath.elim
      | round hloop => cases hloop
    | round _ _ hopens hbody =>
      cases hopens with
      | whileBody hopen₂ hrefine₂ =>
        obtain ⟨⟨⟩, rfl⟩ := ok_unique hopen hopen₂
        obtain ⟨-, rfl⟩ := ok_unique hrefine hrefine₂
        cases hbody with
        | here => exact Stmt.fair_of_run (fun hloop => nomatch hloop) hassign hassign'
        | later _ _ hrest => cases hrest
        | round hloop => cases hloop
    | again _ hopen₂ hrefine₂ hbody hnext₂ =>
      obtain ⟨⟨⟩, rfl⟩ := ok_unique hopen hopen₂
      obtain ⟨-, rfl⟩ := ok_unique hrefine hrefine₂
      obtain ⟨v', hassign₂, hdone⟩ := Stmt.lowerAll_cons_ok hbody
      obtain ⟨-, rfl⟩ := ok_unique hassign hassign₂
      obtain ⟨-, rfl⟩ := pure_ok hdone
      obtain ⟨rfl, rfl⟩ := ok_unique hnext hnext₂
      exact Stmt.fair_of_run (fun hloop => nomatch hloop) heval heval'
  | round hloop => cases hloop

end Flowgraph
