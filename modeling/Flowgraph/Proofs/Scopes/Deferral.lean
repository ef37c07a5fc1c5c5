import Flowgraph.Proofs.Scopes.Lifetime

/-!
# Deferred faults are not lost

A name whose two meanings after a branch do not fit together, or that only one side or only a loop
defines, has a fault deferred for it, which is to be reported when the name is read before it is
assigned again.  The record of it is dropped by any assignment to the name, also by one in a block
after which the name is not bound.  Statements are careful about a name if they do not do that.

`Passes.read_fails` says that after careful statements every read of the name fails with a fault
that was deferred for it.
-/

namespace Flowgraph

open Flowgraph.Expr Lower Scope

/-! ## Careful statements -/

/-- If the side of a branch always raises, it does not bind the name. -/
def Stmt.raisesWithout (name : String) (side : List Stmt) : Bool :=
  !(Stmt.lastAlwaysRaises side && (Stmt.boundNamesAll side).contains name)

mutual

def Stmt.careful (name : String) : Stmt → Bool
  | .branch _ cond body orelse =>
    !cond.testedNames.contains name &&
      (Stmt.carefulAll name body && Stmt.raisesWithout name body) &&
      (Stmt.carefulAll name orelse && Stmt.raisesWithout name orelse)
  | .whileLoop _ _ body | .forLoop _ _ _ body => Stmt.carefulAll name body
  | _ => true

def Stmt.carefulAll (name : String) : List Stmt → Bool
  | [] => true
  | stmt :: rest => stmt.careful name && Stmt.carefulAll name rest

end

namespace Lower

variable {ctx : LowerContext} {s u₁ v₁ u₂ v₂ t : LowerState} {name : String} {span : Span}
  {a : Unit}

theorem sides_track {mapTrue mapFalse : RefinementMap} {point : InsertPoint} {n : NodeId}
    {onTrue onFalse : BranchSide}
    (hrefT : insertRefinements mapTrue ctx (s.enter onTrue.block) = .ok (a, u₁))
    (hbody : u₁.scope.Tracks name v₁.scope) (honTrue : v₁.scope.current? = some onTrue.frame)
    (hrefF : insertRefinements mapFalse ctx ((v₁.leave point).enter onFalse.block) = .ok (a, u₂))
    (horelse : u₂.scope.Tracks name v₂.scope) (honFalse : v₂.scope.current? = some onFalse.frame)
    (hraisesTrue : onTrue.raises → ¬v₁.scope.AssignedHere name)
    (hraisesFalse : onFalse.raises → ¬v₂.scope.AssignedHere name)
    (hmerge : mergeSides n onTrue onFalse span ctx (v₂.leave point) = .ok (a, t)) :
    s.scope.Tracks name t.scope := by
  obtain ⟨htrue, hleaveTrue⟩ :=
    Tracks.leave (insertRefinements_narrows.run hrefT) hbody
  obtain ⟨hfalse, hleaveFalse⟩ :=
    Tracks.leave (insertRefinements_narrows.run hrefF) horelse
  have hsteady : s.scope.Steady v₂.scope.pop := trans_of Steady htrue hfalse
  have hmerged : v₂.scope.pop.Tracks name t.scope := (mergeSides_assigns.run hmerge).tracks
  refine ⟨trans_of (Holds name) hsteady.holds hmerged.toHolds, fun hfind hpend => ?_⟩
  have hfind₁ : v₁.scope.pop.find? name = none := (htrue.bindings.find? name).trans hfind
  have hfind₂ : v₂.scope.pop.find? name = none := (hsteady.bindings.find? name).trans hfind
  have hhas : v₂.scope.pop.HasBody := hsteady.bindings.hasBody hpend.hasBody
  -- A side that assigned the name is one whose end control passes.
  have hasgn : v₁.scope.AssignedHere name ∨ v₂.scope.AssignedHere name →
      (t.scope.find? name = none ∧ t.scope.Pending name) ∨ t.scope.AssignedHere name := by
    intro hside
    have hmerged : Merged (v₂.scope.pop.find? name) name t.scope := by
      rcases hside with hside | hside
      · obtain ⟨_, hbind⟩ := hside.assigned? honTrue
        exact mergeSides_live (Or.inl rfl) (Bool.eq_false_iff.mpr (hraisesTrue · hside)) hbind hhas
          hmerge
      · obtain ⟨_, hbind⟩ := hside.assigned? honFalse
        exact mergeSides_live (Or.inr rfl) (Bool.eq_false_iff.mpr (hraisesFalse · hside)) hbind hhas
          hmerge
    rcases hmerged with hhere | ⟨hnone, fault, hdfr, hdefers, -⟩
    · exact Or.inr hhere
    · exact Or.inl ⟨hnone.trans hfind₂, fault, hdfr, hdefers⟩
  rcases hleaveTrue hfind hpend with hpending₁ | hassigned₁
  · rcases hleaveFalse hfind₁ hpending₁ with hpending₂ | hassigned₂
    · exact hmerged.pending hfind₂ hpending₂
    · exact hasgn (Or.inr hassigned₂)
  · exact hasgn (Or.inl hassigned₁)

theorem forRound_tracks {targets : List Expr} {body : Lower Unit} {elem : ValueId}
    (h : Keeps (Tracks name) body) : Keeps (Tracks name) (forRound targets span body elem) :=
  .bind (assignTargets_assigns.mono fun _ _ hassigns => hassigns.tracks) fun _ => h

end Lower

namespace Stmt

variable {name : String}

/-- A careful side of a branch that always raises leaves the name unassigned in its frame. -/
theorem not_assignedHere_of_raises {ctx : LowerContext} {s u v : LowerState} {block : BlockId}
    {map : RefinementMap} {side : List Stmt} {a : Unit} {frame : Frame}
    (hcareful : raisesWithout name side) (hrs : lastAlwaysRaises side)
    (href : insertRefinements map ctx (s.enter block) = .ok (a, u))
    (hrun : lowerAll side ctx u = .ok (a, v)) (hf : v.scope.current? = some frame) :
    ¬v.scope.AssignedHere name := by
  intro hasgn
  obtain ⟨binding, hbind⟩ := hasgn.assigned? hf
  have hunbound : name ∉ boundNamesAll side := by
    simpa [raisesWithout, hrs] using hcareful
  exact side_spares href (lowerAll_leaves side hunbound hrun).1 hf (mem_definedNames hbind)

mutual

theorem lower_tracks (stmt : Stmt) (hcareful : stmt.careful name) :
    Keeps (Tracks name) stmt.lower := by
  refine .of_run fun ctx s a t h => ?_
  cases stmt with
  | branch span cond body orelse =>
    simp only [careful, Bool.and_eq_true, Bool.not_eq_true', List.contains_eq_mem,
      decide_eq_false_iff_not] at hcareful
    obtain ⟨⟨htested, hbody, hraisesBody⟩, horelse, hraisesOrelse⟩ := hcareful
    rw [Stmt.lower] at h
    have hq : Keeps Quiet cond.operand.condition := .condition cond.lower_quiet
    cases branch_runs h with
    | @decided _ u _ _ known hcond _ href hside =>
      -- the side is lowered in place, where the test must not narrow the name
      refine trans_of (Tracks name) (refine_tracks htested hcond href) ?_
      cases known with
      | true => exact (lowerAll_tracks body hbody).run hside
      | false => exact (lowerAll_tracks orelse horelse).run hside
    | «open» hopens hmerge =>
      obtain ⟨hcond, -, hinsert, hrefT, hrunTrue, honTrue, hrefF, hrunFalse, honFalse⟩ := hopens
      refine trans_of (Tracks name) (hq.run hcond).tracks ?_
      refine trans_of (Tracks name) (Keeps.insertBranching.run hinsert) ?_
      exact sides_track hrefT ((lowerAll_tracks body hbody).run hrunTrue) honTrue
        hrefF ((lowerAll_tracks orelse horelse).run hrunFalse) honFalse
        (fun hrs => not_assignedHere_of_raises hraisesBody hrs hrefT hrunTrue honTrue) (fun hrs =>
          not_assignedHere_of_raises hraisesOrelse hrs hrefF hrunFalse honFalse)
        hmerge
  | whileLoop span cond body =>
    rw [Stmt.lower] at h
    exact ((loop_quietAbout (operands_quiet cond) fun _ =>
      lowerAll_tracks body hcareful).run h).tracks
  | forLoop span targets iters body =>
    rw [Stmt.lower] at h
    obtain ⟨iter, rfl, hruns⟩ := forLoop_runs h
    have hround : ∀ elem, Keeps (Tracks name) (forRound targets span (lowerAll body) elem) :=
      fun elem => forRound_tracks (lowerAll_tracks body hcareful)
    refine hruns.keeps (fun _ _ hq => hq.tracks) (fun _ => .forM fun elem _ => hround elem)
      fun _ prepared => ?_
    exact (loop_quietAbout (by simp) fun counter => .bind (.item counter prepared) hround).mono
      fun _ _ hq => hq.tracks
  | _ => exact ((lower_assigns _ rfl).run h).tracks

theorem lowerAll_tracks (stmts : List Stmt) (hcareful : carefulAll name stmts) :
    Keeps (Tracks name) (lowerAll stmts) := by
  cases stmts with
  | nil => exact .pure
  | cons stmt rest =>
    rw [carefulAll, Bool.and_eq_true] at hcareful
    refine .of_run fun ctx s a t h => ?_
    obtain ⟨u, hstmt, hr⟩ := lowerAll_cons_ok h
    exact trans_of (Tracks name) ((lower_tracks stmt hcareful.1).run hstmt)
      ((lowerAll_tracks rest hcareful.2).run hr)

end

end Stmt

/-! ## What is kept along the way -/

/-- The body assigns the name, or a fault is deferred for it and nothing binds it. -/
def Scope.Settled (scope : Scope) (name : String) : Prop :=
  scope.Owns name ∨ (scope.find? name = none ∧ scope.Pending name)

namespace Scope.Settled

variable {scope scope' : Scope} {name : String} {b : BlockId}

theorem tracks (h : scope.Settled name) (htr : scope.Tracks name scope') : scope'.Settled name := by
  rcases h with howns | ⟨hfind, hpend⟩
  · exact Or.inl (htr.toHolds.owns howns)
  · exact (htr.pending hfind hpend).symm.imp_left AssignedHere.owns

theorem enter (h : scope.Settled name) (hnarr : (scope.push b false none).Narrows scope') :
    scope'.Settled name := by
  rcases h with howns | ⟨hfind, hpend⟩
  · exact Or.inl (hnarr.toLocal.owns_of_push howns)
  · exact Or.inr ((hnarr.unfound name hfind).imp_right fun hkeep => hkeep hpend)

end Scope.Settled

namespace Stmt

variable {ctx : LowerContext} {s u : LowerState} {name : String} {stmt : Stmt}
  {block aside : List Stmt}

theorem Continues.settled (h : stmt.Continues ctx s u block) (hcareful : stmt.careful name)
    (hs : s.scope.Settled name) : u.scope.Settled name := by
  cases h with
  | known hcond hknown href =>
    simp only [careful, Bool.and_eq_true, Bool.not_eq_true', List.contains_eq_mem,
      decide_eq_false_iff_not] at hcareful
    exact hs.tracks (refine_tracks hcareful.1.1 hcond href)
  | round hunr hbef htgts =>
    refine (hs.tracks hunr.quiet.tracks).tracks ?_
    have hrounds := (Keeps.forM fun elem _ =>
      forRound_tracks (lowerAll_tracks block hcareful)).run hbef
    exact trans_of (Tracks name) hrounds (assignTargets_assigns.run htgts).tracks

theorem Opens.settled (h : stmt.Opens ctx aside s u block) (hcareful : stmt.careful name)
    (haside : name ∉ boundNamesAll aside) (hs : s.scope.Settled name) : u.scope.Settled name := by
  have hq : ∀ cond : Expr, Keeps Quiet cond.operand.condition := fun cond =>
    .condition cond.lower_quiet
  cases h with
  | onTrue hcond _ hinsert href =>
    have hs₂ := (hs.tracks ((hq _).run hcond).tracks).tracks (Keeps.insertBranching.run hinsert)
    exact hs₂.enter (insertRefinements_narrows.run href)
  | onFalse hcond _ hinsert hrefT hbody href =>
    simp only [careful, Bool.and_eq_true] at hcareful
    have hs₂ := (hs.tracks ((hq _).run hcond).tracks).tracks (Keeps.insertBranching.run hinsert)
    obtain ⟨hsteady, hleave⟩ := Tracks.leave (insertRefinements_narrows.run hrefT)
      ((lowerAll_tracks aside hcareful.1.2.1).run hbody)
    refine Settled.enter ?_ (insertRefinements_narrows.run href)
    rcases hs₂ with howns | ⟨hfind, hpend⟩
    · exact Or.inl (hsteady.bindings.owns.mpr howns)
    · refine Or.inr ⟨(hsteady.bindings.find? name).trans hfind,
        (hleave hfind hpend).resolve_right fun hasgn => ?_⟩
      obtain ⟨frame, hf⟩ := hasgn.current?
      obtain ⟨binding, hbind⟩ := hasgn.assigned? hf
      exact side_spares hrefT (lowerAll_leaves aside haside hbody).1 hf (mem_definedNames hbind)
  | @whileBody _ _ _ _ cond _ _ _ _ _ hopen href =>
    have hopn := (openLoop_keeps (operands_quiet cond)).run hopen
    exact (hs.tracks hopn.tracks).enter (insertRefinements_narrows.run href)
  | forBody hiter hopen href hit htgts =>
    have hopn := (openLoop_keeps (L := Quiet) (by simp)).run hopen
    have hs₂ := (hs.tracks hiter.quiet.tracks).tracks hopn.tracks
    have hinside := hs₂.enter (insertRefinements_narrows.run href)
    exact (hinside.tracks ((Keeps.item _ _).run hit)).tracks
      (assignTargets_assigns.run htgts).tracks

end Stmt

/-! ## Reads -/

/-- Control passes from the first state to the second: over steps on the graph, expressions, targets
and careful statements, and into the blocks of expressions and of careful statements.  What was
lowered beside such a block does not bind the name. -/
inductive Passes (ctx : LowerContext) (name : String) : LowerState → LowerState → Prop
  | refl (s : LowerState) : Passes ctx name s s
  | built {s t : LowerState} {α : Type} {steps : Build α} {a : α} :
      build steps ctx s = .ok (a, t) → Passes ctx name s t
  | expr {s t : LowerState} {expr : Expr} {hint : Option Ty} {outcome : Outcome} :
      expr.lower hint ctx s = .ok (outcome, t) → Passes ctx name s t
  | target {s t : LowerState} {target : Expr} {entity : Entity} {span : Span} {a : Unit} :
      target.assign entity span ctx s = .ok (a, t) → Passes ctx name s t
  | block {s t : LowerState} {map : RefinementMap} {block : BlockId} {a : Unit} :
      insertRefinements map ctx (s.enter block) = .ok (a, t) → Passes ctx name s t
  | stmt {s t : LowerState} {stmt : Stmt} {a : Unit} :
      stmt.careful name → stmt.lower ctx s = .ok (a, t) → Passes ctx name s t
  | continues {s t : LowerState} {stmt : Stmt} {block : List Stmt} :
      stmt.careful name → stmt.Continues ctx s t block → Passes ctx name s t
  | opens {s t : LowerState} {stmt : Stmt} {aside block : List Stmt} :
      stmt.careful name → stmt.Opens ctx aside s t block → name ∉ Stmt.boundNamesAll aside →
      Passes ctx name s t
  | trans {s t u : LowerState} : Passes ctx name s t → Passes ctx name t u → Passes ctx name s u

theorem Passes.settled {ctx : LowerContext} {name : String} {s t : LowerState}
    (h : Passes ctx name s t) (hs : s.scope.Settled name) : t.scope.Settled name := by
  induction h with
  | refl s => exact hs
  | built hrun => exact hs.tracks (Keeps.graph.run hrun)
  | expr hrun => exact hs.tracks (((lower_quiet _).lower _).run hrun).tracks
  | target hrun => exact hs.tracks ((assign_assigns _ _ _).run hrun).tracks
  | block hrun => exact hs.enter (insertRefinements_narrows.run hrun)
  | stmt hcareful hrun => exact hs.tracks ((Stmt.lower_tracks _ hcareful).run hrun)
  | continues hcareful henter => exact henter.settled hcareful hs
  | opens hcareful henter haside => exact henter.settled hcareful haside hs
  | trans _ _ ih ih' => exact ih' (ih hs)

/-- The entries of the prelude that a call tells by their name. -/
def PreludeEntry.isForm : PreludeEntry → Bool
  | .getAttr | .isInstance | .annotate => true
  | _ => false

/-- Reading the name fails with the fault: as a variable; as a callee, unless the prelude tells the
call by the name; and as what `fork` is to run. -/
structure ReadFails (ctx : LowerContext) (s : LowerState) (name : String) (fault : Fault) :
    Prop where
  asVariable : ∀ span hint, (var span name).lower hint ctx s = .error (.fault fault)
  asCallee : (ctx.settings.builtins.get? name).all (!·.isForm) → ∀ span here args hint,
    (call span (.var here name) args []).lower hint ctx s = .error (.fault fault)
  asForkTarget : ∀ fork, s.scope.find? fork = none → s.scope.deferred? fork = none →
    ctx.settings.builtins.get? fork = some .fork → ∀ span here there args hint,
      (call span (.var here fork) (.var there name :: args) []).lower hint ctx s =
        .error (.fault fault)

namespace Lower

variable {ctx : LowerContext} {s : LowerState} {name : String} {fault : Fault}

theorem lookup_fails (span : Span) (hfind : s.scope.find? name = none)
    (hdfr : s.scope.deferred? name = some fault) :
    lookup name span ctx s = .error (.fault fault) := by
  rw [lookup, bind_of_ok rfl]
  simp only [hfind, hdfr]
  rfl

theorem preludeCallee?_unbound (span : Span) (hfind : s.scope.find? name = none) :
    preludeCallee? (.var span name) ctx s = .ok (ctx.settings.builtins.get? name, s) := by
  rw [preludeCallee?]
  simp only [asName?]
  rw [bind_of_ok rfl]
  simp only [hfind]
  rfl

theorem callExpression_unbound {lower : Option Ty → Lower Outcome} (span here : Span)
    (items : List Item) (hfind : s.scope.find? name = none)
    (hform : (ctx.settings.builtins.get? name).all (!·.isForm)) :
    callExpression span ⟨.var here name, lower⟩ items [] ctx s = (do
      let entity ← (Operand.mk (.var here name) lower).entity
      let args ← arguments items
      call span entity args) ctx s := by
  unfold callExpression
  dsimp only
  rw [bind_of_ok (preludeCallee?_unbound here hfind)]
  generalize ctx.settings.builtins.get? name = entry? at hform ⊢
  cases entry? with
  | none => rfl
  | some entry =>
    cases entry with
    | getAttr | isInstance | annotate => cases hform
    | _ => rfl

end Lower

theorem Scope.deferred?_of_inBody {scope : Scope} {name : String} {fault : Fault}
    (h : scope.deferredInBody? name = some fault) : scope.deferred? name = some fault := by
  obtain ⟨frames⟩ := scope
  simp only [deferredInBody?, deferred?] at h ⊢
  induction frames with
  | nil => cases h
  | cons frame outer ih =>
    cases hstarts : frame.startsBody with
    | true =>
      have hhere : frame.deferred.get? name = some fault := by simpa [hstarts] using h
      simp [hstarts, hhere]
    | false =>
      have houter := ih (by simpa [hstarts] using h)
      simpa [hstarts] using houter

theorem readFails_of_deferred {ctx : LowerContext} {s : LowerState} {name : String} {fault : Fault}
    (hfind : s.scope.find? name = none) (hdfr : s.scope.deferred? name = some fault) :
    ReadFails ctx s name fault := by
  have hvar : ∀ span hint, (var span name).lower hint ctx s = .error (.fault fault) :=
    fun span hint => by
      rw [lower]
      exact bind_error (lookup_fails span hfind hdfr)
  have hent : ∀ span, (Operand.mk (var span name) (var span name).lower).entity ctx s =
      .error (.fault fault) := fun span => bind_error (hvar span none)
  refine ⟨hvar, fun hform span here args hint => ?_, fun fork hfork hforkDeferred he span here
    there args hint => ?_⟩
  · rw [lower]
    refine bind_error ((callExpression_unbound span here _ hfind hform).trans ?_)
    exact bind_error (hent here)
  · -- The callee denotes `fork`, and the state is as it was when the arguments are lowered.
    have hlook : lookup fork here ctx s = .ok (.fork, s) := by
      rw [lookup, bind_of_ok rfl]
      simp only [hfork, hforkDeferred]
      rw [bind_of_ok rfl]
      simp only [he]
      rfl
    have hcal : (Operand.mk (var here fork) (var here fork).lower).entity ctx s =
        .ok (.fork, s) := by
      have hlower : (var here fork).lower none ctx s = .ok (⟨.fork, none⟩, s) := by
        rw [lower, bind_of_ok hlook]
        rfl
      exact bind_of_ok hlower
    rw [lower]
    refine bind_error ((callExpression_unbound span here _ hfork (by rw [he]; rfl)).trans ?_)
    rw [bind_of_ok hcal, items]
    refine bind_error (bind_error ?_)
    rw [List.mapM_cons]
    exact bind_error (bind_error (hent there))

/-- Once a fault is deferred for a name that nothing binds, every read of the name fails with a
fault that was deferred for it, wherever control passes carefully and the body binds it nowhere. -/
theorem Passes.read_fails {ctx : LowerContext} {name : String} {s t : LowerState}
    (hpasses : Passes ctx name s t) (hfind : s.scope.find? name = none)
    (hpending : s.scope.Pending name) (hunbound : Scope.findWithinBody name t.scope.frames = none) :
    ∃ fault, fault.Defers name ∧ ReadFails ctx t name fault := by
  rcases hpasses.settled (Or.inr ⟨hfind, hpending⟩) with howns | ⟨hfind', fault, hdeferred, hdefers⟩
  · simpa [hunbound] using howns.found
  · exact ⟨fault, hdefers, readFails_of_deferred hfind' (Scope.deferred?_of_inBody hdeferred)⟩

/-! ## A fault that is lost -/

/-- `if test: len = value`, followed by `rest` in the branch. -/
def assignLen (test : String) (value : Int64) (rest : List Stmt) : Stmt :=
  .branch .null (.var .null test)
    (.assign .null (.var .null "len") none (some (.const .null (.int value))) :: rest) []

/-- `len([1])` -/
def callLen : Expr :=
  .call .null (.var .null "len") [.list .null [.const .null (.int 1)]] []

/-- The parameters `c: bool` and `d: bool` of a function. -/
def boolParams : Lower (List (String × Ty)) :=
  ["c", "d"].mapM fun name => declareParam Graph.root ⟨⟨name, .null⟩, some (.var .null "bool")⟩

/-- The second branch assigns the name again and then raises.  The name is not bound after it and no
fault is deferred any more, so that the call finds the entry of the prelude. -/
theorem assignLen_raise_loses :
    ∃ params s, boolParams .bare (.start (.start "f" none)) = .ok (params, s) ∧
      ∃ a u, (assignLen "c" 1 []).lower .bare s = .ok (a, u) ∧ u.scope.Pending "len" ∧
        ∃ a t, (assignLen "d" 2 [.raise .null none]).lower .bare u = .ok (a, t) ∧
          (Scope.findWithinBody "len" t.scope.frames).isNone ∧
          (callLen.lower none .bare t).isOk := by
  decide +kernel

/-- `while d: len = 2` -/
def loopLen : Stmt :=
  .whileLoop .null (some (.var .null "d"))
    [.assign .null (.var .null "len") none (some (.const .null (.int 2)))]

/-- A loop that assigns the name defers a fault for it again. -/
theorem loopLen_read_fails :
    ∃ params s, boolParams .bare (.start (.start "f" none)) = .ok (params, s) ∧
        ∃ a u, (assignLen "c" 1 []).lower .bare s = .ok (a, u) ∧
        ∃ a t, loopLen.lower .bare u = .ok (a, t) ∧
          ∃ fault, fault.Defers "len" ∧ ReadFails .bare t "len" fault := by
  obtain ⟨params, s, hparams, a, u, hbranch, hfind, hpending, b, t, hloop, hunbound⟩ : ∃ params s,
        boolParams .bare (.start (.start "f" none)) = .ok (params, s) ∧
          ∃ a u, (assignLen "c" 1 []).lower .bare s = .ok (a, u) ∧
          (u.scope.find? "len").isNone ∧ u.scope.Pending "len" ∧
          ∃ a t, loopLen.lower .bare u = .ok (a, t) ∧
            (Scope.findWithinBody "len" t.scope.frames).isNone := by
    decide +kernel
  refine ⟨params, s, hparams, a, u, hbranch, b, t, hloop, ?_⟩
  exact Passes.read_fails (.stmt (by decide) hloop) (Option.isNone_iff_eq_none.mp hfind) hpending
    (Option.isNone_iff_eq_none.mp hunbound)

end Flowgraph
