import Flowgraph.Proofs.Scopes.Balance
import Flowgraph.Proofs.Scopes.Statements

/-!
# What lowering may report, and where

A `Policy` says which spans nodes may carry and which faults may be reported.  Its law is that a run
from a state that the policy allows ends in such a state or with such a fault.  A fault that is
deferred is part of the state, since it may be reported later.
-/

namespace Flowgraph

open List

/-- What is allowed when lowering in a context. -/
structure Policy where
  ctx : LowerContext
  span : Span → Prop
  fault : Fault → Prop
  null : span .null
  internal : ∀ cause, fault (.internal cause)

namespace Policy

/-- The faults that a scope has deferred are allowed. -/
def Allows (P : Policy) (scope : Scope) : Prop :=
  ∀ frame ∈ scope.frames, ∀ entry ∈ frame.deferred.entries, P.fault entry.2

variable {P : Policy} {scope : Scope} {name : String} {fault : Fault}

theorem Allows.push {block : BlockId} {startsBody : Bool} {closure : Option NodeId}
    (h : P.Allows scope) : P.Allows (scope.push block startsBody closure) :=
  forall_mem_cons.mpr ⟨fun _ he => absurd he not_mem_nil, h⟩

theorem Allows.pop (h : P.Allows scope) : P.Allows scope.pop :=
  fun frame hf => h frame (mem_of_mem_tail hf)

theorem Allows.bindCurrent {slot : Slot} (h : P.Allows scope) :
    P.Allows (scope.bindCurrent name slot) := by
  unfold Scope.bindCurrent
  split
  · exact h
  next frame outer hfs =>
    unfold Policy.Allows at h
    rw [hfs, forall_mem_cons] at h
    exact forall_mem_cons.mpr h

theorem Allows.modifyBodyFrame {change : Frame → Frame} (h : P.Allows scope)
    (hch : ∀ frame, ∀ entry ∈ (change frame).deferred.entries,
      P.fault entry.2 ∨ entry ∈ frame.deferred.entries) :
    P.Allows ⟨Scope.modifyBodyFrame change scope.frames⟩ := by
  obtain ⟨frames⟩ := scope
  induction frames with
  | nil => exact h
  | cons frame outer ih =>
    obtain ⟨hf, houter⟩ := forall_mem_cons.mp h
    simp only [Scope.modifyBodyFrame]
    split
    · refine forall_mem_cons.mpr ⟨fun entry he => ?_, houter⟩
      exact (hch frame entry he).elim id (hf entry)
    · exact forall_mem_cons.mpr ⟨hf, ih houter⟩

theorem Allows.clearDeferred (h : P.Allows scope) : P.Allows (scope.clearDeferred name) :=
  h.modifyBodyFrame fun _ _ he => Or.inr (mem_filter.mp he).1

theorem Allows.defer (h : P.Allows scope) (hfault : P.fault fault) :
    P.Allows (scope.defer name fault) := by
  refine h.modifyBodyFrame fun frame entry he => ?_
  rcases NameMap.mem_insertEntry he with rfl | he
  · exact Or.inl hfault
  · exact Or.inr he

theorem Allows.deferred? (h : P.Allows scope) (hfault : scope.deferred? name = some fault) :
    P.fault fault := by
  obtain ⟨frame, hf, hget⟩ := exists_of_findSome?_eq_some hfault
  exact h frame (mem_of_mem_filter hf) (name, fault) (NameMap.mem_of_get? hget)

/-- The nodes and the deferred faults of a state are allowed. -/
structure Holds (P : Policy) (s : LowerState) : Prop where
  nodes : s.builder.Located P.span
  deferred : P.Allows s.scope

def Ends (P : Policy) : Except Failure LowerState → Prop
  | .ok t => P.Holds t
  | .error (.fault fault) => P.fault fault
  | .error .dangling => True

theorem Ends.map {e : Except Failure LowerState} {change : LowerState → LowerState} (h : P.Ends e)
    (hch : ∀ t, P.Holds t → P.Holds (change t)) : P.Ends (e.map change) := by
  rcases e with (_ | _) | t
  · exact h
  · exact h
  · exact hch t h

def law (P : Policy) : Law where
  span := P.span
  ends ctx s e := ctx = P.ctx → P.Holds s → P.Ends e

instance : P.law.Lawful where
  null := P.null
  internal _ _ := P.internal _
  dangling _ _ := trivial
  deferred h _ hs := hs.deferred.deferred? h
  trans h h' hctx hs := h' hctx (h hctx hs)
  same hnodes hscope _ _ _ hs := ⟨hnodes hs.nodes, hscope ▸ hs.deferred⟩
  elsewhere h hctx hs := (h hctx ⟨hs.nodes, hs.deferred⟩).map fun _ ht => ⟨ht.nodes, ht.deferred⟩
  within _ h hctx hs := (h hctx ⟨hs.nodes, hs.deferred⟩).map fun _ ht => ⟨ht.nodes, ht.deferred⟩

instance : P.law.BodiesFree := ⟨fun _ hs => ⟨hs.nodes, hs.deferred⟩⟩

instance : P.law.Lenient where
  move {m _ s} hm hctx hs := by
    suffices hallows : P.Allows (s.scope.move m) from ⟨hs.nodes, hallows⟩
    cases m with
    | push => exact hs.deferred.push
    | pop => exact hs.deferred.pop
    | plain | entity => exact hs.deferred.clearDeferred.bindCurrent
    | refined => exact hs.deferred.bindCurrent
    | defer =>
      obtain ⟨_, hspan, hplace, hkind⟩ := hm
      exact hs.deferred.defer (hspan.fault hplace hkind hctx hs)

end Policy

namespace Lower

variable {α : Type} {P : Policy} {name : String} {span : Span} [hspan : P.law.At span]
  {block : BlockId} {closure : Option NodeId}

instance {names : List String} : (Assigning.law P.law names).BodiesFree :=
  inferInstanceAs P.law.BodiesFree

theorem mergeSides_obeys {n : NodeId} {a b : BranchSide} : Keeps P.law (mergeSides n a b span) := by
  have hrecord : ∀ name binding, Keeps P.law (recordBinding name binding) := by
    intro name binding
    cases binding with
    | plain ty => exact .move (.plain name ty) trivial
    | entity denoted => exact .move (.entity name denoted) trivial
  have hvariable : ∀ name onTrue onFalse joined,
      Keeps P.law (mergeVariable n name onTrue onFalse joined span) := fun _ _ _ _ =>
    .bind returnFrom_keeps fun _ => .bind returnFrom_keeps fun _ => .bind .addOutput fun _ =>
      .bind .nameValue fun _ => store_lenient
  have hname : ∀ name, Keeps P.law (mergeName n a b span name) := by
    intro name
    refine Keeps.getScope.bind fun scope => ?_
    have hdefer : ∀ fault : Fault, fault.span? = some span → fault.saysMissingReturn = false →
        Keeps P.law (deferFault name fault) := fun _ => deferFault_lenient
    dsimp only
    split
    · split
      · exact hvariable _ _ _ _
      · split
        · exact .type
        · exact hdefer _ rfl rfl
    · exact hdefer _ rfl rfl
    · exact hdefer _ rfl rfl
    · split
      · exact hrecord _ _
      · exact hdefer _ rfl rfl
  unfold mergeSides
  grind

theorem branch_obeys {cond : Operand} {body orelse : Lower Unit} {bodyRaises orelseRaises : Bool}
    (hcond : cond.Keeps P.law) (hbody : Keeps P.law body) (horelse : Keeps P.law orelse) :
    Keeps P.law (branch span cond body orelse bodyRaises orelseRaises) := by
  unfold branch
  refine (Keeps.given_condition hcond).andThen fun condition hcondition => ?_
  have hmerge : ∀ n a b, Keeps P.law (mergeSides n a b span) := fun _ _ _ => mergeSides_obeys
  have hmap := fun outcome entry he => hcond.covers.mem _ (hcondition outcome entry he)
  split
  · exact .bind (insertRefinements_lenient (hmap true)) fun _ => hbody
  · exact .bind (insertRefinements_lenient (hmap false)) fun _ => horelse
  · refine .bind .insertBranching fun branching => ?_
    refine .bind (inNarrowedBranch_keeps (hmap true) hbody) fun ⟨_, onTrue⟩ =>
      .bind (inNarrowedBranch_keeps (hmap false) horelse) fun ⟨_, onFalse⟩ => ?_
    dsimp only
    split
    · exact hmerge _ _ _
    · exact .internal

theorem forLoop_obeys {targets iters : List Expr} {body : Lower Unit}
    (htgts : P.law.Covers (Expr.spansAll targets)) (hiters : P.law.Covers (Expr.spansAll iters))
    (hbody : Keeps P.law body) : Keeps P.law (forLoop targets iters span body) := by
  unfold forLoop
  split
  next iter =>
    obtain ⟨hiter, -⟩ := Law.covers_append.mp hiters
    have := hiter.mem _ iter.span_mem
    have hassign : ∀ elem, Keeps P.law (do assignTargets targets (.value elem) span; body) :=
      fun _ => .bind (assignTargets_keeps htgts) fun _ => hbody
    refine .guarded .shape (.bind entity_keeps fun iterable => .bind .isTuple fun isTuple => ?_)
    split
    · exact .bind .expand? fun elems => .withLoop (.forM fun elem _ => hassign elem)
    · exact .bind .prepareIterable fun iterable => .bind (.length iterable) fun trip =>
        loop_lenient (by simp) fun counter => .bind (.item counter iterable) hassign
  next => exact .unsupported

/-! ## Definitions -/

theorem declareParam_obeys {param : Param} (h : P.law.Covers param.spans) :
    Keeps P.law (declareParam block param) := by
  obtain ⟨_, hty⟩ := Law.covers_cons.mp h
  have hr : ∀ ty, Keeps P.law (do
      let v ← addParam block ty
      bindName param.name.name (.value v) none param.name.span
      return (param.name.name, ty)) := fun ty =>
    .bind .addParam fun v => .bind bindName_lenient fun _ => .pure
  unfold declareParam
  split
  next type heq =>
    rw [heq, Expr.spans?] at hty
    exact .bind .surfaceType hr
  · exact .bind .read fun _ => .bind .pure hr

omit hspan in
theorem body_obeys {params : List Param} {result : Option Expr} {statements : Lower Unit}
    (hps : P.law.Covers (params.flatMap Param.spans)) (hret : P.law.Covers (Expr.spans? result))
    (h : Keeps P.law (do statements; bodyResult span)) :
    Keeps P.law (body name params result span statements block closure) := by
  have hinside : Keeps P.law (do
      let params ← params.mapM (declareParam block)
      statements
      let output ← bodyResult span
      addResult block output
      return { name, params, result := ← typeOf output : Signature }) := by
    refine .bind (.mapM fun param hp => declareParam_obeys ⟨fun here hhere =>
      hps.mem here (mem_flatMap.mpr ⟨param, hp, hhere⟩)⟩) fun signature => ?_
    have hr : Keeps P.law (do
        let output ← (do statements; bodyResult span)
        addResult block output
        return { name, params := signature, result := ← typeOf output : Signature }) :=
      .bind h fun output => .bind .addResult fun _ => .bind .typeOf fun _ => .pure
    simpa only [bind_assoc] using hr
  unfold body
  refine .bind ?_ fun declared =>
    .bind (withFrame_lenient (.withBody (.inBlock hinside))) fun _ => .pure
  cases result with
  | none => exact .pure
  | some result =>
    rw [Expr.spans?] at hret
    exact .bind .surfaceType fun _ => .pure

end Lower

/-! ## The tree -/

mutual

/-- The definitions in a statement, at every depth. -/
def Stmt.definitions : Stmt → List (DefOf Stmt)
  | .branch _ _ body orelse => Stmt.definitionsAll body ++ Stmt.definitionsAll orelse
  | .whileLoop _ _ body | .forLoop _ _ _ body => Stmt.definitionsAll body
  | .define _ definition => definition.definitions
  | _ => []

def Stmt.definitionsAll : List Stmt → List (DefOf Stmt)
  | [] => []
  | stmt :: rest => stmt.definitions ++ Stmt.definitionsAll rest

/-- A definition and the definitions in it. -/
def DefOf.definitions : DefOf Stmt → List (DefOf Stmt)
  | ⟨name, params, result, body, span⟩ =>
    ⟨name, params, result, body, span⟩ :: Stmt.definitionsAll body

end

open Lower Law

/-- The body of the definition obeys if its statements do. -/
def Policy.Returns (P : Policy) (definition : DefOf Stmt) : Prop :=
  P.law.At definition.span → Keeps P.law (Stmt.lowerAll definition.body) →
    Keeps P.law (do Stmt.lowerAll definition.body; bodyResult definition.span)

variable {P : Policy}

mutual

theorem Stmt.lower_obeys (stmt : Stmt) (h : P.law.Covers stmt.spans)
    (hbodies : ∀ definition ∈ stmt.definitions, P.Returns definition) : Keeps P.law stmt.lower := by
  cases stmt with
  | branch span cond body orelse =>
    simp only [Stmt.spans, covers_cons, covers_append] at h
    obtain ⟨_, hcond, hbody, horelse⟩ := h
    rw [Stmt.definitions, forall_mem_append] at hbodies
    rw [Stmt.lower]
    exact branch_obeys (cond.lower_keeps hcond) (Stmt.lowerAll_obeys body hbody hbodies.1)
      (Stmt.lowerAll_obeys orelse horelse hbodies.2)
  | whileLoop span cond body =>
    simp only [Stmt.spans, covers_cons, covers_append] at h
    obtain ⟨_, hcond, hbody⟩ := h
    rw [Stmt.lower]
    exact loop_lenient (operands_keep hcond) fun _ => Stmt.lowerAll_obeys body hbody hbodies
  | forLoop span targets iters body =>
    simp only [Stmt.spans, covers_cons, covers_append] at h
    obtain ⟨_, htgts, hiters, hbody⟩ := h
    rw [Stmt.lower]
    exact forLoop_obeys htgts hiters (Stmt.lowerAll_obeys body hbody hbodies)
  | define span definition =>
    refine Stmt.lower_keeps (L := P.law) _ rfl h ?_
    rintro _ _ ⟨⟩
    simp only [Stmt.spans, covers_cons] at h
    exact DefOf.lowerClosure_obeys definition h.2 hbodies
  | _ => exact Stmt.lower_keeps (L := P.law) _ rfl h (by nofun)

theorem Stmt.lowerAll_obeys (stmts : List Stmt) (h : P.law.Covers (Stmt.spansAll stmts))
    (hbodies : ∀ definition ∈ Stmt.definitionsAll stmts, P.Returns definition) :
    Keeps P.law (Stmt.lowerAll stmts) := by
  cases stmts with
  | nil => exact .pure
  | cons stmt rest =>
    obtain ⟨hstmt, hr⟩ := covers_append.mp h
    have := hstmt.mem _ stmt.span_mem
    rw [Stmt.definitionsAll, forall_mem_append] at hbodies
    have hboth : Keeps P.law (do stmt.lower; Stmt.lowerAll rest) :=
      .bind (stmt.lower_obeys hstmt hbodies.1) fun _ => Stmt.lowerAll_obeys rest hr hbodies.2
    rw [Stmt.lowerAll]
    split
    · exact .bind .requireNoReturn fun _ => hboth
    · exact hboth

theorem DefOf.lowerClosure_obeys (definition : DefOf Stmt) (h : P.law.Covers definition.spans)
    (hbodies : ∀ nested ∈ definition.definitions, P.Returns nested) :
    Keeps P.law definition.lowerClosure := by
  obtain ⟨name, params, result, body, span⟩ := definition
  simp only [DefOf.spans, covers_cons, covers_append] at h
  obtain ⟨hplace, _, hps, hret, hbody⟩ := h
  obtain ⟨hreturns, hnest⟩ := forall_mem_cons.mp hbodies
  rw [DefOf.lowerClosure]
  exact .bind .insertClosure fun inserted =>
    .bind (body_obeys hps hret (hreturns hplace (Stmt.lowerAll_obeys body hbody hnest)))
      fun signature =>
      .bind (.build .query) fun closure => .bind .recordSignature fun _ => bindName_lenient

end

theorem Def.lower_obeys (definition : Def) (h : P.law.Covers definition.spans)
    (hbodies : ∀ nested ∈ definition.definitions, P.Returns nested) :
    Keeps P.law definition.lower := by
  obtain ⟨name, params, result, body, span⟩ := definition
  simp only [DefOf.spans, covers_cons, covers_append] at h
  obtain ⟨hplace, _, hps, hret, hbody⟩ := h
  obtain ⟨hreturns, hnest⟩ := forall_mem_cons.mp hbodies
  exact body_obeys hps hret (hreturns hplace (Stmt.lowerAll_obeys body hbody hnest))

end Flowgraph
