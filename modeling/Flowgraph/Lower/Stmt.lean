import Flowgraph.Lower.Assignment
import Flowgraph.Lower.Branch
import Flowgraph.Syntax.Stmt

/-!
# Lowering statements and definitions

A body returns through a variable that no program can name.  Each `return` assigns it, branches
merge it as they merge any other variable, and the body answers with it at the end.  That is why a
`return` has to be the last statement of its block.
-/

namespace Flowgraph

namespace Lower

/-! ## Leaving a block -/

/-- The variable that holds what a body returns. -/
def returnName : String := "$return"

/-- Fit a returned value to the declared type of the body, or to what was returned before. -/
def returned (v : ValueId) (span : Span) : Lower ValueId := do
  let body ← getBody
  let ty ← typeOf v
  match body.declared, body.merged with
  | some declared, _ =>
    match ← convert? v declared span with
    | some converted => return converted
    | none => fail (.type span (.returnMismatch declared ty))
  | none, some previous =>
    match Ty.join previous ty with
    | some joined =>
      modifyBody fun body => { body with merged := some joined }
      return v
    | none => fail (.type span (.returnConflict previous ty))
  | none, none =>
    modifyBody fun body => { body with merged := some ty }
    return v

def returnValue (value : Option Expr) (span : Span) : Lower Unit := do
  let body ← getBody
  if !body.loops.isEmpty then fail (.unsupported span .returnInLoop)
  let v ←
    match value with
    | some value => value.value body.declared
    | none => build (Build.none .nothing span)
  let v ← returned v span
  bindName returnName (.value v) none span

/-- `break` and `continue`. -/
def exitLoop (op : Op) (keyword : String) (span : Span) : Lower Unit := do
  match (← getBody).loops with
  | .loop :: _ =>
    let _ ← build (Build.insert op [] [] span)
  | .unrolled :: _ => fail (.unsupported span (.exitUnrolled keyword))
  | [] => fail (.shape span (.outsideLoop keyword))

def raise (message : Option Expr) (default : String) (span : Span) : Lower Unit := do
  let v ←
    match message with
    | some message => message.value none
    | none => build (Build.str default span)
  let _ ← build (Build.insert .raise [v] [] span)

/-- `assert test, message` raises where the test fails; nothing is left of a test that is known to
hold. -/
def assertion (test : Expr) (message : Option Expr) (span : Span) : Lower Unit := do
  let condition ← test.operand.condition
  if condition.known = some true then return ()
  else
    let branching ← insertBranching condition.value span
    let _ ← inBranch branching.onFalse (raise message "AssertionError" span)

/-- A return is the last statement of its block, and so is a branch that returns. -/
def requireNoReturn (stmt : Stmt) : Lower Unit := do
  if stmt.isReturn then fail (.shape stmt.span .returnNotLast)
  if stmt.containsReturn then fail (.unsupported stmt.span .earlyReturn)

/-! ## Loops -/

/-- `for targets in iters:`.  A loop over a tuple is unrolled. -/
def forLoop (targets iters : List Expr) (span : Span) (body : Lower Unit) : Lower Unit := do
  match iters with
  | [iter] =>
    if targets.isEmpty then fail (.shape span .noLoopTarget)
    let iterable ← iter.entity
    if ← isTuple iterable then
      let elems := (← expand? iterable span none).getD []
      unrolled elems fun elem => do
        assignTargets targets (.value elem) span
        body
    else
      let iterable ← prepareIterable iterable iter.span
      let trip ← length span iterable
      loop (some trip) none span fun counter => do
        let current ← item span counter iterable
        assignTargets targets (.value current) span
        body
  | _ => fail (.unsupported span .severalIterables)

/-! ## Definitions -/

/-- Each global name is an input of the whole graph, a tensor. -/
def declareGlobal (ident : Ident) : Lower Unit := do
  let v ← build (Build.create fun graph => graph.addInput .tensor)
  build (Build.update fun graph => graph.setName v (some ident.name))
  bindName ident.name (.value v) none ident.span

def declareParam (block : BlockId) (param : Param) : Lower (String × Ty) := do
  let ty ←
    match param.ty with
    | some type => surfaceType type
    | none => pure (← read).settings.paramType
  let v ← addParam block ty
  bindName param.name.name (.value v) none param.name.span
  return (param.name.name, ty)

/-- What a body answers with: the value returned along every path, or `None` if nothing returns. -/
def bodyResult (span : Span) : Lower ValueId := do
  let body ← getBody
  let scope ← getScope
  if (scope.current?.map fun frame => frame.defines returnName).getD false then
    let v ← toValue span (← lookup returnName span)
    match body.declared with
    | some declared => coerce v declared span .returnValue
    | none => return v
  else if (scope.deferredInBody? returnName).isSome then
    fail (.name span (.missingReturn body.name))
  else
    match body.declared with
    | some declared =>
      if Ty.nothing.isSubtype declared then build (Build.none declared span)
      else fail (.type span (.noReturn body.name declared))
    | none => build (Build.none .nothing span)

/-- A function body in a block: parameters, statements, result. -/
def body (name : String) (params : List Param) (result : Option Expr) (span : Span)
    (statements : Lower Unit) (block : BlockId) (closure : Option NodeId) : Lower Signature := do
  let declared ← result.mapM surfaceType
  let (signature, _) ← withFrame block true closure <|
    withBody (.start name declared) <| inBlock block do
      let params ← params.mapM (declareParam block)
      statements
      let output ← bodyResult span
      addResult block output
      return { name, params, result := ← typeOf output : Signature }
  return signature

end Lower

mutual

def Stmt.lower : Stmt → Lower Unit
  | .branch span cond body orelse =>
    Lower.branch span cond.operand (Stmt.lowerAll body) (Stmt.lowerAll orelse)
      (Stmt.lastAlwaysRaises body) (Stmt.lastAlwaysRaises orelse)
  | .whileLoop span cond body =>
    Lower.loop none (cond.map Expr.operand) span fun _ => Stmt.lowerAll body
  | .forLoop span targets iters body => Lower.forLoop targets iters span (Stmt.lowerAll body)
  | .assign span target ty value => Lower.assign target ty value span
  | .augment span target op value => Lower.augment target op value span
  | .ret span value => Lower.returnValue value span
  | .leave span => Lower.exitLoop .leave "break" span
  | .next span => Lower.exitLoop .next "continue" span
  | .pass _ => return ()
  | .raise span value => Lower.raise value "Exception" span
  | .assert span test message => Lower.assertion test message span
  | .eval _ value => do
    let _ ← value.entity
  | .globals _ names => names.forM Lower.declareGlobal
  | .define _ definition => definition.lowerClosure

/-- Lower statements one after the other. -/
def Stmt.lowerAll : List Stmt → Lower Unit
  | [] => return ()
  | stmt :: rest => do
    if !rest.isEmpty then Lower.requireNoReturn stmt
    stmt.lower
    Stmt.lowerAll rest

/-- A nested definition: a closure, whose body reads outer variables where they are. -/
def DefOf.lowerClosure : DefOf Stmt → Lower Unit
  | ⟨name, params, result, body, span⟩ => do
    let (n, block) ← Lower.insertClosure span
    let signature ←
      Lower.body name.name params result span (Stmt.lowerAll body) block (some n)
    let closure ← Lower.build (Build.query fun graph => graph.output? n)
    Lower.recordSignature closure signature
    Lower.bindName name.name (.closure closure) none name.span

end

/-- Lower a definition as a whole graph: its parameters are the inputs, and what it returns is the
output. -/
def Def.lower (definition : Def) : Lower Signature :=
  Lower.body definition.name.name definition.params definition.result definition.span
    (Stmt.lowerAll definition.body) Graph.root none

end Flowgraph
