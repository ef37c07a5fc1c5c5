import Flowgraph.Lower.Member

/-!
# Calls

What happens when an entity is called with arguments that were lowered already.  A call of `fork`
runs a closure, or wraps the call of anything else into one.
-/

namespace Flowgraph.Lower

/-- Arguments converted to the types of named parameters; `role` says what each one is called. -/
def coerceArguments (role : String → Role) (span : Span) :
    List ValueId → List (String × Ty) → Lower (List ValueId)
  | arg :: args, param :: params => do
    let converted ← coerce arg param.2 span (role param.1)
    return converted :: (← coerceArguments role span args params)
  | _, _ => return []

/-! ## Prelude entries -/

/-- Convert to a type by the method of the class, or by the primitive. -/
def callCast (target : Ty) (method : String) (span : Span) (arg : ValueId) : Lower ValueId := do
  let ty ← typeOf arg
  if ty == target then return arg
  else
    match ty.classWith? method with
    | some cls => callMethod arg cls method [] span
    | none =>
      let operation : Primitive :=
        match target with
        | .int => .int
        | .float => .float
        | .bool => .bool
        | _ => .str
      primitive operation [arg] span

/-- Apply a primitive, or the method by which the class of the first operand overloads it. -/
def callPrimitive (operation : Primitive) (method : Option String) (span : Span)
    (inputs : List ValueId) : Lower ValueId := do
  match method, inputs with
  | some method, first :: rest =>
    match (← typeOf first).classWith? method with
    | some cls => callMethod first cls method rest span
    | none => primitive operation inputs span
  | _, _ => primitive operation inputs span

/-- The iterable of `range`, `zip` or `enumerate`. -/
def makeIterable (kind : IterableKind) (span : Span) (args : List Entity) : Lower Entity := do
  match kind with
  | .range =>
    let values ← toValues span args
    values.forM fun v => do
      let ty ← typeOf v
      if !(ty == .int) then fail (.type span (.rangeOperand ty))
    match values with
    | [stop] => return .range none stop none
    | [start, stop] => return .range (some start) stop none
    | [start, stop, step] => return .range (some start) stop (some step)
    | _ => fail (.shape span (.rangeArity values.length))
  | .zip =>
    if args.isEmpty then fail (.shape span .zipArity)
    else return .zip args
  | .enumerate =>
    match args with
    | [inner] => return .enumerate inner
    | _ => fail (.shape span (.enumerateArity args.length))

def callPrelude (entry : PreludeEntry) (span : Span) (args : List Entity) : Lower Entity := do
  match entry with
  | .print =>
    let inputs ← toValues span args
    let _ ← build (Build.insert .print inputs [] span)
    return .value (← build (Build.none .nothing span))
  | .cast target method =>
    match ← toValues span args with
    | [arg] => return .value (← callCast target method span arg)
    | _ => fail (.shape span (.castArity target args.length))
  | .primitive operation method =>
    return .value (← callPrimitive operation method span (← toValues span args))
  | .iterable kind => makeIterable kind span args
  | .exception =>
    match args with
    | message :: _ => return .value (← toValue span message)
    | [] => return .value (← build (Build.str "Exception" span))
  | .getAttr => fail (.internal (.callSyntaxOnly "GetAttr"))
  | .isInstance => fail (.internal (.callSyntaxOnly "IsInstance"))
  | .annotate => fail (.internal (.callSyntaxOnly "Annotate"))
  | .fork => fail (.internal (.callSyntaxOnly "Fork"))

/-! ## Entities -/

/-- Call anything but `fork`. -/
def callEntity (entity : Entity) (span : Span) (args : List Entity) : Lower Entity := do
  match entity with
  | .builtin entry => callPrelude entry span args
  | .function signature =>
    let args ← toValues span args
    if args.length ≠ signature.params.length then
      fail (.shape span (.callArity signature.name signature.params.length args.length))
    else
      let inputs ← coerceArguments .argument span args signature.params
      return .value (← build (Build.insertWith .callFunction inputs signature.result "name"
        (.str signature.name) span))
  | .method receiver cls name =>
    return .value (← callMethod receiver cls name (← toValues span args) span)
  | .primitiveMethod receiver operation =>
    return .value (← primitive operation (receiver :: (← toValues span args)) span)
  | .cls cls => return .value (← construct cls (← toValues span args) span)
  | .closure _ => fail (.unsupported span .closureCall)
  | .value v =>
    let ty ← typeOf v
    match ty.classWith? "__call__" with
    | some cls => return .value (← callMethod v cls "__call__" (← toValues span args) span)
    | none => fail (.type span (.notCallable ty))
  | other => fail (.type span (.kindNotCallable other.kind))

/-! ## Fork -/

/-- Run a closure on arguments. -/
def forkClosure (closure : ValueId) (span : Span) (args : List Entity) : Lower Entity := do
  match (← get).signatures.lookup closure with
  | none => fail (.internal (.missingSignature closure))
  | some signature =>
    if args.length ≠ signature.params.length then
      fail (.shape span (.callArity signature.name signature.params.length args.length))
    else
      let inputs ← coerceForked signature.name span args signature.params
      return .value (← build (Build.insertValue .forkClosure (closure :: inputs)
        (.future signature.result) span))
where
  /-- Each argument becomes a value right before it is converted. -/
  coerceForked (callee : String) (span : Span) :
      List Entity → List (String × Ty) → Lower (List ValueId)
    | arg :: args, param :: params => do
      let v ← toValue span arg
      let converted ← coerce v param.2 span (.argumentOf param.1 callee)
      return converted :: (← coerceForked callee span args params)
    | _, _ => return []

/-- A closure node without captures yet, and its body block. -/
def insertClosure (span : Span) : Lower (NodeId × BlockId) := do
  let n ← build (Build.insert .closure [] [.nothing] span)
  let block ← addBlock n
  return (n, block)

/-- Remember the signature of a closure. -/
def recordSignature (closure : ValueId) (signature : Signature) : Lower Unit :=
  modify fun state => { state with signatures := (closure, signature) :: state.signatures }

/-- Wrap a call into a closure and run that. -/
def forkCall (span : Span) (call : Lower Entity) : Lower Entity := do
  let (n, block) ← insertClosure span
  let (v, _) ← withFrame block true (some n) <|
    withBody (.start "fork" none) <|
      inBlock block (do toValue span (← call))
  addResult block v
  let closure ← build (Build.query fun graph => graph.output? n)
  let result ← typeOf v
  recordSignature closure ⟨"fork", [], result⟩
  return .value (← build (Build.insertValue .forkClosure [closure] (.future result) span))

/-- Call an entity.  What `fork` is to run stands before its arguments. -/
def call (span : Span) : Entity → List Entity → Lower Entity
  | .fork, [] => fail (.shape span .forkArity)
  | .fork, .closure closure :: args => forkClosure closure span args
  | .fork, target :: args => forkCall span (call span target args)
  | entity, args => callEntity entity span args

end Flowgraph.Lower
