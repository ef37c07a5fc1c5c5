import Flowgraph.Lower.Monad
import Flowgraph.Overload
import Flowgraph.Refinement

/-!
# Names and conversions

Reading and binding names, and the conversions that happen without being asked for: an int to a
float, a scalar to a tensor, and either of them into an optional.
-/

namespace Flowgraph.Lower

/-! ## Debug names -/

/-- Whether a name is worth keeping on a value: compiler temporaries start with `$`, and
placeholders are an underscore before digits. -/
def isMeaningful (name : String) : Bool :=
  match name.toList with
  | [] => false
  | '$' :: _ => false
  | '_' :: rest => !rest.all Char.isDigit
  | _ => true

/-- Whether a value is defined directly in a block. -/
def definedIn (graph : Graph) (block : BlockId) (value : Value) : Option Bool :=
  match value.origin with
  | .output n _ => (graph.node? n).map fun node => node.owner = some block
  | .param owner _ => some (owner = block)

/-- Name a value of the current block that has no name yet. -/
def nameValue (v : ValueId) (name : String) : Lower Unit := do
  if isMeaningful name then
    let block := (← get).builder.point.block
    build <| Build.update fun graph => do
      let value ← graph.value? v
      if (← definedIn graph block value) && value.name.isNone then graph.setName v (some name)
      else some graph

/-! ## Primitives and conversions -/

/-- A node for a primitive whose operands were checked. -/
def primitive (operation : Primitive) (inputs : List ValueId) (span : Span) : Lower ValueId := do
  let types ← inputs.mapM typeOf
  let result ← ofExcept (operation.check types span)
  build (Build.insertPrimitive operation inputs result span)

/-- Convert a value towards a type; it stays as it is if no conversion applies. -/
def tryConvert (v : ValueId) (span : Span) (target : Ty) : Lower ValueId := do
  let ty ← typeOf v
  if ty.isSubtype target then return v
  else
    match target with
    | .optional inner => tryConvert v span inner
    | .float =>
      match ty with
      | .int => build (Build.insertPrimitive .float [v] .float span)
      | _ => return v
    | .tensor | .ranked _ =>
      if ty.isScalar then build (Build.insertPrimitive .numToTensor [v] .tensor span) else return v
    | _ => return v

/-- Convert a value to a type; `none` if the result does not have it. -/
def convert? (v : ValueId) (target : Ty) (span : Span) : Lower (Option ValueId) := do
  let converted ← tryConvert v span target
  let ty ← typeOf converted
  return if ty.isSubtype target then some converted else none

/-- Convert a value to the type that its role asks for. -/
def coerce (v : ValueId) (target : Ty) (span : Span) (role : Role) : Lower ValueId := do
  match ← convert? v target span with
  | some converted => return converted
  | none => fail (.type span (.mismatch role target (← typeOf v)))

def tuple (elems : List ValueId) (span : Span) : Lower ValueId := do
  let types ← elems.mapM typeOf
  build (Build.insertValue .tupleConstruct elems (.tuple types) span)

/-- What a message calls an entity. -/
def describe (entity : Entity) : Lower Description := do
  match entity with
  | .value v => return .ofType (← typeOf v)
  | other => return .ofKind other.kind

/-! ## Reading names -/

/-- Read a variable bound in a frame.  A read that crosses into a closure is placed before the
closure, so that the body sees a captured value. -/
def load (name : String) (ty : Ty) (frame : Nat) (span : Span) : Lower ValueId := do
  let readHere : Lower ValueId := do
    let v ← build (Build.insertWith .load [] ty "name" (.str name) span)
    nameValue v name
    return v
  match (← getScope).closureCrossedFrom? frame with
  | some closure => atPoint (Build.enterBefore closure) readHere
  | none => readHere

/-- What a host name denotes; a constant becomes a value. -/
def ofHostValue (value : HostValue) (span : Span) : Lower Entity := do
  match value with
  | .function signature => return .function signature
  | .cls cls => return .cls cls
  | .module module => return .module module
  | .constant literal => return .value (← build (Build.literal literal span))

/-- What a name denotes: the scope comes first, then the prelude, then the host.  A name with a
deferred fault is reported before the last two are asked. -/
def lookup (name : String) (span : Span) : Lower Entity := do
  let scope ← getScope
  match scope.find? name with
  | some ⟨_, .entity entity⟩ => return entity
  | some ⟨frame, .plain ty⟩ => return .value (← load name ty frame span)
  | none =>
    match scope.deferred? name with
    | some fault => fail fault
    | none =>
      let context ← read
      match context.settings.builtins.get? name with
      | some entry => return .ofPrelude entry
      | none =>
        match context.host.value? name span with
        | some value => ofHostValue value span
        | none => fail (.name span (.undefined name))

/-- The prelude entry that a callee names, unless the scope binds the name. -/
def preludeCallee? (callee : Expr) : Lower (Option PreludeEntry) := do
  match callee.asName? with
  | none => return none
  | some name =>
    if ((← getScope).find? name).isSome then return none
    else return (← read).settings.builtins.get? name

/-! ## Binding names -/

def store (name : String) (v : ValueId) (ty : Ty) (span : Span) : Lower Unit := do
  let n ← build (Build.insert .store [v] [] span)
  build (Build.setAttr n "name" (.str name))
  modifyScope fun scope => scope.recordPlain name ty

/-- The binding that an assignment has to respect: that of an enclosing block of the same body.
Compiler temporaries have none. -/
def enclosing? (name : String) : Lower (Option Binding) := do
  if name.startsWith "$" then return none
  else return ((← getScope).findEnclosing? name).map Scope.Found.binding

/-- Fit an entity to the binding of an enclosing block: both have to be values, and the type may
not change except by a conversion. -/
def rebind (name : String) (entity : Entity) (declared : Option Ty) (span : Span)
    (previous : Binding) : Lower ValueId := do
  if declared.isSome then fail (.type span (.declaredOutside name))
  match entity.asValue?, previous with
  | none, _ => fail (.type span (.reassignedTo name entity.kind))
  | some _, .entity denoted => fail (.type span (.reassignedFrom name denoted.kind))
  | some v, .plain previousType =>
    let converted ← tryConvert v span previousType.unshaped
    let ty ← typeOf converted
    if ty.isSubtype previousType.unshaped then return converted
    else fail (.type span (.reassigned name previousType ty))

/-- Bind a name in the current frame.  Values are stored; anything else is kept as an entity. -/
def bindName (name : String) (entity : Entity) (declared : Option Ty) (span : Span) :
    Lower Unit := do
  if let some v := entity.asValue? then nameValue v name
  let fitted ←
    match ← enclosing? name with
    | some previous => pure (some (← rebind name entity declared span previous))
    | none => pure entity.asValue?
  match fitted with
  | some v => store name v (declared.getD (← typeOf v)) span
  | none => modifyScope fun scope => scope.recordEntity name entity

/-- Narrow one variable from here to the end of the current frame. -/
def narrow (name : String) (narrowing : Narrowing) : Lower Unit := do
  if narrowing.ty.isNothing then return
  match (← getScope).typeOf? name with
  | none => return
  | some current =>
    if current == narrowing.ty then return
    let v ← toValue narrowing.span (← lookup name narrowing.span)
    let narrowed ← build (Build.insertValue .unwrap [v] narrowing.ty narrowing.span)
    let n ← build (Build.insert .store [narrowed] [] narrowing.span)
    build (Build.setAttr n "name" (.str name))
    modifyScope fun scope => scope.recordRefined name narrowing.ty

/-- Narrow the variables of a map, in the order of their names. -/
def insertRefinements (map : RefinementMap) : Lower Unit :=
  map.entries.forM fun entry => narrow entry.1 entry.2

/-- Run an action with some variables narrowed, for the action only. -/
def refined {α : Type} (map : RefinementMap) (action : Lower α) : Lower α := do
  let block := (← get).builder.point.block
  let (answer, _) ← withFrame block false none (do insertRefinements map; action)
  return answer

end Flowgraph.Lower
