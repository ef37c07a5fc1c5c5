import Flowgraph.Proofs.Locations.Spans
import Flowgraph.Proofs.Scopes.Keeps

/-!
# Actions that only work on the graph

Reading names, conversions, primitives, calls of entities, iteration: whatever is made of these
leaves the scope as it is.
-/

namespace Flowgraph

namespace Law

variable {L : Law}

instance {expr : Expr} [h : L.Covers expr.spans] : L.At expr.span := h.mem _ expr.span_mem

instance {operand : Operand} [h : L.Covers operand.expr.spans] : L.At operand.span :=
  h.mem _ operand.expr.span_mem

end Law

namespace Lower.Keeps

variable {args entities : List Entity} {n : NodeId} {op : BinaryOp} {items : List Item}
  {block : BlockId} {expr candidate callee : Expr} {operation : Primitive}
  {inputs values elems : List ValueId} {role : Role} {cls : Class} {rhs elem : ValueId}
  {hint declared : Option Ty} {params : List (String × Ty)}
variable {R : Law} [hR : R.Lawful] {v : ValueId} {span : Span} [hspan : R.At span] {name : String}
  {entity : Entity} {ty : Ty}

/-! ## Names and conversions -/

@[grind ←] theorem typeOf : Keeps R (Lower.typeOf v) := by
  unfold Lower.typeOf
  grind

@[grind ←] theorem toValue : Keeps R (Lower.toValue span entity) := by
  refine ofExcept fun fault hfault => ?_
  unfold Entity.toValue at hfault
  split at hfault <;> cases hfault
  exact type

@[grind ←] theorem toValues : Keeps R (Lower.toValues span entities) := by
  unfold Lower.toValues
  grind

@[grind ←] theorem addBlock : Keeps R (Lower.addBlock n) :=
  build (.create fun _ _ _ hch h => h.addBlock hch)

@[grind ←] theorem addResult : Keeps R (Lower.addResult block v) :=
  build (.update fun _ _ hch h => h.modifyBlock hch)

@[grind ←] theorem surfaceType [hexpr : R.Covers expr.spans] :
    Keeps R (Lower.surfaceType expr) := by
  refine read.bind fun context => ofExcept fun fault hfault => ?_
  obtain ⟨span, hmem, cause, rfl⟩ := expr.surfaceType_fault hfault
  have := hexpr.mem span hmem
  exact type

@[grind ←] theorem nameValue : Keeps R (Lower.nameValue v name) := by
  unfold Lower.nameValue
  split
  · refine get.bind fun s => build (.update fun g g' hch h => ?_)
    obtain ⟨_, _, hch⟩ := Option.bind_eq_some_iff.mp hch
    obtain ⟨_, _, hch⟩ := Option.bind_eq_some_iff.mp hch
    split at hch
    · exact h.modifyValue hch
    · cases hch
      exact h
  · exact pure

@[grind ←] theorem primitive : Keeps R (Lower.primitive operation inputs span) := by
  refine .bind (mapM fun _ _ => typeOf) fun types =>
    .bind (ofExcept fun fault hfault => ?_) fun _ =>
    build (.insertPrimitive hspan.node)
  unfold Primitive.check at hfault
  dsimp only at hfault
  split at hfault
  · cases hfault
    exact shape
  · split at hfault <;> cases hfault
    exact type

@[grind ←] theorem tryConvert (ty : Ty) : Keeps R (Lower.tryConvert v span ty) := by
  unfold Lower.tryConvert
  refine typeOf.bind fun found => ?_
  split
  · exact pure
  · split
    next inner _ => exact tryConvert inner
    all_goals first | exact pure | split
    all_goals first | exact pure | exact build (.insertPrimitive hspan.node)

@[grind ←] theorem convert? : Keeps R (Lower.convert? v ty span) :=
  (tryConvert ty).bind fun _ => typeOf.bind fun _ => pure

@[grind ←] theorem coerce : Keeps R (Lower.coerce v ty span role) := by
  refine convert?.bind fun converted => ?_
  cases converted with
  | some => exact pure
  | none => exact typeOf.bind fun _ => type

@[grind ←] theorem tuple : Keeps R (Lower.tuple elems span) := by
  unfold Lower.tuple
  grind

@[grind ←] theorem describe : Keeps R (Lower.describe entity) := by
  unfold Lower.describe
  grind

@[grind ←] theorem load {frame : Nat} : Keeps R (Lower.load name ty frame span) := by
  have hread : Keeps R (do
      let v ← Lower.build (Build.insertWith .load [] ty "name" (.str name) span)
      Lower.nameValue v name
      return v) := by
    grind
  refine getScope.bind fun scope => ?_
  split
  · exact atPoint .enterBefore hread
  · exact hread

@[grind ←] theorem ofHostValue {value : HostValue} : Keeps R (Lower.ofHostValue value span) := by
  unfold Lower.ofHostValue
  grind

@[grind ←] theorem lookup : Keeps R (Lower.lookup name span) := by
  intro ctx s
  unfold Lower.lookup
  rw [bind_of_ok (show Lower.getScope ctx s = .ok (s.scope, s) from rfl)]
  rcases s.scope.find? name with _ | ⟨frame, ty | denoted⟩
  · cases hdfr : s.scope.deferred? name with
    | some fault => exact hR.deferred hdfr
    | none =>
      refine read.bind (fun context => ?_) ctx s
      grind
  · exact load.bind (fun _ => pure) ctx s
  · exact pure ctx s

@[grind ←] theorem preludeCallee? : Keeps R (Lower.preludeCallee? callee) := by
  unfold Lower.preludeCallee?
  grind

@[grind ←] theorem enclosing? : Keeps R (Lower.enclosing? name) := by
  unfold Lower.enclosing?
  grind

@[grind ←] theorem rebind {previous : Binding} :
    Keeps R (Lower.rebind name entity declared span previous) := by
  unfold Lower.rebind
  grind

/-! ## Members -/

@[grind ←] theorem coerceMethodArguments {position : Nat} {args : List ValueId} {types : List Ty} :
    Keeps R (Lower.coerceMethodArguments name span position args types) := by
  fun_induction Lower.coerceMethodArguments name span position args types <;> grind

@[grind ←] theorem callMethod {args : List ValueId} :
    Keeps R (Lower.callMethod v cls name args span) := by
  unfold Lower.callMethod
  grind

@[grind ←] theorem getAttribute : Keeps R (Lower.getAttribute entity span name) := by
  unfold Lower.getAttribute
  cases entity with
  | value v =>
    refine bind typeOf fun ty => ?_
    split <;> grind
  | _ => grind

@[grind ←] theorem setAttribute : Keeps R (Lower.setAttribute entity span name v) := by
  unfold Lower.setAttribute
  cases entity with
  | value object =>
    refine bind typeOf fun ty => ?_
    split <;> grind
  | _ => grind

@[grind ←] theorem expand? {expected : Option Nat} :
    Keeps R (Lower.expand? entity span expected) := by
  have hunpack : ∀ op v types, Keeps R (Lower.expand?.unpack span op v types) := fun _ _ _ =>
    (build (.insert hspan.node)).bind fun _ => build .query
  unfold Lower.expand?
  cases entity with
  | value v =>
    refine bind typeOf fun ty => ?_
    split <;> grind
  | _ => grind

/-! ## Operators -/

@[grind ←] theorem asBool : Keeps R (Lower.asBool v span) := by
  unfold Lower.asBool
  grind

@[grind ←] theorem knownBool? : Keeps R (Lower.knownBool? v) := by
  unfold Lower.knownBool?
  grind

@[grind ←] theorem isInstanceCall : Keeps R (Lower.isInstanceCall expr) := by
  unfold Lower.isInstanceCall
  grind

@[grind ←] theorem knownOutcome {known : Bool} : Keeps R (Lower.knownOutcome known span) := by
  unfold Lower.knownOutcome
  grind

@[grind ←] theorem noneStatus : Keeps R (Lower.noneStatus entity) := by
  unfold Lower.noneStatus
  grind

@[grind ←] theorem insertBranching : Keeps R (Lower.insertBranching v span) := by
  unfold Lower.insertBranching
  grind

@[grind ←] theorem addOutput : Keeps R (Lower.addOutput n ty) :=
  build (.create fun _ _ _ hch h => h.addOutput hch)

@[grind ←] theorem applyBinary : Keeps R (Lower.applyBinary op v rhs span) := by
  unfold Lower.applyBinary
  grind

@[grind ←] theorem contains : Keeps R (Lower.contains v elem span) := by
  unfold Lower.contains
  grind

@[grind ←] theorem inPlace? : Keeps R (Lower.inPlace? v op) := by
  unfold Lower.inPlace?
  grind

@[grind ←] theorem applyAugmented : Keeps R (Lower.applyAugmented op v rhs span) := by
  unfold Lower.applyAugmented
  grind

/-! ## Iteration -/

@[grind ←] theorem rangeParts {start step : Option ValueId} :
    Keeps R (Lower.rangeParts start step) := by
  unfold Lower.rangeParts
  grind

mutual

@[grind ←] theorem item (position : ValueId) (entity : Entity) :
    Keeps R (Lower.item span position entity) := by
  cases entity with
  | zip items =>
    have hitems := itemsAt position items
    unfold Lower.item
    grind
  | enumerate inner =>
    have hin := item position inner
    unfold Lower.item
    grind
  | value v =>
    unfold Lower.item Lower.itemOfValue
    grind
  | _ =>
    unfold Lower.item
    grind

@[grind ←] theorem itemsAt (position : ValueId) (entities : List Entity) :
    Keeps R (Lower.itemsAt span position entities) := by
  cases entities with
  | nil => exact pure
  | cons entity rest =>
    have hent := item position entity
    have hr := itemsAt position rest
    unfold Lower.itemsAt
    grind

end

@[grind ←] theorem lengthOfValue : Keeps R (Lower.lengthOfValue v span) := by
  unfold Lower.lengthOfValue
  grind

mutual

@[grind ←] theorem length (entity : Entity) : Keeps R (Lower.length span entity) := by
  cases entity with
  | zip items =>
    have hitems := shortest none items
    unfold Lower.length
    grind
  | enumerate inner =>
    have hin := length inner
    unfold Lower.length
    grind
  | _ =>
    unfold Lower.length
    grind

@[grind ←] theorem shortest (least : Option ValueId) (entities : List Entity) :
    Keeps R (Lower.shortest span least entities) := by
  cases entities with
  | nil => exact pure
  | cons entity rest =>
    have hent := length entity
    have hr := fun least => shortest least rest
    unfold Lower.shortest
    grind

end

@[grind ←] theorem prepareIterable : Keeps R (Lower.prepareIterable entity span) := by
  unfold Lower.prepareIterable
  grind

@[grind ←] theorem isTuple : Keeps R (Lower.isTuple entity) := by
  unfold Lower.isTuple
  grind

@[grind ←] theorem addNodeInput : Keeps R (Lower.addNodeInput n v) :=
  build (.update fun _ _ hch h => h.modifyNode hch fun _ => rfl)

@[grind ←] theorem addParam : Keeps R (Lower.addParam block ty) :=
  build (.create fun _ _ _ hch h => h.addParam hch)

/-! ## Collections -/

@[grind ←] theorem commonType? : Keeps R (Lower.commonType? name span values) := by
  unfold Lower.commonType? Lower.joinType
  grind

@[grind ←] theorem unified : Keeps R (Lower.unified values hint ty name role span) := by
  unfold Lower.unified
  grind

@[grind ←] theorem axisConstant {axis : Int} : Keeps R (Lower.axisConstant axis) := by
  unfold Lower.axisConstant
  grind

@[grind ←] theorem positionList {positions : List (Int × ValueId)} :
    Keeps R (Lower.positionList positions span) := by
  unfold Lower.positionList
  grind

@[grind ←] theorem constant {value : Literal} : Keeps R (Lower.constant span value hint) := by
  unfold Lower.constant
  grind

/-! ## Calls -/

@[grind ←] theorem coerceArguments {role : String → Role} {args : List ValueId} :
    Keeps R (Lower.coerceArguments role span args params) := by
  fun_induction Lower.coerceArguments role span args params <;> grind

@[grind ←] theorem callCast : Keeps R (Lower.callCast ty name span v) := by
  unfold Lower.callCast
  grind

@[grind ←] theorem callPrimitive {method : Option String} :
    Keeps R (Lower.callPrimitive operation method span inputs) := by
  unfold Lower.callPrimitive
  grind

@[grind ←] theorem makeIterable {kind : IterableKind} :
    Keeps R (Lower.makeIterable kind span args) := by
  unfold Lower.makeIterable
  grind

@[grind ←] theorem callPrelude {entry : PreludeEntry} :
    Keeps R (Lower.callPrelude entry span args) := by
  unfold Lower.callPrelude
  grind

@[grind ←] theorem callEntity : Keeps R (Lower.callEntity entity span args) := by
  unfold Lower.callEntity Lower.construct
  grind

@[grind ←] theorem coerceForked :
    Keeps R (Lower.forkClosure.coerceForked name span args params) := by
  fun_induction Lower.forkClosure.coerceForked name span args params <;> grind

@[grind ←] theorem forkClosure : Keeps R (Lower.forkClosure v span args) := by
  unfold Lower.forkClosure
  grind

@[grind ←] theorem insertClosure : Keeps R (Lower.insertClosure span) := by
  unfold Lower.insertClosure
  grind

@[grind ←] theorem recordSignature {signature : Signature} :
    Keeps R (Lower.recordSignature v signature) :=
  fun _ _ => hR.same id rfl rfl rfl

@[grind ←] theorem isInstance [R.Covers candidate.spans] :
    Keeps R (Lower.isInstance ty candidate span) := by
  unfold Lower.isInstance
  grind

/-! ## Targets and statements -/

@[grind ←] theorem validateTargets {targets : List Expr} :
    Keeps R (Lower.validateTargets targets span) := by
  unfold Lower.validateTargets
  grind

@[grind ←] theorem returned [R.BodiesFree] : Keeps R (Lower.returned v span) := by
  unfold Lower.returned
  grind

@[grind ←] theorem requireNoReturn {stmt : Stmt} [R.At stmt.span] :
    Keeps R (Lower.requireNoReturn stmt) := by
  unfold Lower.requireNoReturn
  grind

theorem bodyResult (hmissing : ∀ name, Keeps R (Lower.fail (.name span (.missingReturn name)) :
    Lower ValueId)) : Keeps R (Lower.bodyResult span) := by
  unfold Lower.bodyResult
  grind

end Lower.Keeps

end Flowgraph
