import Flowgraph.Lower.Expr

/-!
# Assignment statements

`target = value`, `target: type = value` and `target op= value`.  The last one reads its target,
applies the operator and writes the result back; tensors are updated in place instead, where the
operator has a primitive for that.
-/

namespace Flowgraph.Lower

/-! ## Plain assignments -/

/-- `target: type = value` -/
def assignDeclared (target type value : Expr) (span : Span) : Lower Unit := do
  match target.asName? with
  | none => fail (.shape target.span (.typedTarget target.form))
  | some name =>
    let ty ← surfaceType type
    let v ← value.value (some ty)
    let found ← typeOf v
    match ← convert? v ty span with
    | some converted => bindName name (.value converted) (some ty) span
    | none => fail (.type span (.annotatedMismatch name ty found))

/-- `target = value`.  Targets are checked before the value is lowered where that needs no more
than their form. -/
def assignPlain (target value : Expr) (span : Span) : Lower Unit := do
  match target with
  | .tuple here elems | .list here elems =>
    validateTargets elems here
    destructure (Expr.targets elems) (← value.entity) span
  | .starred here _ => fail (.shape here .loneStar)
  | .subscript _ base indices =>
    let v ← value.value none
    assignItem base.operand (Expr.items indices) v span
  | other => other.assign (← value.entity) span

def assign (target : Expr) (type value : Option Expr) (span : Span) : Lower Unit :=
  match type, value with
  | _, none => fail (.unsupported span .declaration)
  | some type, some value => assignDeclared target type value span
  | none, some value => assignPlain target value span

/-- Assign to the targets of a loop. -/
def assignTargets (targets : List Expr) (entity : Entity) (span : Span) : Lower Unit := do
  match targets with
  | [target] => target.assign entity span
  | _ =>
    validateTargets targets span
    destructure (Expr.targets targets) entity span

/-! ## Augmented assignments -/

/-- `name op= value` -/
def augmentName (name : String) (here : Span) (op : BinaryOp) (value : Expr) (span : Span) :
    Lower Unit := do
  let current ← toValue here (← lookup name here)
  let rhs ← value.value none
  let result ← applyAugmented op current rhs span
  bindName name (.value result) none span

/-- `base.attr op= value`; a tensor attribute is updated in place and not set again. -/
def augmentAttribute (base : Expr) (attr : String) (here : Span) (op : BinaryOp) (value : Expr)
    (span : Span) : Lower Unit := do
  let object ← base.entity
  let current ← toValue here (← getAttribute object here attr)
  let rhs ← value.value none
  match ← inPlace? current op with
  | some operation =>
    let _ ← primitive operation [current, rhs] span
  | none =>
    let result ← applyBinary op current rhs span
    setAttribute object span attr result

/-- `tensor[items] op= value` -/
def augmentTensor (tensor : ValueId) (items : List Item) (op : BinaryOp) (value : Expr)
    (span : Span) : Lower Unit := do
  let sliced ← decompose tensor items span
  let rhs ← value.value none
  if sliced.positions.isEmpty then
    match ← inPlace? sliced.tensor op with
    | some operation =>
      let _ ← primitive operation [sliced.tensor, rhs] span
    | none =>
      let result ← applyBinary op sliced.tensor rhs span
      let result ← coerce result .tensor span .augmented
      let _ ← primitive .copy [sliced.tensor, result] span
  else
    let list ← positionList sliced.positions span
    let current ← primitive .index [sliced.tensor, list] span
    let result ← applyBinary op current rhs span
    let result ← coerce result .tensor span .augmented
    let _ ← primitive .indexPut [sliced.tensor, list, result] span

/-- `container[item] op= value` for a container with keys and elements of the given types. -/
def augmentContainer (container : ValueId) (key elem : Ty) (items : List Item) (op : BinaryOp)
    (value : Expr) (span : Span) : Lower Unit := do
  let item ← singleIndex items span "container"
  if let .slice .. := item.form then fail (.unsupported item.span .augmentedSlice)
  let position ← coerce (← item.value (some key)) key item.span .index
  let current ← primitive .getItem [container, position] span
  let rhs ← value.value none
  let result ← applyBinary op current rhs span
  let result ← coerce result elem span .augmented
  let _ ← primitive .setItem [container, position, result] span

/-- `base[items] op= value` -/
def augmentItem (base : Expr) (items : List Item) (op : BinaryOp) (value : Expr) (span : Span) :
    Lower Unit := do
  match ← base.entity with
  | .value v =>
    let ty ← typeOf v
    match ty with
    | .tensor | .ranked _ => augmentTensor v items op value span
    | .list elem => augmentContainer v .int elem items op value span
    | .dict key elem => augmentContainer v key elem items op value span
    | _ => fail (.type span (.noItemAssignment (.ofType ty)))
  | other => fail (.type span (.noItemAssignment (.ofKind other.kind)))

/-- `target op= value` -/
def augment (target : Expr) (op : BinaryOp) (value : Expr) (span : Span) : Lower Unit := do
  if !op.isAugmentable then fail (.shape span (.notAugmentable op))
  match target with
  | .var here name => augmentName name here op value span
  | .attribute here base attr => augmentAttribute base attr.name here op value span
  | .subscript _ base indices => augmentItem base (Expr.items indices) op value span
  | other => fail (.shape other.span (.augmentedTarget other.form))

end Flowgraph.Lower
