import Flowgraph.Lower.Operand

/-!
# Operators

An operator is a primitive, unless the class of its left operand overloads it by a method.
-/

namespace Flowgraph.Lower

/-- Apply a binary operator to values. -/
def applyBinary (op : BinaryOp) (lhs rhs : ValueId) (span : Span) : Lower ValueId := do
  let ty ← typeOf lhs
  match op.method?.bind fun method => (ty.classWith? method).map fun cls => (method, cls) with
  | some (method, cls) => callMethod lhs cls method [rhs] span
  | none =>
    match Primitive.ofBinary? op with
    | some operation => primitive operation [lhs, rhs] span
    | none => fail (.internal (.noPrimitive op))

/-- Whether a container holds an element. -/
def contains (container elem : ValueId) (span : Span) : Lower ValueId := do
  match (← typeOf container).classWith? "__contains__" with
  | some cls => callMethod container cls "__contains__" [elem] span
  | none => primitive .contains [container, elem] span

/-- `lhs op rhs`, for the operators that lower both sides to values first. -/
def binary (span : Span) (op : BinaryOp) (lhs rhs : Operand) : Lower ValueId := do
  let left ← lhs.value none
  let right ← rhs.value none
  match op with
  | .isIn => contains right left span
  | .notIn => primitive .not [← contains right left span] span
  | op => applyBinary op left right span

/-- A number literal under a minus sign, as one literal.  The least integer has no negative. -/
def negatedLiteral? : Expr → Option Literal
  | .const _ (.int value) => if value = Int64.minValue then none else some (.int (-value))
  | .const _ (.float value) => some (.float value.negate)
  | _ => none

/-- `op operand`, for the operators that lower to a value first. -/
def unary (span : Span) (op : UnaryOp) (operand : Operand) : Lower ValueId := do
  match if op = .neg then negatedLiteral? operand.expr else none with
  | some literal => build (Build.literal literal span)
  | none =>
    let v ← operand.value none
    let ty ← typeOf v
    match op.method?.bind fun method => (ty.classWith? method).map fun cls => (method, cls) with
    | some (method, cls) => callMethod v cls method [] span
    | none => primitive (.ofUnary op) [v] span

/-! ## Operators that update their left operand -/

/-- The primitive that updates a tensor in place. -/
def inPlace? (v : ValueId) (op : BinaryOp) : Lower (Option Primitive) := do
  if (← typeOf v).isTensor then return (Primitive.ofBinary? op).bind Primitive.inPlace?
  else return none

/-- The operator of `current op= rhs`: tensors are updated in place, and classes may say how. -/
def applyAugmented (op : BinaryOp) (current rhs : ValueId) (span : Span) : Lower ValueId := do
  match ← inPlace? current op with
  | some operation => primitive operation [current, rhs] span
  | none =>
    let ty ← typeOf current
    match op.inPlaceMethod?.bind fun method =>
        (ty.classWith? method).map fun cls => (method, cls) with
    | some (method, cls) => callMethod current cls method [rhs] span
    | none => applyBinary op current rhs span

end Flowgraph.Lower
