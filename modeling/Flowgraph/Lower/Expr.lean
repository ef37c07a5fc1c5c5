import Flowgraph.Lower.CallForm
import Flowgraph.Lower.Collection
import Flowgraph.Lower.Condition
import Flowgraph.Lower.Operator
import Flowgraph.Lower.Target

/-!
# Lowering expressions

`Expr.lower` gives every form of expression its meaning by one of the combinators of the other
modules, applied to the actions of its parts; `Expr.assign` does so for expressions that stand on
the left of an assignment.  The recursion follows the tree.
-/

namespace Flowgraph

namespace Lower

/-- A constant.  `None` takes the optional type that is expected of it. -/
def constant (span : Span) (value : Literal) (hint : Option Ty) : Lower ValueId :=
  match value, hint with
  | .nothing, some (.optional inner) => build (Build.none (.optional inner) span)
  | value, _ => build (Build.literal value span)

/-- The outcome of a construct that always gives a value. -/
def outcome (action : Lower ValueId) : Lower Outcome :=
  return .ofValue (← action)

/-- A binary operator: the logical ones and the tests of identity are conditions, the others apply
a primitive. -/
def binaryForm (span : Span) (op : BinaryOp) (lhs rhs : Operand) : Lower Outcome :=
  match op with
  | .and => shortCircuit span true lhs rhs
  | .or => shortCircuit span false lhs rhs
  | .is => identity span false lhs rhs
  | .isNot => identity span true lhs rhs
  | op => outcome (binary span op lhs rhs)

/-- A unary operator: `not` is a condition, the others apply a primitive. -/
def unaryForm (span : Span) (op : UnaryOp) (operand : Operand) : Lower Outcome :=
  match op with
  | .not => negation span operand
  | op => outcome (unary span op operand)

end Lower

mutual

/-- Lower an expression, with a type in mind. -/
def Expr.lower : Expr → Option Ty → Lower Outcome
  | .var span name, _ => return { entity := ← Lower.lookup name span }
  | .const span value, hint => Lower.outcome (Lower.constant span value hint)
  | .binary span op lhs rhs, _ => Lower.binaryForm span op ⟨lhs, lhs.lower⟩ ⟨rhs, rhs.lower⟩
  | .unary span op operand, _ => Lower.unaryForm span op ⟨operand, operand.lower⟩
  | .ternary span cond body orelse, hint =>
    Lower.outcome
      (Lower.ternary span ⟨cond, cond.lower⟩ ⟨body, body.lower⟩ ⟨orelse, orelse.lower⟩ hint)
  | .subscript span base indices, _ =>
    Lower.outcome (Lower.subscript span ⟨base, base.lower⟩ (Expr.items indices))
  | .slice span .., _ => Lower.fail (.shape span (.onlyAsIndex "slice"))
  | .ellipsis span, _ => Lower.fail (.shape span (.onlyAsIndex "ellipsis"))
  | .starred span _, _ => Lower.fail (.shape span .strayStar)
  | .call span callee args keywords, _ => do
    let entity ← Lower.callExpression span ⟨callee, callee.lower⟩ (Expr.items args)
      (keywords.map Keyword.name)
    return { entity }
  | .attribute span base attr, _ => do
    let base ← base.lower none
    return { entity := ← Lower.getAttribute base.entity span attr.name }
  | .list span elems, hint => Lower.outcome (Lower.listLiteral span (Expr.items elems) hint)
  | .tuple span elems, hint => Lower.outcome (Lower.tupleLiteral span (Expr.items elems) hint)
  | .dict span entries, hint => Lower.outcome (Lower.dictLiteral span (Expr.entries entries) hint)
  | .listComp span elem target iter, hint =>
    Lower.outcome (Lower.comprehension span ⟨elem, elem.lower⟩ ⟨target.isStarred, target.assign⟩
      ⟨iter, iter.lower⟩ hint)

/-- How an expression stands in a list of parts. -/
def Expr.itemForm : Expr → ItemForm
  | .starred _ inner => .starred ⟨inner, inner.lower⟩
  | .slice _ start stop step =>
    .slice (Expr.operand? start) (Expr.operand? stop) (Expr.operand? step)
  | .ellipsis _ => .ellipsis
  | .const _ .nothing => .noneLiteral
  | _ => .plain

/-- An expression that may be left out. -/
def Expr.operand? : Option Expr → Option Operand
  | none => none
  | some expr => some ⟨expr, expr.lower⟩

/-- The parts of a list. -/
def Expr.items : List Expr → List Item
  | [] => []
  | expr :: rest => ⟨⟨expr, expr.lower⟩, expr.itemForm⟩ :: Expr.items rest

/-- The keys and values of a dict. -/
def Expr.entries : List (Expr × Expr) → List (Operand × Operand)
  | [] => []
  | (key, value) :: rest =>
    (⟨key, key.lower⟩, ⟨value, value.lower⟩) :: Expr.entries rest

/-- Assign an entity to an expression; the span is that of the whole assignment. -/
def Expr.assign : Expr → Entity → Span → Lower Unit
  | .var here name, entity, _ => Lower.bindName name entity none here
  | .tuple here elems, entity, span | .list here elems, entity, span => do
    Lower.validateTargets elems here
    Lower.destructure (Expr.targets elems) entity span
  | .subscript _ base indices, entity, span => do
    let v ← Lower.toValue span entity
    Lower.assignItem ⟨base, base.lower⟩ (Expr.items indices) v span
  | .attribute here base attr, entity, span => do
    let base ← base.lower none
    let v ← Lower.toValue span entity
    Lower.setAttribute base.entity here attr.name v
  | .starred here _, _, _ => Lower.fail (.shape here .loneStar)
  | other, _, _ => Lower.fail (.shape other.span (.notAssignable other.form))

/-- The targets of an assignment to several. -/
def Expr.targets : List Expr → List Target
  | [] => []
  | .starred _ inner :: rest => ⟨true, inner.assign⟩ :: Expr.targets rest
  | target :: rest => ⟨false, target.assign⟩ :: Expr.targets rest

end

namespace Expr

/-- An expression with its meaning. -/
def operand (expr : Expr) : Operand :=
  ⟨expr, expr.lower⟩

def entity (expr : Expr) : Lower Entity :=
  expr.operand.entity

def value (expr : Expr) (hint : Option Ty) : Lower ValueId :=
  expr.operand.value hint

end Expr

end Flowgraph
