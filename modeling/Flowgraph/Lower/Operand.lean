import Flowgraph.Lower.Member

/-!
# Operands

The constructs of the language are lowered by combining the actions of their parts.  An `Operand`
is such a part: an expression together with the action that lowers it.  An `Item` is a part in a
list, where an expression may stand that has no value of its own: a starred element, a slice, an
ellipsis.  A `Target` is a part that is assigned to.
-/

namespace Flowgraph

/-- What an expression denotes, and its outcome as a test if that is known. -/
structure Outcome where
  entity : Entity
  known : Option Bool := none

/-- An expression with the action that lowers it towards a type. -/
structure Operand where
  expr : Expr
  lower : Option Ty → Lower Outcome

/-- How an expression stands in a list of parts. -/
inductive ItemForm where
  | plain
  | starred (inner : Operand)
  | slice (start stop step : Option Operand)
  | ellipsis
  | noneLiteral

structure Item extends Operand where
  form : ItemForm

/-- Something to assign to; a starred target takes what the others leave. -/
structure Target where
  starred : Bool
  assign : Entity → Span → Lower Unit

/-- A truth value with what follows from it. -/
structure Condition where
  value : ValueId
  refinements : Refinements := .none
  known : Option Bool := none

namespace Outcome

def ofValue (v : ValueId) : Outcome := ⟨.value v, none⟩

end Outcome

namespace Operand

def span (operand : Operand) : Span :=
  operand.expr.span

def entity (operand : Operand) : Lower Entity :=
  return (← operand.lower none).entity

/-- Lower to a value, with a type in mind. -/
def value (operand : Operand) (hint : Option Ty) : Lower ValueId := do
  Lower.toValue operand.span (← operand.lower hint).entity

end Operand

namespace Lower

/-- A value as a truth value. -/
def asBool (v : ValueId) (span : Span) : Lower ValueId := do
  let ty ← typeOf v
  match ty with
  | .bool => return v
  | _ =>
    if ty.isTensor then primitive .bool [v] span
    else
      match ty.classWith? "__bool__" with
      | some cls => callMethod v cls "__bool__" [] span
      | none => fail (.type span (.notCondition ty))

/-- The value of a constant of type bool. -/
def knownBool? (v : ValueId) : Lower (Option Bool) :=
  return (← build (Build.constantOf? v)).bind Literal.asBool?

/-- Whether an expression calls `isinstance`. -/
def isInstanceCall (expr : Expr) : Lower Bool := do
  match expr with
  | .call _ callee _ _ =>
    match ← preludeCallee? callee with
    | some .isInstance => return true
    | _ => return false
  | _ => return false

end Lower

/-- Whether an expression is a test by its form: its value is a bool, and its outcome may be
known. -/
def Expr.isTest : Expr → Bool
  | .unary _ .not _ => true
  | .binary _ .and _ _ | .binary _ .or _ _ | .binary _ .is _ _ | .binary _ .isNot _ _ => true
  | _ => false

namespace Operand

/-- Lower to a truth value. -/
def truth (operand : Operand) : Lower ValueId := do
  Lower.asBool (← operand.value none) operand.span

/-- Lower as a test.  What it says about optional variables is read off before it is lowered. -/
def condition (operand : Operand) : Lower Condition := do
  let refinements := operand.expr.refinements (← Lower.getScope).typeOf?
  if operand.expr.isTest then
    let outcome ← operand.lower none
    let value ← Lower.toValue operand.span outcome.entity
    return { value, refinements, known := outcome.known }
  else if ← Lower.isInstanceCall operand.expr then
    let value ← operand.value none
    return { value, refinements, known := ← Lower.knownBool? value }
  else
    return { value := ← operand.truth, refinements }

end Operand

end Flowgraph
