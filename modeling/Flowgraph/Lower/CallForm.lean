import Flowgraph.Lower.Call
import Flowgraph.Lower.Operand

/-!
# Call expressions

A call lowers its callee, then its arguments.  Three entries of the prelude are told by their name
and look at their arguments before those are lowered: `getattr` wants a literal, `isinstance` and
`annotate` want a type.
-/

namespace Flowgraph.Lower

/-- The entities of an argument: a starred tuple gives several. -/
def argument (item : Item) : Lower (List Entity) := do
  match item.form with
  | .starred inner =>
    let entity ← inner.entity
    match ← expand? entity item.span none with
    | some elems => return elems.map Entity.value
    | none => fail (.type item.span (.starredArgument (← describe entity)))
  | _ => return [← item.entity]

def arguments (items : List Item) : Lower (List Entity) :=
  return (← items.mapM argument).flatten

/-- The two arguments of a call that takes so many. -/
def twoArguments (callee : String) (span : Span) (items : List Item) : Lower (Item × Item) :=
  match items with
  | [first, second] => return (first, second)
  | _ => fail (.shape span (.twoArguments callee items.length))

/-- `getattr(object, "name")` -/
def callGetAttr (span : Span) (items : List Item) : Lower Entity := do
  let (object, name) ← twoArguments "getattr" span items
  match name.expr with
  | .const _ (.str name) => getAttribute (← object.entity) span name
  | _ => fail (.type name.span .attributeNotLiteral)

/-- Whether a value of a type is an instance of what a candidate names. -/
def isInstance (ty : Ty) (candidate : Expr) (span : Span) : Lower Bool := do
  match candidate.asName?, ty with
  | some "list", .list _ => return true
  | some "list", _ => return false
  | some "tuple", .tuple _ => return true
  | some "tuple", _ => return false
  | some "dict", .dict _ _ => return true
  | some "dict", _ => return false
  | _, _ =>
    let target ← surfaceType candidate
    match ty.asOptional? with
    | some inner =>
      if inner.isSubtype target && !Ty.nothing.isSubtype target then
        fail (.unsupported span (.optionalInstance ty))
    | none => pure ()
    return ty.isSubtype target

/-- What an expression offers to `isinstance`: the elements of a tuple, or itself. -/
def candidates : Expr → List Expr
  | .tuple _ elems => elems
  | other => [other]

/-- `isinstance(object, types)`, decided from the type of the value. -/
def callIsInstance (span : Span) (items : List Item) : Lower ValueId := do
  let (object, types) ← twoArguments "isinstance" span items
  let v ← object.value none
  let ty := (← typeOf v).unshaped
  let verdicts ← (candidates types.expr).mapM fun candidate => isInstance ty candidate span
  build (Build.bool (verdicts.any id) span)

/-- `annotate(type, value)` -/
def callAnnotate (span : Span) (items : List Item) : Lower ValueId := do
  let (type, value) ← twoArguments "annotate" span items
  let ty ← surfaceType type.expr
  coerce (← value.value (some ty)) ty span .annotated

/-- `callee(items, keywords)` -/
def callExpression (span : Span) (callee : Operand) (items : List Item)
    (keywords : List Ident) : Lower Entity := do
  if let keyword :: _ := keywords then
    fail (.unsupported keyword.span (.keywordArgument keyword.name))
  match ← preludeCallee? callee.expr with
  | some .getAttr => callGetAttr span items
  | some .isInstance => return .value (← callIsInstance span items)
  | some .annotate => return .value (← callAnnotate span items)
  | _ =>
    let entity ← callee.entity
    let args ← arguments items
    call span entity args

end Flowgraph.Lower
