import Flowgraph.Fault
import Flowgraph.Ty.Join

/-!
# Typing of primitives

For every primitive, how many operands it takes and what it makes of operands of given types.
Ranks of tensors do not matter for the first two operands: they are erased before the rules are
consulted.  A wrong number of operands is a fault of shape, wrong types are a fault of type.
-/

namespace Flowgraph.Primitive

/-- The least and the greatest number of operands. -/
def arity : Primitive → Nat × Nat
  | .neg | .not | .bitNot | .int | .float | .bool | .str | .numToTensor | .len | .keys | .abs | .all
  | .hash | .hex | .oct | .bin | .ord | .chr | .list | .rangelist | .round => (1, 1)
  | .min | .max => (1, 2)
  | .select | .setItem | .indexPut | .rangeLength | .deriveIndex => (3, 3)
  | .slice => (4, 5)
  | _ => (2, 2)

/-- The type of an arithmetic result of two scalars. -/
def scalarResult : Ty → Ty → Ty
  | .float, _ => .float
  | _, .float => .float
  | .number, _ => .number
  | _, .number => .number
  | _, _ => .int

/-- `ty` if the condition holds. -/
def given (condition : Bool) (ty : Ty) : Option Ty :=
  if condition then some ty else none

/-- A tensor takes a tensor or a scalar as its partner. -/
def isTensorPartner (ty : Ty) : Bool :=
  ty.isTensor || ty.isScalar

/-! ## Families of primitives

The operands of these rules have their ranks erased already. -/

def arithmeticType? (primitive : Primitive) (a b : Ty) : Option Ty :=
  if a.isTensor || b.isTensor then given (isTensorPartner a && isTensorPartner b) .tensor
  else
    match primitive, a, b with
    | .add, .str, .str => some .str
    | .add, .list x, .list y => given (x == y) (.list x)
    | _, _, _ =>
      if a.isScalar && b.isScalar then
        some (if primitive = .div then .float else scalarResult a b)
      else none

def bitwiseType? (primitive : Primitive) (a b : Ty) : Option Ty :=
  if a.isTensor || b.isTensor then some .tensor
  else if a == .bool && b == .bool && primitive ≠ .leftShift && primitive ≠ .rightShift then
    some .bool
  else given (a.isIntLike && b.isIntLike) .int

def comparisonType? (primitive : Primitive) (a b : Ty) : Option Ty :=
  if a.isTensor || b.isTensor then given (isTensorPartner a && isTensorPartner b) .tensor
  else if a.isScalar && b.isScalar then some .bool
  else if a == .str && b == .str then some .bool
  else given ((primitive = .eq || primitive = .ne) && (Ty.join a b).isSome) .bool

def containsType? : Ty → Ty → Option Ty
  | .list inner, elem => given (elem.isSubtype inner) .bool
  | .dict key _, elem => given (elem.isSubtype key) .bool
  | .str, elem => given (elem == .str) .bool
  | _, _ => none

def getItemType? : Ty → Ty → Option Ty
  | .list elem, position => given (position == .int) elem
  | .str, position => given (position == .int) .str
  | .dict key value, position => given (position.isSubtype key) value
  | _, _ => none

def setItemType? : Ty → Ty → Ty → Option Ty
  | .list elem, position, value => given (position == .int && value.isSubtype elem) (.list elem)
  | .dict key elem, position, value =>
    given (position.isSubtype key && value.isSubtype elem) (.dict key elem)
  | _, _, _ => none

def lenType? (ty : Ty) : Option Ty :=
  match ty with
  | .list _ | .str | .dict _ _ => some .int
  | _ => given ty.isTensor .int

def extremumType? (a b : Ty) : Option Ty :=
  if a.isTensor && b.isTensor then some .tensor
  else given (a.isScalar && b.isScalar) (scalarResult a b)

/-- A slice of a tensor names its dimension; one of a list or a string does not. -/
def sliceType? (ty : Ty) (bounds : List Ty) : Option Ty :=
  if ty.isTensor && bounds.length = 4 then given (bounds.all (· == .int)) .tensor
  else
    match ty with
    | .list _ | .str => given (bounds.length = 3 && bounds.all (· == .int)) ty
    | _ => none

def unaryType? (primitive : Primitive) (a : Ty) : Option Ty :=
  match primitive with
  | .neg | .abs => if a.isTensor then some .tensor else given a.isNumber a
  | .bitNot =>
    match a with
    | .tensor => some .tensor
    | .int => some .int
    | _ => none
  | .not => given (a == .bool) .bool
  | .int => given (a.isTensor || a.isScalar || a == .str) .int
  | .float => given (a.isTensor || a.isScalar || a == .str) .float
  | .bool => given (a.isTensor || a.isScalar) .bool
  | .str => some .str
  | .numToTensor => given a.isScalar .tensor
  | .len => lenType? a
  | .keys =>
    match a with
    | .dict key _ => some (.list key)
    | _ => none
  | .min | .max =>
    match a with
    | .list elem => given elem.isScalar elem
    | _ => none
  | .all =>
    match a with
    | .list _ | .tensor => some .bool
    | _ => none
  | .round =>
    match a with
    | .tensor => some .tensor
    | _ => given a.isNumber .float
  | .hash => given (a.isScalar || a == .str || a.isTensor) .int
  | .hex | .oct | .bin | .chr => given a.isIntLike .str
  | .ord => given (a == .str) .int
  | .list =>
    match a with
    | .list elem => some (.list elem)
    | .str => some (.list .str)
    | _ => none
  | .rangelist => given (a == .int) (.list .int)
  | _ => none

def binaryType? (primitive : Primitive) (a b : Ty) : Option Ty :=
  match primitive with
  | .add | .sub | .mul | .div | .floorDiv | .remainder | .pow => arithmeticType? primitive a b
  | .matmul | .copy => given (a.isTensor && b.isTensor) .tensor
  | .bitAnd | .bitOr | .bitXor | .leftShift | .rightShift => bitwiseType? primitive a b
  | .eq | .ne | .lt | .le | .gt | .ge => comparisonType? primitive a b
  | .is | .isNot => some .bool
  | .contains => containsType? a b
  | .addInPlace | .subInPlace | .mulInPlace | .divInPlace =>
    given (a.isTensor && isTensorPartner b) .tensor
  | .unsqueeze => given (a.isTensor && b == .int) .tensor
  | .index => given (a.isTensor && b.isOptionalTensorList) .tensor
  | .getItem => getItemType? a b
  | .min | .max => extremumType? a b
  | .divmod => given (a.isScalar && b.isScalar) (.tuple [scalarResult a b, scalarResult a b])
  | _ => none

/-! ## Operands as they are -/

/-- The type of the result for operands in the right number.  Operands beyond the second, and the
element that is appended to a list, are taken with their ranks. -/
def resultType? (primitive : Primitive) (args : List Ty) : Option Ty :=
  match primitive, args with
  | .append, [.list elem, value] => given (value.isSubtype elem.unshaped) (.list elem.unshaped)
  | .append, _ => none
  | .rangeLength, args | .deriveIndex, args => given (args.all (· == .int)) .int
  | .select, a :: rest => given (a.isTensor && rest.all (· == .int)) .tensor
  | .slice, a :: bounds => sliceType? a.unshaped bounds
  | .indexPut, [a, b, value] =>
    given (a.isTensor && b.unshaped.isOptionalTensorList && value.isTensor) .tensor
  | .setItem, [a, position, value] => setItemType? a.unshaped position.unshaped value
  | primitive, [a] => unaryType? primitive a.unshaped
  | primitive, [a, b] => binaryType? primitive a.unshaped b.unshaped
  | _, _ => none

/-- The result type of a primitive, or what is wrong with its operands. -/
def check (primitive : Primitive) (args : List Ty) (span : Span) : Except Fault Ty :=
  let (least, most) := primitive.arity
  if args.length < least ∨ args.length > most then
    .error (.shape span (.primitiveArity primitive least most args.length))
  else
    match primitive.resultType? args with
    | some ty => .ok ty
    | none => .error (.type span (.primitiveOperands primitive args))

end Flowgraph.Primitive
