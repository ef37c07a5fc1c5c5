import Flowgraph.Syntax.Operator

/-!
# Operations of graph nodes

A `Primitive` is an operation of the tensor library, printed as `ops::name`.  An `Op` is either one
of them or one of the structural operations of a graph, printed as `prim::Name`.
-/

namespace Flowgraph

inductive Primitive where
  | add | sub | mul | div | floorDiv | remainder | pow | matmul
  | bitAnd | bitOr | bitXor | leftShift | rightShift
  | eq | ne | lt | le | gt | ge
  | neg | not | bitNot | is | isNot | contains
  | addInPlace | subInPlace | mulInPlace | divInPlace
  | int | float | bool | str | numToTensor
  | select | slice | unsqueeze | index | indexPut | copy
  | getItem | setItem | len | append | keys | rangeLength | deriveIndex
  | min | max | abs | all | round | hash | hex | oct | bin | ord | chr | divmod | list | rangelist
  deriving DecidableEq, Repr, Inhabited

namespace Primitive

def every : List Primitive :=
  [.add, .sub, .mul, .div, .floorDiv, .remainder, .pow, .matmul,
   .bitAnd, .bitOr, .bitXor, .leftShift, .rightShift,
   .eq, .ne, .lt, .le, .gt, .ge,
   .neg, .not, .bitNot, .is, .isNot, .contains,
   .addInPlace, .subInPlace, .mulInPlace, .divInPlace,
   .int, .float, .bool, .str, .numToTensor,
   .select, .slice, .unsqueeze, .index, .indexPut, .copy,
   .getItem, .setItem, .len, .append, .keys, .rangeLength, .deriveIndex,
   .min, .max, .abs, .all, .round, .hash, .hex, .oct, .bin, .ord, .chr, .divmod, .list, .rangelist]

def name : Primitive → String
  | .add => "add"
  | .sub => "sub"
  | .mul => "mul"
  | .div => "div"
  | .floorDiv => "floordiv"
  | .remainder => "remainder"
  | .pow => "pow"
  | .matmul => "matmul"
  | .bitAnd => "__and__"
  | .bitOr => "__or__"
  | .bitXor => "__xor__"
  | .leftShift => "__lshift__"
  | .rightShift => "__rshift__"
  | .eq => "eq"
  | .ne => "ne"
  | .lt => "lt"
  | .le => "le"
  | .gt => "gt"
  | .ge => "ge"
  | .neg => "neg"
  | .not => "__not__"
  | .bitNot => "bitwise_not"
  | .is => "__is__"
  | .isNot => "__isnot__"
  | .contains => "__contains__"
  | .addInPlace => "add_"
  | .subInPlace => "sub_"
  | .mulInPlace => "mul_"
  | .divInPlace => "div_"
  | .int => "int"
  | .float => "float"
  | .bool => "bool"
  | .str => "str"
  | .numToTensor => "num_to_tensor"
  | .select => "select"
  | .slice => "slice"
  | .unsqueeze => "unsqueeze"
  | .index => "index"
  | .indexPut => "index_put_"
  | .copy => "copy_"
  | .getItem => "__getitem__"
  | .setItem => "_set_item"
  | .len => "len"
  | .append => "append"
  | .keys => "keys"
  | .rangeLength => "__range_length"
  | .deriveIndex => "__derive_index"
  | .min => "min"
  | .max => "max"
  | .abs => "abs"
  | .all => "all"
  | .round => "round"
  | .hash => "hash"
  | .hex => "hex"
  | .oct => "oct"
  | .bin => "bin"
  | .ord => "ord"
  | .chr => "chr"
  | .divmod => "divmod"
  | .list => "list"
  | .rangelist => "rangelist"

def ofName? (text : String) : Option Primitive :=
  every.find? fun primitive => primitive.name = text

/-- The primitive that a binary operator applies; none for operators that lower to control flow. -/
def ofBinary? : BinaryOp → Option Primitive
  | .add => some .add
  | .sub => some .sub
  | .mul => some .mul
  | .div => some .div
  | .floorDiv => some .floorDiv
  | .mod => some .remainder
  | .pow => some .pow
  | .matMul => some .matmul
  | .bitAnd => some .bitAnd
  | .bitOr => some .bitOr
  | .bitXor => some .bitXor
  | .leftShift => some .leftShift
  | .rightShift => some .rightShift
  | .eq => some .eq
  | .ne => some .ne
  | .lt => some .lt
  | .le => some .le
  | .gt => some .gt
  | .ge => some .ge
  | .is => some .is
  | .isNot => some .isNot
  | .isIn => some .contains
  | .and | .or | .notIn => none

def ofUnary : UnaryOp → Primitive
  | .not => .not
  | .neg => .neg
  | .invert => .bitNot

/-- The variant that updates its tensor in place, for augmented assignments. -/
def inPlace? : Primitive → Option Primitive
  | .add => some .addInPlace
  | .sub => some .subInPlace
  | .mul => some .mulInPlace
  | .div => some .divInPlace
  | _ => none

end Primitive

inductive Op where
  | constant | load | store
  | branch | loop | closure | forkClosure | fork
  | leave | next | raise | print | unwrap
  | listConstruct | tupleConstruct | dictConstruct
  | tupleIndex | tupleSlice | tupleUnpack | listUnpack
  | createObject | getAttr | setAttr | callMethod | callFunction
  | primitive (operation : Primitive)
  deriving DecidableEq, Repr, Inhabited

namespace Op

/-- Every structural operation. -/
def structural : List Op :=
  [.constant, .load, .store, .branch, .loop, .closure, .forkClosure, .fork, .leave, .next, .raise,
   .print, .unwrap, .listConstruct, .tupleConstruct, .dictConstruct, .tupleIndex, .tupleSlice,
   .tupleUnpack, .listUnpack, .createObject, .getAttr, .setAttr, .callMethod, .callFunction]

def render : Op → String
  | .constant => "prim::Constant"
  | .load => "prim::Load"
  | .store => "prim::Store"
  | .branch => "prim::If"
  | .loop => "prim::Loop"
  | .closure => "prim::Closure"
  | .forkClosure => "prim::ForkClosure"
  | .fork => "prim::Fork"
  | .leave => "prim::Break"
  | .next => "prim::Continue"
  | .raise => "prim::Raise"
  | .print => "prim::Print"
  | .unwrap => "prim::UncheckedUnwrapOptional"
  | .listConstruct => "prim::ListConstruct"
  | .tupleConstruct => "prim::TupleConstruct"
  | .dictConstruct => "prim::DictConstruct"
  | .tupleIndex => "prim::TupleIndex"
  | .tupleSlice => "prim::TupleSlice"
  | .tupleUnpack => "prim::TupleUnpack"
  | .listUnpack => "prim::ListUnpack"
  | .createObject => "prim::CreateObject"
  | .getAttr => "prim::GetAttr"
  | .setAttr => "prim::SetAttr"
  | .callMethod => "prim::CallMethod"
  | .callFunction => "prim::CallFunction"
  | .primitive operation => "ops::" ++ operation.name

/-- Read an operation as `render` writes it. -/
def ofText? (text : String) : Option Op :=
  (structural ++ Primitive.every.map Op.primitive).find? fun op => op.render = text

end Op

end Flowgraph
