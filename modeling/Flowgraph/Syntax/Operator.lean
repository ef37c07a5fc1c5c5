/-!
# Operators

Binary and unary operators of the source language: their spelling in programs, their tag in the
encoded form of a tree, and the method by which a class overloads them.
-/

namespace Flowgraph

inductive BinaryOp where
  | add | sub | mul | div | floorDiv | mod | pow | matMul
  | bitAnd | bitOr | bitXor | leftShift | rightShift
  | eq | ne | lt | le | gt | ge
  | and | or | is | isNot | isIn | notIn
  deriving DecidableEq, Repr, Inhabited

namespace BinaryOp

def all : List BinaryOp :=
  [.add, .sub, .mul, .div, .floorDiv, .mod, .pow, .matMul,
   .bitAnd, .bitOr, .bitXor, .leftShift, .rightShift,
   .eq, .ne, .lt, .le, .gt, .ge,
   .and, .or, .is, .isNot, .isIn, .notIn]

/-- The spelling in programs. -/
def symbol : BinaryOp → String
  | .add => "+"
  | .sub => "-"
  | .mul => "*"
  | .div => "/"
  | .floorDiv => "//"
  | .mod => "%"
  | .pow => "**"
  | .matMul => "@"
  | .bitAnd => "&"
  | .bitOr => "|"
  | .bitXor => "^"
  | .leftShift => "<<"
  | .rightShift => ">>"
  | .eq => "=="
  | .ne => "!="
  | .lt => "<"
  | .le => "<="
  | .gt => ">"
  | .ge => ">="
  | .and => "and"
  | .or => "or"
  | .is => "is"
  | .isNot => "is not"
  | .isIn => "in"
  | .notIn => "not in"

def ofSymbol? (text : String) : Option BinaryOp :=
  all.find? fun op => op.symbol = text

/-- The tag in the encoded form of a tree. -/
def tag : BinaryOp → String
  | .add => "Add"
  | .sub => "Sub"
  | .mul => "Mul"
  | .div => "Div"
  | .floorDiv => "FloorDiv"
  | .mod => "Mod"
  | .pow => "Pow"
  | .matMul => "MatMul"
  | .bitAnd => "BitAnd"
  | .bitOr => "BitOr"
  | .bitXor => "BitXor"
  | .leftShift => "LShift"
  | .rightShift => "RShift"
  | .eq => "Eq"
  | .ne => "Ne"
  | .lt => "Lt"
  | .le => "Le"
  | .gt => "Gt"
  | .ge => "Ge"
  | .and => "And"
  | .or => "Or"
  | .is => "Is"
  | .isNot => "IsNot"
  | .isIn => "In"
  | .notIn => "NotIn"

def ofTag? (text : String) : Option BinaryOp :=
  all.find? fun op => op.tag = text

def isComparison : BinaryOp → Bool
  | .eq | .ne | .lt | .le | .gt | .ge => true
  | _ => false

def isShortCircuit : BinaryOp → Bool
  | .and | .or => true
  | _ => false

/-- Whether the operator may stand in an augmented assignment. -/
def isAugmentable : BinaryOp → Bool
  | .add | .sub | .mul | .div | .floorDiv | .mod | .pow | .matMul
  | .bitAnd | .bitOr | .bitXor | .leftShift | .rightShift => true
  | _ => false

/-- The stem of the names of the overloading methods. -/
def stem? : BinaryOp → Option String
  | .add => "add"
  | .sub => "sub"
  | .mul => "mul"
  | .div => "truediv"
  | .floorDiv => "floordiv"
  | .mod => "mod"
  | .pow => "pow"
  | .matMul => "matmul"
  | .bitAnd => "and"
  | .bitOr => "or"
  | .bitXor => "xor"
  | .leftShift => "lshift"
  | .rightShift => "rshift"
  | .eq => "eq"
  | .ne => "ne"
  | .lt => "lt"
  | .le => "le"
  | .gt => "gt"
  | .ge => "ge"
  | .isIn => "contains"
  | .and | .or | .is | .isNot | .notIn => none

/-- The method that overloads the operator: of the left operand, or of the container for `in`. -/
def method? (op : BinaryOp) : Option String :=
  op.stem?.map fun stem => "__" ++ stem ++ "__"

/-- The method that overloads the augmented assignment of the operator. -/
def inPlaceMethod? (op : BinaryOp) : Option String :=
  op.stem?.map fun stem => "__i" ++ stem ++ "__"

end BinaryOp

inductive UnaryOp where
  | not | neg | invert
  deriving DecidableEq, Repr, Inhabited

namespace UnaryOp

def all : List UnaryOp := [.not, .neg, .invert]

def symbol : UnaryOp → String
  | .not => "not"
  | .neg => "-"
  | .invert => "~"

def ofSymbol? (text : String) : Option UnaryOp :=
  all.find? fun op => op.symbol = text

def tag : UnaryOp → String
  | .not => "Not"
  | .neg => "Neg"
  | .invert => "Invert"

def ofTag? (text : String) : Option UnaryOp :=
  all.find? fun op => op.tag = text

def method? : UnaryOp → Option String
  | .not => none
  | .neg => some "__neg__"
  | .invert => some "__invert__"

end UnaryOp

end Flowgraph
