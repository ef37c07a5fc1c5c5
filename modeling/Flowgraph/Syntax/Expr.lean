import Flowgraph.Literal
import Flowgraph.Span
import Flowgraph.Syntax.Operator

/-!
# Expressions

Expressions of the source language as trees.  Every node carries the span it was read from as its
first field; the short constructors under `Expr` leave it null.
-/

namespace Flowgraph

/-- A name with the place where it stands. -/
structure Ident where
  name : String
  span : Span := .null
  deriving DecidableEq, Repr, Inhabited

/-- A keyword argument of a call. -/
structure Keyword (ε : Type) where
  name : Ident
  value : ε
  deriving Repr

inductive Expr where
  | var (span : Span) (name : String)
  | const (span : Span) (value : Literal)
  | binary (span : Span) (op : BinaryOp) (lhs rhs : Expr)
  | unary (span : Span) (op : UnaryOp) (operand : Expr)
  /-- `body if cond else orelse` -/
  | ternary (span : Span) (cond body orelse : Expr)
  /-- `value[index₀, index₁, …]` -/
  | subscript (span : Span) (value : Expr) (indices : List Expr)
  /-- `start:stop:step`, which has a meaning as an index only -/
  | slice (span : Span) (start stop step : Option Expr)
  | ellipsis (span : Span)
  | starred (span : Span) (inner : Expr)
  | call (span : Span) (callee : Expr) (args : List Expr) (keywords : List (Keyword Expr))
  | attribute (span : Span) (value : Expr) (attr : Ident)
  | list (span : Span) (elems : List Expr)
  | tuple (span : Span) (elems : List Expr)
  | dict (span : Span) (entries : List (Expr × Expr))
  /-- `[elem for target in iter]` -/
  | listComp (span : Span) (elem target iter : Expr)
  deriving Repr, Inhabited

namespace Expr

def span : Expr → Span
  | .var span .. | .const span .. | .binary span .. | .unary span .. | .ternary span ..
  | .subscript span .. | .slice span .. | .ellipsis span | .starred span .. | .call span ..
  | .attribute span .. | .list span .. | .tuple span .. | .dict span .. | .listComp span .. => span

/-- The same tree with another span at its root. -/
def withSpan (span : Span) : Expr → Expr
  | .var _ name => .var span name
  | .const _ value => .const span value
  | .binary _ op lhs rhs => .binary span op lhs rhs
  | .unary _ op operand => .unary span op operand
  | .ternary _ cond body orelse => .ternary span cond body orelse
  | .subscript _ value indices => .subscript span value indices
  | .slice _ start stop step => .slice span start stop step
  | .ellipsis _ => .ellipsis span
  | .starred _ inner => .starred span inner
  | .call _ callee args keywords => .call span callee args keywords
  | .attribute _ value attr => .attribute span value attr
  | .list _ elems => .list span elems
  | .tuple _ elems => .tuple span elems
  | .dict _ entries => .dict span entries
  | .listComp _ elem target iter => .listComp span elem target iter

/-! ## Building trees without a source -/

def named (name : String) : Expr := .var .null name

def literal (value : Literal) : Expr := .const .null value

def noneLiteral : Expr := literal .nothing

def binop (op : BinaryOp) (lhs rhs : Expr) : Expr := .binary .null op lhs rhs

def unop (op : UnaryOp) (operand : Expr) : Expr := .unary .null op operand

def isNone (operand : Expr) : Expr := binop .is operand noneLiteral

def isNotNone (operand : Expr) : Expr := binop .isNot operand noneLiteral

/-- The slice `:`. -/
def fullSlice : Expr := .slice .null none none none

def callWith (callee : Expr) (args : List Expr) : Expr := .call .null callee args []

def methodCall (receiver : Expr) (method : String) (args : List Expr) : Expr :=
  callWith (.attribute .null receiver ⟨method, .null⟩) args

/-- Add a keyword argument to a call; other expressions do not change. -/
def withKeyword (expr : Expr) (name : String) (value : Expr) : Expr :=
  match expr with
  | .call span callee args keywords => .call span callee args (keywords ++ [⟨⟨name, .null⟩, value⟩])
  | other => other

/-! ## Questions about the form of an expression -/

def asName? : Expr → Option String
  | .var _ name => some name
  | _ => none

def isStarred : Expr → Bool
  | .starred .. => true
  | _ => false

def isNoneLiteral : Expr → Bool
  | .const _ .nothing => true
  | _ => false

/-- What the expression is called in messages. -/
def form : Expr → String
  | .var .. => "variable"
  | .const .. => "constant"
  | .binary .. => "binary operation"
  | .unary .. => "unary operation"
  | .ternary .. => "conditional expression"
  | .subscript .. => "subscript"
  | .slice .. => "slice"
  | .ellipsis .. => "ellipsis"
  | .starred .. => "starred expression"
  | .call .. => "function call"
  | .attribute .. => "attribute access"
  | .list .. => "list literal"
  | .tuple .. => "tuple literal"
  | .dict .. => "dict literal"
  | .listComp .. => "list comprehension"

end Expr

end Flowgraph
