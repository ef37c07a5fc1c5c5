import Flowgraph.Syntax.Expr

/-!
# Statements and definitions

A definition is the unit that is compiled, and a statement when it is nested in another one.
-/

namespace Flowgraph

structure Param where
  name : Ident
  ty : Option Expr := none
  deriving Repr, Inhabited

/-- A function definition with a body of statements `σ`. -/
structure DefOf (σ : Type) where
  name : Ident
  params : List Param
  result : Option Expr := none
  body : List σ
  span : Span := .null
  deriving Repr

inductive Stmt where
  | branch (span : Span) (cond : Expr) (body orelse : List Stmt)
  /-- `while cond:`; without a condition the loop runs until it is left -/
  | whileLoop (span : Span) (cond : Option Expr) (body : List Stmt)
  | forLoop (span : Span) (targets iters : List Expr) (body : List Stmt)
  /-- `target[: ty] [= value]` -/
  | assign (span : Span) (target : Expr) (ty value : Option Expr)
  /-- `target op= value` -/
  | augment (span : Span) (target : Expr) (op : BinaryOp) (value : Expr)
  | ret (span : Span) (value : Option Expr)
  | leave (span : Span)
  | next (span : Span)
  | pass (span : Span)
  | raise (span : Span) (value : Option Expr)
  | assert (span : Span) (test : Expr) (message : Option Expr)
  | eval (span : Span) (value : Expr)
  | globals (span : Span) (names : List Ident)
  | define (span : Span) (definition : DefOf Stmt)
  deriving Repr, Inhabited

abbrev Def := DefOf Stmt

namespace Stmt

def span : Stmt → Span
  | .branch span .. | .whileLoop span .. | .forLoop span .. | .assign span .. | .augment span ..
  | .ret span .. | .leave span | .next span | .pass span | .raise span .. | .assert span ..
  | .eval span .. | .globals span .. | .define span .. => span

/-- The same statement with another span at its root. -/
def withSpan (span : Span) : Stmt → Stmt
  | .branch _ cond body orelse => .branch span cond body orelse
  | .whileLoop _ cond body => .whileLoop span cond body
  | .forLoop _ targets iters body => .forLoop span targets iters body
  | .assign _ target ty value => .assign span target ty value
  | .augment _ target op value => .augment span target op value
  | .ret _ value => .ret span value
  | .leave _ => .leave span
  | .next _ => .next span
  | .pass _ => .pass span
  | .raise _ value => .raise span value
  | .assert _ test message => .assert span test message
  | .eval _ value => .eval span value
  | .globals _ names => .globals span names
  | .define _ definition => .define span definition

/-- A nested definition; the statement stands where the definition does. -/
def ofDef (definition : Def) : Stmt := .define definition.span definition

def isReturn : Stmt → Bool
  | .ret .. => true
  | _ => false

mutual

/-- Whether some path through nested branches returns. -/
def containsReturn : Stmt → Bool
  | .ret .. => true
  | .branch _ _ body orelse => anyContainsReturn body || anyContainsReturn orelse
  | _ => false

def anyContainsReturn : List Stmt → Bool
  | [] => false
  | stmt :: rest => containsReturn stmt || anyContainsReturn rest

end

mutual

/-- Whether control never passes the end of the statement because something was raised. -/
def alwaysRaises : Stmt → Bool
  | .raise .. => true
  | .branch _ _ body orelse => lastAlwaysRaises body && lastAlwaysRaises orelse
  | _ => false

/-- Whether the last statement of a list always raises. -/
def lastAlwaysRaises : List Stmt → Bool
  | [] => false
  | [stmt] => alwaysRaises stmt
  | _ :: rest => lastAlwaysRaises rest

end

end Stmt

end Flowgraph
