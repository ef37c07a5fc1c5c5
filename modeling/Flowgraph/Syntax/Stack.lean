import Flowgraph.Syntax.Stmt

/-!
# Building trees on stacks

A tree can be built bottom-up, from instructions in postfix order: parts are pushed, and a construct
takes its parts from the top.  There is one stack for each sort of tree.  An instruction that does
not find its parts fails.
-/

namespace Flowgraph

/-- The trees built so far, the latest first. -/
structure TreeStack where
  exprs : List Expr := []
  stmts : List Stmt := []
  params : List Param := []
  defs : List Def := []
  deriving Repr

/-- The steps of building trees. -/
abbrev Stacking := StateT TreeStack Option

namespace Stacking

/-- The topmost `count` entries of a stack, the lowest first, and the rest. -/
def split {α : Type} (count : Nat) (stack : List α) : Option (List α × List α) :=
  if count ≤ stack.length then some ((stack.take count).reverse, stack.drop count) else none

/-! ## Expressions -/

def push (expr : Expr) : Stacking Unit :=
  modify fun stack => { stack with exprs := expr :: stack.exprs }

def popMany (count : Nat) : Stacking (List Expr) := do
  let stack ← get
  let (taken, exprs) ← split count stack.exprs
  set { stack with exprs }
  return taken

def pop : Stacking Expr := do
  match ← popMany 1 with
  | [expr] => return expr
  | _ => failure

/-- The two topmost expressions, the lower first. -/
def popTwo : Stacking (Expr × Expr) := do
  match ← popMany 2 with
  | [first, second] => return (first, second)
  | _ => failure

def popThree : Stacking (Expr × Expr × Expr) := do
  match ← popMany 3 with
  | [first, second, third] => return (first, second, third)
  | _ => failure

/-- An expression that may be left out. -/
def popIf (isPresent : Bool) : Stacking (Option Expr) := do
  if isPresent then return some (← pop) else return none

/-- Keys and values in turn, as entries. -/
def pairs : List Expr → List (Expr × Expr)
  | key :: value :: rest => (key, value) :: pairs rest
  | _ => []

/-! ## Statements and definitions -/

def pushStmt (stmt : Stmt) : Stacking Unit :=
  modify fun stack => { stack with stmts := stmt :: stack.stmts }

def popStmts (count : Nat) : Stacking (List Stmt) := do
  let stack ← get
  let (taken, stmts) ← split count stack.stmts
  set { stack with stmts }
  return taken

def popStmt : Stacking Stmt := do
  match ← popStmts 1 with
  | [stmt] => return stmt
  | _ => failure

def pushParam (param : Param) : Stacking Unit :=
  modify fun stack => { stack with params := param :: stack.params }

def popParams (count : Nat) : Stacking (List Param) := do
  let stack ← get
  let (taken, params) ← split count stack.params
  set { stack with params }
  return taken

def popParam : Stacking Param := do
  match ← popParams 1 with
  | [param] => return param
  | _ => failure

def pushDef (definition : Def) : Stacking Unit :=
  modify fun stack => { stack with defs := definition :: stack.defs }

def popDef : Stacking Def := do
  let stack ← get
  match stack.defs with
  | definition :: defs =>
    set { stack with defs }
    return definition
  | [] => failure

end Stacking

end Flowgraph
