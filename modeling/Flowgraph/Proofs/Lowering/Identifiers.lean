import Flowgraph.Lower.Stmt

/-!
# Bound names

The names that lowering a statement can bind in the frame where it stands.
-/

namespace Flowgraph

mutual

/-- The names that an assignment to the expression binds. -/
def Expr.boundNames : Expr → List String
  | .var _ name => [name]
  | .tuple _ elems | .list _ elems => Expr.boundNamesAll elems
  | .starred _ inner => inner.boundNames
  | _ => []

def Expr.boundNamesAll : List Expr → List String
  | [] => []
  | expr :: rest => expr.boundNames ++ Expr.boundNamesAll rest

end

mutual

/-- The names that a statement binds, nested definitions left aside.  A `return` binds the variable
that the body returns through. -/
def Stmt.boundNames : Stmt → List String
  | .branch _ _ body orelse => Stmt.boundNamesAll body ++ Stmt.boundNamesAll orelse
  | .whileLoop _ _ body => Stmt.boundNamesAll body
  | .forLoop _ targets _ body => Expr.boundNamesAll targets ++ Stmt.boundNamesAll body
  | .assign _ target _ _ => target.boundNames
  | .augment _ (.var _ name) _ _ => [name]
  | .ret .. => [Lower.returnName]
  | .globals _ names => names.map Ident.name
  | .define _ definition => [definition.name.name]
  | _ => []

def Stmt.boundNamesAll : List Stmt → List String
  | [] => []
  | stmt :: rest => stmt.boundNames ++ Stmt.boundNamesAll rest

end

end Flowgraph
