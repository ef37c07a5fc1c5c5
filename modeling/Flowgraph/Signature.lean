import Flowgraph.Ty.Basic

/-!
# Signatures of functions
-/

namespace Flowgraph

/-- A function by its name, its named parameters and its result type. -/
structure Signature where
  name : String
  params : List (String × Ty)
  result : Ty
  deriving Repr, Inhabited

namespace Signature

def render (signature : Signature) : String :=
  let params := signature.params.map fun param => param.1 ++ ": " ++ param.2.render
  signature.name ++ "(" ++ ", ".intercalate params ++ ") -> " ++ signature.result.render

def sameParams : List (String × Ty) → List (String × Ty) → Bool
  | [], [] => true
  | a :: as, b :: bs => a.1 = b.1 && a.2 == b.2 && sameParams as bs
  | _, _ => false

/-- Equality of signatures, with types compared by class name. -/
def same (a b : Signature) : Bool :=
  a.name = b.name && sameParams a.params b.params && a.result == b.result

end Signature

end Flowgraph
