import Flowgraph.Ty.Subtype

/-!
# The common supertype of two types

`join a b` is a type that holds the values of both, where the language has one: the larger of two
comparable types, `Tensor` for tensors of different rank, an optional when `None` comes in, and
the elementwise join of tuples.  Lists join only when both hold tensors.
-/

namespace Flowgraph.Ty

mutual

def join (a b : Ty) : Option Ty :=
  if a.isSubtype b then some b
  else if b.isSubtype a then some a
  else if a.isTensor && b.isTensor then some .tensor
  else
    match a, b with
    | .nothing, other => some other.orNone
    | other, .nothing => some other.orNone
    | .optional inner, other => (join inner other).map orNone
    | other, .optional inner => (join inner other).map orNone
    | .tuple as, .tuple bs => (joinAll as bs).map .tuple
    | .list a, .list b => if a.isTensor && b.isTensor then some (.list .tensor) else none
    | _, _ => none
termination_by sizeOf a + sizeOf b

/-- Elementwise, for lists of the same length. -/
def joinAll (as bs : List Ty) : Option (List Ty) :=
  match as, bs with
  | [], [] => some []
  | a :: as, b :: bs =>
    match join a b, joinAll as bs with
    | some c, some cs => some (c :: cs)
    | _, _ => none
  | _, _ => none
termination_by sizeOf as + sizeOf bs

end

end Flowgraph.Ty
