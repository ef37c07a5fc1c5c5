import Flowgraph.Ty.Basic

/-!
# Subtypes

A ranked tensor is a tensor, an int or a float is a number, and both `None` and every subtype of
`T` are an optional `T`.  Tuples and futures are covariant; lists and dicts are invariant, because
they can be changed in place.
-/

namespace Flowgraph.Ty

mutual

def isSubtype (a b : Ty) : Bool :=
  a == b ||
    match a, b with
    | .ranked _, .tensor => true
    | .nothing, .optional _ => true
    | .optional a, .optional b => isSubtype a b
    | a, .optional b => isSubtype a b
    | .int, .number => true
    | .float, .number => true
    | .tuple as, .tuple bs => areSubtypes as bs
    | .future a, .future b => isSubtype a b
    | _, _ => false

/-- Elementwise, for lists of the same length. -/
def areSubtypes (as bs : List Ty) : Bool :=
  match as, bs with
  | [], [] => true
  | a :: as, b :: bs => isSubtype a b && areSubtypes as bs
  | _, _ => false

end

/-- A list of optional tensors, or of something narrower. -/
def isOptionalTensorList : Ty → Bool
  | .list elem => isSubtype elem optionalTensor
  | _ => false

end Flowgraph.Ty
