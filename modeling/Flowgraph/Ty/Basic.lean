/-!
# Types of graph values

Tensors (whose rank may be known), scalars, the type of `None`, containers, futures and objects of
classes.  A class is carried whole inside its type, but types are compared by class name: `same`
is the equality of types used everywhere, and `==` stands for it.

`Ty.optional` is the raw constructor; `Ty.orNone` is the one that programs use, which keeps types
in normal form (`Ty.Normal`): no optional stands directly around `None` or another optional.
-/

namespace Flowgraph

/-- A method as its callers see it: parameter types without the receiver, and the result type. -/
structure Method (τ : Type) where
  name : String
  params : List τ
  result : τ
  deriving Repr

/-- A class: its attributes and methods, in declaration order. -/
structure ClassOf (τ : Type) where
  name : String
  attributes : List (String × τ) := []
  methods : List (Method τ) := []
  deriving Repr

inductive Ty where
  | tensor
  /-- A tensor whose number of dimensions is known. -/
  | ranked (rank : Nat)
  | int
  | float
  | bool
  | str
  /-- The type of the value `None`. -/
  | nothing
  /-- A scalar that is an int or a float. -/
  | number
  | optional (inner : Ty)
  | list (elem : Ty)
  | tuple (elems : List Ty)
  | dict (key value : Ty)
  | future (inner : Ty)
  | object (cls : ClassOf Ty)
  deriving Repr, Inhabited

abbrev Class := ClassOf Ty

namespace ClassOf

variable {τ : Type}

/-- The type of the first attribute of that name. -/
def attribute? (cls : ClassOf τ) (name : String) : Option τ :=
  cls.attributes.lookup name

/-- The first method of that name. -/
def method? (cls : ClassOf τ) (name : String) : Option (Method τ) :=
  cls.methods.find? fun method => method.name = name

def hasMethod (cls : ClassOf τ) (name : String) : Bool :=
  (cls.method? name).isSome

end ClassOf

namespace Ty

/-! ## Equality by class name -/

mutual

/-- Equality of types; classes are equal when their names are. -/
def same : Ty → Ty → Bool
  | .tensor, .tensor => true
  | .ranked m, .ranked n => m = n
  | .int, .int => true
  | .float, .float => true
  | .bool, .bool => true
  | .str, .str => true
  | .nothing, .nothing => true
  | .number, .number => true
  | .optional a, .optional b => same a b
  | .list a, .list b => same a b
  | .tuple as, .tuple bs => sameAll as bs
  | .dict k v, .dict l w => same k l && same v w
  | .future a, .future b => same a b
  | .object c, .object d => c.name = d.name
  | _, _ => false

def sameAll : List Ty → List Ty → Bool
  | [], [] => true
  | a :: as, b :: bs => same a b && sameAll as bs
  | _, _ => false

end

instance : BEq Ty := ⟨same⟩

/-! ## Shapes of types -/

/-- `T` or `None`, in normal form. -/
def orNone : Ty → Ty
  | .nothing => .nothing
  | .optional inner => .optional inner
  | ty => .optional ty

def optionalTensor : Ty := .optional .tensor

def isTensor : Ty → Bool
  | .tensor | .ranked _ => true
  | _ => false

def isNumber : Ty → Bool
  | .int | .float | .number => true
  | _ => false

def isNothing : Ty → Bool
  | .nothing => true
  | _ => false

/-- A scalar that takes part in arithmetic. -/
def isScalar : Ty → Bool
  | .int | .float | .number | .bool => true
  | _ => false

def isIntLike : Ty → Bool
  | .int | .bool => true
  | _ => false

def isTuple : Ty → Bool
  | .tuple _ => true
  | _ => false

def asOptional? : Ty → Option Ty
  | .optional inner => some inner
  | _ => none

def asClass? : Ty → Option Class
  | .object cls => some cls
  | _ => none

/-- The class of an object type, if that class has the method. -/
def classWith? (ty : Ty) (method : String) : Option Class :=
  ty.asClass?.filter fun cls => cls.hasMethod method

mutual

/-- Forget the ranks of tensors, at every depth. -/
def unshaped : Ty → Ty
  | .ranked _ => .tensor
  | .optional inner => .optional (unshaped inner)
  | .list elem => .list (unshaped elem)
  | .tuple elems => .tuple (unshapedAll elems)
  | .dict key value => .dict (unshaped key) (unshaped value)
  | .future inner => .future (unshaped inner)
  | ty => ty

def unshapedAll : List Ty → List Ty
  | [] => []
  | elem :: elems => unshaped elem :: unshapedAll elems

end

mutual

/-- Normal form: an optional never stands directly around `None` or another optional. -/
def isNormal : Ty → Bool
  | .optional .nothing => false
  | .optional (.optional _) => false
  | .optional inner => isNormal inner
  | .list elem => isNormal elem
  | .tuple elems => areNormal elems
  | .dict key value => isNormal key && isNormal value
  | .future inner => isNormal inner
  | _ => true

def areNormal : List Ty → Bool
  | [] => true
  | elem :: elems => isNormal elem && areNormal elems

end

/-- Being in normal form, as a proposition. -/
def Normal (ty : Ty) : Prop := ty.isNormal = true

instance (ty : Ty) : Decidable ty.Normal := inferInstanceAs (Decidable (_ = true))

/-! ## Text -/

mutual

def render : Ty → String
  | .tensor => "Tensor"
  | .ranked rank => s!"Tensor(rank={rank})"
  | .int => "int"
  | .float => "float"
  | .bool => "bool"
  | .str => "str"
  | .nothing => "None"
  | .number => "number"
  | .optional inner => "Optional[" ++ render inner ++ "]"
  | .list elem => "List[" ++ render elem ++ "]"
  | .tuple elems => "Tuple[" ++ ", ".intercalate (renderAll elems) ++ "]"
  | .dict key value => "Dict[" ++ render key ++ ", " ++ render value ++ "]"
  | .future inner => "Future[" ++ render inner ++ "]"
  | .object cls => cls.name

def renderAll : List Ty → List String
  | [] => []
  | elem :: elems => render elem :: renderAll elems

end

end Ty

end Flowgraph
