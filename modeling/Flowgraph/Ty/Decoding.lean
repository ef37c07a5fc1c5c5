import Flowgraph.Json.Basic
import Flowgraph.Ty.Basic

/-!
# Types and classes from JSON

A host describes its types and classes in JSON.  Classes are declared one after the other; a type
refers to a class by name and means the latest declaration of that name so far, or a class without
members if there is none.
-/

namespace Flowgraph

/-- The latest declared class of a name. -/
def Class.named (classes : List Class) (name : String) : Class :=
  (classes.find? fun cls => cls.name = name).getD { name }

namespace Ty

def decodeSimple : String → Option Ty
  | "Tensor" => some .tensor
  | "int" => some .int
  | "float" => some .float
  | "bool" => some .bool
  | "str" => some .str
  | "None" => some .nothing
  | "number" => some .number
  | _ => none

/-- Read a type that is nested at most `depth` deep; the latest class comes first. -/
def decodeWithin (classes : List Class) : Nat → Json → Option Ty
  | 0, _ => none
  | depth + 1, json => do
    match json with
    | .str name => decodeSimple name
    | .obj [("DimTensor", content)] => return .ranked (← content.asNat?)
    | .obj [("Optional", content)] => return .optional (← decodeWithin classes depth content)
    | .obj [("optional", content)] => return (← decodeWithin classes depth content).orNone
    | .obj [("List", content)] => return .list (← decodeWithin classes depth content)
    | .obj [("Tuple", content)] => return .tuple (← content.listOf? (decodeWithin classes depth))
    | .obj [("Dict", content)] =>
      let (key, value) ← content.asPair?
      return .dict (← decodeWithin classes depth key) (← decodeWithin classes depth value)
    | .obj [("Future", content)] => return .future (← decodeWithin classes depth content)
    | .obj [("Class", content)] => return .object (Class.named classes (← content.asStr?))
    | _ => none

def ofJson? (classes : List Class) (json : Json) : Option Ty :=
  decodeWithin classes json.depth json

/-- A pair of a name and a type. -/
def namedOfJson? (classes : List Class) (json : Json) : Option (String × Ty) := do
  let (name, ty) ← json.asPair?
  return (← name.asStr?, ← ofJson? classes ty)

end Ty

namespace Class

def methodOfJson? (classes : List Class) (json : Json) : Option (Method Ty) := do
  return { name := ← (← json.field? "name").asStr?
           params := ← (← json.field? "params").listOf? (Ty.ofJson? classes)
           result := ← Ty.ofJson? classes (← json.field? "ret") }

def ofJson? (classes : List Class) (json : Json) : Option Class := do
  let name ← (← json.field? "name").asStr?
  let attributes ← json.optionalField? "attributes" (Json.listOf? (Ty.namedOfJson? classes))
  let methods ← json.optionalField? "methods" (Json.listOf? (methodOfJson? classes))
  return { name, attributes := attributes.getD [], methods := methods.getD [] }

/-- Declarations in order; the latest one comes first in the answer. -/
def declarations? (json : Json) : Option (List Class) := do
  (← json.asItems?).foldlM (fun classes declared => do
    return (← ofJson? classes declared) :: classes) []

end Class

end Flowgraph
