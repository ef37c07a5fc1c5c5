import Flowgraph.Entity
import Flowgraph.Host.Decoding
import Flowgraph.Settings.Decoding

/-!
# Entities from JSON
-/

namespace Flowgraph

def ValueId.ofJson? (json : Json) : Option ValueId :=
  json.asUInt32?.map fun index => ⟨index.toNat⟩

namespace Entity

/-- Read an entity that is nested at most `depth` deep. -/
def decodeWithin (classes : List Class) : Nat → Json → Option Entity
  | 0, _ => none
  | depth + 1, json => do
    match json with
    | .str "Fork" => some .fork
    | .obj [("Plain", content)] => return .value (← ValueId.ofJson? content)
    | .obj [("Closure", content)] => return .closure (← ValueId.ofJson? content)
    | .obj [("Class", content)] => return .cls (Class.named classes (← content.asStr?))
    | .obj [("Module", content)] => return .module (← Module.ofJson? classes content)
    | .obj [("Builtin", content)] => return .builtin (← PreludeEntry.ofJson? classes content)
    | .obj [("Function", content)] => return .function (← Signature.ofJson? classes content)
    | .obj [("Method", .arr [receiver, owner, name])] =>
      return .method (← ValueId.ofJson? receiver) (Class.named classes (← owner.asStr?))
        (← name.asStr?)
    | .obj [("BuiltinMethod", .arr [receiver, operation])] =>
      return .primitiveMethod (← ValueId.ofJson? receiver)
        (← Primitive.ofName? (← operation.asStr?))
    | .obj [("Range", .arr [start, stop, step])] =>
      return .range (← Json.optional? ValueId.ofJson? (some start)) (← ValueId.ofJson? stop)
        (← Json.optional? ValueId.ofJson? (some step))
    | .obj [("Zip", content)] => return .zip (← content.listOf? (decodeWithin classes depth))
    | .obj [("Enumerate", content)] => return .enumerate (← decodeWithin classes depth content)
    | _ => none

def ofJson? (classes : List Class) (json : Json) : Option Entity :=
  decodeWithin classes json.depth json

end Entity

end Flowgraph
