import Flowgraph.Graph.Print
import Flowgraph.Settings
import Flowgraph.Ty.Decoding

/-!
# Settings from JSON

What is left out keeps its default.
-/

namespace Flowgraph

namespace PreludeEntry

def ofJson? (classes : List Class) (json : Json) : Option PreludeEntry := do
  match json with
  | .str "Print" => some .print
  | .str "GetAttr" => some .getAttr
  | .str "IsInstance" => some .isInstance
  | .str "Annotate" => some .annotate
  | .str "Fork" => some .fork
  | .str "Exception" => some .exception
  | .str "Range" => some (.iterable .range)
  | .str "Zip" => some (.iterable .zip)
  | .str "Enumerate" => some (.iterable .enumerate)
  | .obj [("Cast", content)] =>
    let (target, method) ← content.asPair?
    return .cast (← Ty.ofJson? classes target) (← method.asStr?)
  | .obj [("Function", content)] =>
    let (operation, method) ← content.asPair?
    return .primitive (← Primitive.ofName? (← operation.asStr?))
      (← Json.optional? Json.asStr? (some method))
  | _ => none

/-- The entry as it is read, but with its types as text. -/
def toJson : PreludeEntry → Json
  | .print => .str "Print"
  | .getAttr => .str "GetAttr"
  | .isInstance => .str "IsInstance"
  | .annotate => .str "Annotate"
  | .fork => .str "Fork"
  | .exception => .str "Exception"
  | .iterable .range => .str "Range"
  | .iterable .zip => .str "Zip"
  | .iterable .enumerate => .str "Enumerate"
  | .cast target method => .tagged "Cast" (.arr [.str target.render, .str method])
  | .primitive operation method =>
    .tagged "Function" (.arr [.str operation.name, (method.map Json.str).getD .null])

def namedOfJson? (classes : List Class) (json : Json) : Option (String × PreludeEntry) := do
  let (name, entry) ← json.asPair?
  return (← name.asStr?, ← ofJson? classes entry)

end PreludeEntry

/-- A prelude: the standard one or none at all, with some entries added and then some removed. -/
def Prelude.ofJson? (classes : List Class) (json : Json) : Option Prelude := do
  if !json.isObject then none
  else
    let isEmpty ← json.optionalField? "empty" Json.asBool?
    let added ← json.optionalField? "add" (Json.listOf? (PreludeEntry.namedOfJson? classes))
    let removed ← json.optionalField? "remove" (Json.listOf? Json.asStr?)
    let start : Prelude := if isEmpty.getD false then .empty else .standard
    let table := (added.getD []).foldl (fun table entry => table.insert entry.1 entry.2) start
    return (removed.getD []).foldl NameMap.erase table

def InlinePolicy.ofJson? : Json → Option InlinePolicy
  | .str "Never" => some .never
  | .str "Everything" => some .everything
  | _ => none

def Settings.ofJson? (classes : List Class) (json : Json) : Option Settings := do
  if !json.isObject then none
  else
    let default : Settings := {}
    let inline ← json.optionalField? "inline" InlinePolicy.ofJson?
    let lift ← json.optionalField? "lift" Json.asBool?
    let paramType ← json.optionalField? "param_ty" (Ty.ofJson? classes)
    let builtins ← json.optionalField? "builtins" (Prelude.ofJson? classes)
    return { builtins := builtins.getD default.builtins
             inline := inline.getD default.inline
             liftClosures := lift.getD default.liftClosures
             paramType := paramType.getD default.paramType }

def PrintOptions.ofJson? (json : Json) : Option PrintOptions := do
  if !json.isObject then none
  else
    let default : PrintOptions := {}
    let indent ← json.optionalField? "indent" Json.asNat?
    let types ← json.optionalField? "types" Json.asBool?
    let spans ← json.optionalField? "spans" Json.asBool?
    let subgraphs ← json.optionalField? "subgraphs" Json.asBool?
    return { indent := indent.getD default.indent
             types := types.getD default.types
             spans := spans.getD default.spans
             subgraphs := subgraphs.getD default.subgraphs }

end Flowgraph
