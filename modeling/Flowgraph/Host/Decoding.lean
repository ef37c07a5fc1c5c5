import Flowgraph.Host
import Flowgraph.Syntax.Decoding
import Flowgraph.Ty.Decoding

/-!
# Hosts from JSON

Signatures, modules, constants and whole hosts, as a host describes itself.
-/

namespace Flowgraph

/-- A constant.  Unlike a literal in a tree it may be a NaN or infinite, and `None` is only written
as a bare tag. -/
def Literal.constantOfJson? : Json → Option Literal
  | .obj [("Float", content)] => content.asDouble?.map .float
  | .obj [("Int", content)] => content.asInt64?.map .int
  | .obj [("Str", content)] => content.asStr?.map .str
  | .obj [("Bool", content)] => content.asBool?.map .bool
  | .str "None" => some .nothing
  | _ => none

def Signature.ofJson? (classes : List Class) (json : Json) : Option Signature := do
  return { name := ← (← json.field? "name").asStr?
           params := ← (← json.field? "params").listOf? (Ty.namedOfJson? classes)
           result := ← Ty.ofJson? classes (← json.field? "ret") }

namespace HostValue

section

-- `decode` reads the members of a module.
variable (decode : Json → Option HostValue)

/-- A pair of a name and what it stands for. -/
def decodeNamed (json : Json) : Option (String × HostValue) := do
  let (name, value) ← json.asPair?
  return (← name.asStr?, ← decode value)

def decodeModule (json : Json) : Option Module := do
  let name ← (← json.field? "name").asStr?
  let members ← (← json.field? "members").listOf? (decodeNamed decode)
  return { name, members := .ofList members }

end

/-- Read a host value that is nested at most `depth` deep. -/
def decodeWithin (classes : List Class) : Nat → Json → Option HostValue
  | 0, _ => none
  | depth + 1, json => do
    match json with
    | .obj [("Function", content)] => return .function (← Signature.ofJson? classes content)
    | .obj [("Class", content)] => return .cls (Class.named classes (← content.asStr?))
    | .obj [("Module", content)] => return .module (← decodeModule (decodeWithin classes depth) content)
    | .obj [("Constant", content)] => return .constant (← Literal.constantOfJson? content)
    | _ => none

def ofJson? (classes : List Class) (json : Json) : Option HostValue :=
  decodeWithin classes json.depth json

end HostValue

def Module.ofJson? (classes : List Class) (json : Json) : Option Module :=
  HostValue.decodeModule (HostValue.ofJson? classes) json

/-- The tables of a host: its classes by name, then functions, modules, values and types.  Later
entries replace earlier ones of the same name. -/
def HostTable.ofJson? (classes : List Class) (json : Json) : Option HostTable := do
  if !json.isObject then none
  else
    let names ← json.optionalField? "classes" (Json.listOf? Json.asStr?)
    let functions ← json.optionalField? "functions" (Json.listOf? (Signature.ofJson? classes))
    let modules ← json.optionalField? "modules" (Json.listOf? (Module.ofJson? classes))
    let values ← json.optionalField? "values"
      (Json.listOf? (HostValue.decodeNamed (HostValue.ofJson? classes)))
    let types ← json.optionalField? "types" (Json.listOf? (Ty.namedOfJson? classes))
    let table := (names.getD []).foldl (fun table name => table.addClass (Class.named classes name)) {}
    let table := (functions.getD []).foldl HostTable.addFunction table
    let table := (modules.getD []).foldl HostTable.addModule table
    let table := (values.getD []).foldl (fun table entry => table.addValue entry.1 entry.2) table
    return (types.getD []).foldl (fun table entry => table.addType entry.1 entry.2) table

end Flowgraph
