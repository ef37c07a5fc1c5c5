import Flowgraph.Fault
import Flowgraph.Host
import Flowgraph.Syntax.Expr

/-!
# Types as programs write them

Programs write types as expressions: names, dotted names, and the constructors `List`, `Optional`,
`Future`, `Dict` and `Tuple` with their arguments in brackets.  `Expr.surfaceType` reads such an
expression; names that are not built in are looked up in the host.
-/

namespace Flowgraph

/-- The types that every program can name. -/
def builtinType? (name : String) : Option Ty :=
  match name with
  | "int" => some .int
  | "float" => some .float
  | "bool" => some .bool
  | "str" => some .str
  | "None" => some .nothing
  | "number" => some .number
  | "Tensor" => some .tensor
  | "torch.Tensor" => some .tensor
  | _ => none

/-- The type that a name stands for at a place. -/
def namedType (host : Host) (name : String) (span : Span) : Except Fault Ty :=
  match builtinType? name with
  | some ty => .ok ty
  | none =>
    match host.type? name span with
    | some ty => .ok ty
    | none => .error (.type span (.unknownType name))

/-- Types that can be keys of a dict. -/
def isSurfaceKey : Ty → Bool
  | .int | .float | .str | .tensor => true
  | _ => false

namespace Expr

/-- A chain of attributes that starts at a name, joined by dots. -/
def dottedName? : Expr → Option String
  | .var _ name => some name
  | .attribute _ value attr => (dottedName? value).map fun path => path ++ "." ++ attr.name
  | _ => none

mutual

def surfaceType (host : Host) : Expr → Except Fault Ty
  | .const _ .nothing => .ok .nothing
  | .var span name => namedType host name span
  | .attribute span value attr =>
    match dottedName? (.attribute span value attr) with
    | some name => namedType host name span
    | none => .error (.type span (.notType "attribute access"))
  | .subscript span value args =>
    match value.asName? with
    | none => .error (.type value.span .subscriptedType)
    | some "List" =>
      match args with
      | [elem] => (surfaceType host elem).map .list
      | args => .error (.type span (.typeArity "List" 1 args.length))
    | some "Optional" =>
      match args with
      | [inner] => (surfaceType host inner).map Ty.orNone
      | args => .error (.type span (.typeArity "Optional" 1 args.length))
    | some "Future" =>
      match args with
      | [inner] => (surfaceType host inner).map .future
      | args => .error (.type span (.typeArity "Future" 1 args.length))
    | some "Dict" =>
      match args with
      | [key, value] => do
        let keyType ← surfaceType host key
        if isSurfaceKey keyType then
          return .dict keyType (← surfaceType host value)
        else .error (.type key.span (.surfaceKeyType keyType))
      | args => .error (.type span (.typeArity "Dict" 2 args.length))
    | some "Tuple" => (surfaceTypes host args).map .tuple
    | some other => .error (.type span (.unknownConstructor other))
  | expr => .error (.type expr.span (.notType expr.form))

def surfaceTypes (host : Host) : List Expr → Except Fault (List Ty)
  | [] => .ok []
  | expr :: rest => do
    let ty ← surfaceType host expr
    let types ← surfaceTypes host rest
    return ty :: types

end

end Expr

end Flowgraph
