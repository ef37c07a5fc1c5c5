import Flowgraph.Json.Basic
import Flowgraph.Syntax.Stmt

/-!
# Syntax trees as JSON

`toJson` writes every field: `null` for an optional part that is absent, and spans also where they
are null.  Operators are written by their tags, not as they are spelled in programs.  A constant that
is not finite is written as `null`, which is not read back.
-/

namespace Flowgraph

def Span.toJson (span : Span) : Json :=
  .obj [("file", .int span.file.toNat), ("lo", .int span.lo.toNat), ("hi", .int span.hi.toNat)]

def Ident.toJson (ident : Ident) : Json :=
  .obj [("name", .str ident.name), ("span", ident.span.toJson)]

def Literal.toJson : Literal → Json
  | .int value => .tagged "Int" (.int value.toInt)
  | .float value => .tagged "Float" (.ofBinary64 value)
  | .str value => .tagged "Str" (.str value)
  | .bool value => .tagged "Bool" (.bool value)
  | .nothing => .str "None"

namespace Expr

/-- An expression is a record of its form and its span. -/
def node (span : Span) (kind : Json) : Json :=
  .obj [("kind", kind), ("span", span.toJson)]

mutual

def toJson : Expr → Json
  | .var span name => node span (.tagged "Var" (.str name))
  | .const span value => node span (.tagged "Const" value.toJson)
  | .binary span op lhs rhs =>
    node span (.tagged "BinOp"
      (.obj [("op", .str op.tag), ("lhs", lhs.toJson), ("rhs", rhs.toJson)]))
  | .unary span op operand =>
    node span (.tagged "UnaryOp" (.obj [("op", .str op.tag), ("operand", operand.toJson)]))
  | .ternary span cond body orelse =>
    node span (.tagged "Ternary"
      (.obj [("cond", cond.toJson), ("then", body.toJson), ("otherwise", orelse.toJson)]))
  | .subscript span value indices =>
    node span (.tagged "Subscript"
      (.obj [("value", value.toJson), ("indices", .arr (listToJson indices))]))
  | .slice span start stop step =>
    node span (.tagged "Slice"
      (.obj [("start", optionToJson start), ("end", optionToJson stop),
        ("step", optionToJson step)]))
  | .ellipsis span => node span (.str "Ellipsis")
  | .starred span inner => node span (.tagged "Starred" inner.toJson)
  | .call span callee args keywords =>
    node span (.tagged "Call"
      (.obj [("callee", callee.toJson), ("args", .arr (listToJson args)),
        ("kwargs", .arr (keywordsToJson keywords))]))
  | .attribute span value attr =>
    node span (.tagged "Attribute" (.obj [("value", value.toJson), ("attr", attr.toJson)]))
  | .list span elems => node span (.tagged "List" (.arr (listToJson elems)))
  | .tuple span elems => node span (.tagged "Tuple" (.arr (listToJson elems)))
  | .dict span entries => node span (.tagged "Dict" (.arr (entriesToJson entries)))
  | .listComp span elem target iter =>
    node span (.tagged "ListComp"
      (.obj [("elt", elem.toJson), ("target", target.toJson), ("iter", iter.toJson)]))

def optionToJson : Option Expr → Json
  | none => .null
  | some expr => expr.toJson

def listToJson : List Expr → List Json
  | [] => []
  | expr :: rest => expr.toJson :: listToJson rest

def entriesToJson : List (Expr × Expr) → List Json
  | [] => []
  | (key, value) :: rest => .arr [key.toJson, value.toJson] :: entriesToJson rest

def keywordsToJson : List (Keyword Expr) → List Json
  | [] => []
  | ⟨name, value⟩ :: rest =>
    .obj [("name", name.toJson), ("value", value.toJson)] :: keywordsToJson rest

end

end Expr

def Param.toJson (param : Param) : Json :=
  .obj [("name", param.name.toJson), ("ty", Expr.optionToJson param.ty)]

mutual

def Stmt.toJson : Stmt → Json
  | .branch span cond body orelse =>
    Expr.node span (.tagged "If"
      (.obj [("cond", cond.toJson), ("then", .arr (Stmt.listToJson body)),
        ("otherwise", .arr (Stmt.listToJson orelse))]))
  | .whileLoop span cond body =>
    Expr.node span (.tagged "While"
      (.obj [("cond", Expr.optionToJson cond), ("body", .arr (Stmt.listToJson body))]))
  | .forLoop span targets iters body =>
    Expr.node span (.tagged "For"
      (.obj [("targets", .arr (Expr.listToJson targets)), ("iters", .arr (Expr.listToJson iters)),
        ("body", .arr (Stmt.listToJson body))]))
  | .assign span target ty value =>
    Expr.node span (.tagged "Assign"
      (.obj [("lhs", target.toJson), ("ty", Expr.optionToJson ty),
        ("rhs", Expr.optionToJson value)]))
  | .augment span target op value =>
    Expr.node span (.tagged "AugAssign"
      (.obj [("lhs", target.toJson), ("op", .str op.tag), ("rhs", value.toJson)]))
  | .ret span value => Expr.node span (.tagged "Return" (Expr.optionToJson value))
  | .leave span => Expr.node span (.str "Break")
  | .next span => Expr.node span (.str "Continue")
  | .pass span => Expr.node span (.str "Pass")
  | .raise span value => Expr.node span (.tagged "Raise" (Expr.optionToJson value))
  | .assert span test message =>
    Expr.node span (.tagged "Assert"
      (.obj [("test", test.toJson), ("msg", Expr.optionToJson message)]))
  | .eval span value => Expr.node span (.tagged "Expr" value.toJson)
  | .globals span names =>
    Expr.node span (.tagged "Global" (.arr (names.map Ident.toJson)))
  | .define span definition => Expr.node span (.tagged "Def" definition.toJson)

def Stmt.listToJson : List Stmt → List Json
  | [] => []
  | stmt :: rest => stmt.toJson :: Stmt.listToJson rest

def DefOf.toJson : DefOf Stmt → Json
  | ⟨name, params, result, body, span⟩ =>
    .obj [("name", name.toJson), ("params", .arr (params.map Param.toJson)),
      ("ret_ty", Expr.optionToJson result), ("body", .arr (Stmt.listToJson body)),
      ("span", span.toJson)]

end

end Flowgraph
