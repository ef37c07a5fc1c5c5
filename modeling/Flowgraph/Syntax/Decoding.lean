import Flowgraph.Syntax.Encoding

/-!
# Syntax trees from JSON

`ofJson?` reads what `toJson` writes, and also texts that leave out optional parts or spans.  A
value of another shape is refused as a whole.

The recursion is bounded by the depth of the value: each expression and each statement is an object
or array of its own.
-/

namespace Flowgraph

/-! ## Parts of trees -/

def Span.ofJson? (json : Json) : Option Span := do
  let [file, lo, hi] ← json.record? ["file", "lo", "hi"] [] | none
  some { file := ← (← file).asUInt64?, lo := ← (← lo).asUInt32?, hi := ← (← hi).asUInt32? }

/-- A span that is null if it is left out. -/
def Span.ofField? (field : Option Json) : Option Span :=
  Json.defaulted? Span.ofJson? .null field

def Ident.ofJson? (json : Json) : Option Ident := do
  let [name, span] ← json.record? ["name"] ["span"] | none
  some { name := ← (← name).asStr?, span := ← Span.ofField? span }

def BinaryOp.ofJson? (json : Json) : Option BinaryOp := do
  BinaryOp.ofTag? (← json.tag?)

def UnaryOp.ofJson? (json : Json) : Option UnaryOp := do
  UnaryOp.ofTag? (← json.tag?)

def Literal.ofJson? (json : Json) : Option Literal := do
  match ← json.variant? with
  | ("Int", some content) => return .int (← content.asInt64?)
  | ("Float", some content) => return .float (← content.asFloat?)
  | ("Str", some content) => return .str (← content.asStr?)
  | ("Bool", some content) => return .bool (← content.asBool?)
  | ("None", none) | ("None", some .null) => some .nothing
  | _ => none

/-! ## Expressions -/

namespace Expr

section

-- `decode` reads the parts of an expression.
variable (decode : Json → Option Expr)

def decodeKeyword (json : Json) : Option (Keyword Expr) := do
  let [name, value] ← json.record? ["name", "value"] [] | none
  some { name := ← Ident.ofJson? (← name), value := ← decode (← value) }

def decodeEntry (json : Json) : Option (Expr × Expr) := do
  let (key, value) ← json.asPair?
  some (← decode key, ← decode value)

/-- The forms whose parts are named. -/
def decodeRecord (span : Span) (tag : String) (content : Json) : Option Expr := do
  match tag with
  | "BinOp" =>
    let [op, lhs, rhs] ← content.parts? ["op", "lhs", "rhs"] | none
    some (.binary span (← BinaryOp.ofJson? (← op)) (← decode (← lhs)) (← decode (← rhs)))
  | "UnaryOp" =>
    let [op, operand] ← content.parts? ["op", "operand"] | none
    some (.unary span (← UnaryOp.ofJson? (← op)) (← decode (← operand)))
  | "Ternary" =>
    let [cond, body, orelse] ← content.parts? ["cond", "then", "otherwise"] | none
    some (.ternary span (← decode (← cond)) (← decode (← body)) (← decode (← orelse)))
  | "Subscript" =>
    let [value, indices] ← content.parts? ["value", "indices"] | none
    some (.subscript span (← decode (← value)) (← (← indices).listOf? decode))
  | "Slice" =>
    let [start, stop, step] ← content.parts? ["start", "end", "step"] | none
    some (.slice span (← Json.optional? decode start) (← Json.optional? decode stop)
      (← Json.optional? decode step))
  | "Call" =>
    let [callee, args, keywords] ← content.parts? ["callee", "args", "kwargs"] | none
    some (.call span (← decode (← callee)) (← (← args).listOf? decode)
      (← (← keywords).listOf? (decodeKeyword decode)))
  | "Attribute" =>
    let [value, attr] ← content.parts? ["value", "attr"] | none
    some (.attribute span (← decode (← value)) (← Ident.ofJson? (← attr)))
  | "ListComp" =>
    let [elem, target, iter] ← content.parts? ["elt", "target", "iter"] | none
    some (.listComp span (← decode (← elem)) (← decode (← target)) (← decode (← iter)))
  | _ => none

/-- An expression from its form. -/
def decodeKind (span : Span) (kind : Json) : Option Expr := do
  match ← kind.variant? with
  | ("Var", some content) => return .var span (← content.asStr?)
  | ("Const", some content) => return .const span (← Literal.ofJson? content)
  | ("Ellipsis", none) | ("Ellipsis", some .null) => some (.ellipsis span)
  | ("Starred", some content) => return .starred span (← decode content)
  | ("List", some content) => return .list span (← content.listOf? decode)
  | ("Tuple", some content) => return .tuple span (← content.listOf? decode)
  | ("Dict", some content) => return .dict span (← content.listOf? (decodeEntry decode))
  | (tag, some content) => decodeRecord decode span tag content
  | (_, none) => none

end

/-- Read an expression that is nested at most `depth` deep. -/
def decodeWithin : Nat → Json → Option Expr
  | 0, _ => none
  | depth + 1, json => do
    let [kind, span] ← json.record? ["kind"] ["span"] | none
    decodeKind (decodeWithin depth) (← Span.ofField? span) (← kind)

def ofJson? (json : Json) : Option Expr :=
  decodeWithin json.depth json

end Expr

def Param.ofJson? (json : Json) : Option Param := do
  let [name, ty] ← json.record? ["name", "ty"] [] | none
  some { name := ← Ident.ofJson? (← name), ty := ← Json.optional? Expr.ofJson? ty }

/-! ## Statements and definitions -/

namespace Stmt

section

-- `decode` reads the statements nested in a statement.
variable (decode : Json → Option Stmt)

def decodeDef (json : Json) : Option Def := do
  let [name, params, result, body, span] ←
    json.record? ["name", "params", "ret_ty", "body"] ["span"] | none
  some
    { name := ← Ident.ofJson? (← name)
      params := ← (← params).listOf? Param.ofJson?
      result := ← Json.optional? Expr.ofJson? result
      body := ← (← body).listOf? decode
      span := ← Span.ofField? span }

/-- The forms whose parts are named. -/
def decodeRecord (span : Span) (tag : String) (content : Json) : Option Stmt := do
  match tag with
  | "If" =>
    let [cond, body, orelse] ← content.parts? ["cond", "then", "otherwise"] | none
    some (.branch span (← Expr.ofJson? (← cond)) (← (← body).listOf? decode)
      (← (← orelse).listOf? decode))
  | "While" =>
    let [cond, body] ← content.parts? ["cond", "body"] | none
    some (.whileLoop span (← Json.optional? Expr.ofJson? cond) (← (← body).listOf? decode))
  | "For" =>
    let [targets, iters, body] ← content.parts? ["targets", "iters", "body"] | none
    some (.forLoop span (← (← targets).listOf? Expr.ofJson?) (← (← iters).listOf? Expr.ofJson?)
      (← (← body).listOf? decode))
  | "Assign" =>
    let [target, ty, value] ← content.parts? ["lhs", "ty", "rhs"] | none
    some (.assign span (← Expr.ofJson? (← target)) (← Json.optional? Expr.ofJson? ty)
      (← Json.optional? Expr.ofJson? value))
  | "AugAssign" =>
    let [target, op, value] ← content.parts? ["lhs", "op", "rhs"] | none
    some (.augment span (← Expr.ofJson? (← target)) (← BinaryOp.ofJson? (← op))
      (← Expr.ofJson? (← value)))
  | "Assert" =>
    let [test, message] ← content.parts? ["test", "msg"] | none
    some (.assert span (← Expr.ofJson? (← test)) (← Json.optional? Expr.ofJson? message))
  | _ => none

/-- A statement from its form. -/
def decodeKind (span : Span) (kind : Json) : Option Stmt := do
  match ← kind.variant? with
  | ("Return", some content) => return .ret span (← Json.optional? Expr.ofJson? (some content))
  | ("Break", none) | ("Break", some .null) => some (.leave span)
  | ("Continue", none) | ("Continue", some .null) => some (.next span)
  | ("Pass", none) | ("Pass", some .null) => some (.pass span)
  | ("Raise", some content) => return .raise span (← Json.optional? Expr.ofJson? (some content))
  | ("Expr", some content) => return .eval span (← Expr.ofJson? content)
  | ("Global", some content) => return .globals span (← content.listOf? Ident.ofJson?)
  | ("Def", some content) => return .define span (← decodeDef decode content)
  | (tag, some content) => decodeRecord decode span tag content
  | (_, none) => none

end

/-- Read a statement that is nested at most `depth` deep. -/
def decodeWithin : Nat → Json → Option Stmt
  | 0, _ => none
  | depth + 1, json => do
    let [kind, span] ← json.record? ["kind"] ["span"] | none
    decodeKind (decodeWithin depth) (← Span.ofField? span) (← kind)

def ofJson? (json : Json) : Option Stmt :=
  decodeWithin json.depth json

end Stmt

def Def.ofJson? (json : Json) : Option Def :=
  Stmt.decodeDef Stmt.ofJson? json

end Flowgraph
