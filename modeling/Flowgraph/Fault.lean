import Flowgraph.Graph.Basic

/-!
# Faults

Everything that can be wrong with a program, as causes.  A cause says what was found, and its
`message` is the only place where it is put into words.  The causes are grouped by kind: the shape
of the tree, names, types, features that are left out, and faults of the library itself.  All but
the last carry the span of the place.
-/

namespace Flowgraph

inductive FaultKind where
  | shape | name | type | unsupported | internal
  deriving DecidableEq, Repr, Inhabited

def FaultKind.render : FaultKind → String
  | .shape => "SyntaxShapeError"
  | .name => "NameError"
  | .type => "TypeError"
  | .unsupported => "UnsupportedFeatureError"
  | .internal => "InternalError"

/-- The code by which tools recognise the kind. -/
def FaultKind.code : FaultKind → String
  | .shape => "sir::syntax_shape"
  | .name => "sir::name"
  | .type => "sir::type_error"
  | .unsupported => "sir::unsupported"
  | .internal => "sir::internal"

/-! ## Words for what was found -/

/-- What sort of thing an expression denotes. -/
inductive EntityKind where
  | value | builtin | function | method | cls | iterable | closure | fork | module
  deriving DecidableEq, Repr, Inhabited

def EntityKind.render : EntityKind → String
  | .value => "value"
  | .builtin => "builtin function"
  | .function => "function"
  | .method => "method"
  | .cls => "class"
  | .iterable => "iterable"
  | .closure => "closure"
  | .fork => "fork"
  | .module => "module"

/-- What a message calls an entity: a value by its type, anything else by its kind. -/
inductive Description where
  | ofType (ty : Ty)
  | ofKind (kind : EntityKind)
  deriving Repr, Inhabited

def Description.render : Description → String
  | .ofType ty => ty.render
  | .ofKind kind => kind.render

/-- Where a value was expected to have a type. -/
inductive Role where
  | returnValue
  | attribute (name : String)
  | argument (name : String)
  | argumentOf (name callee : String)
  | positional (slot : Nat) (method : String)
  | listElement | comprehensionElement
  | dictKey | dictValue
  | sliceBound | index
  | tensorItem | listItem | dictItem
  | augmented | annotated
  deriving DecidableEq, Repr, Inhabited

def Role.render : Role → String
  | .returnValue => "return value"
  | .attribute name => s!"attribute '{name}'"
  | .argument name => s!"argument '{name}'"
  | .argumentOf name callee => s!"argument '{name}' of {callee}"
  | .positional slot method => s!"argument {slot} of {method}"
  | .listElement => "list element"
  | .comprehensionElement => "list comprehension element"
  | .dictKey => "dict key"
  | .dictValue => "dict value"
  | .sliceBound => "slice bound"
  | .index => "index"
  | .tensorItem => "tensor item assignment"
  | .listItem => "list item assignment"
  | .dictItem => "dict item assignment"
  | .augmented => "augmented assignment"
  | .annotated => "annotate"

/-- One of the two branches of a conditional. -/
inductive Side where
  | onTrue | onFalse
  deriving DecidableEq, Repr, Inhabited

def Side.render : Side → String
  | .onTrue => "true"
  | .onFalse => "false"

/-! ## Causes -/

/-- The tree has a shape that means nothing. -/
inductive ShapeCause where
  | primitiveArity (primitive : Primitive) (least most received : Nat)
  | onlyAsIndex (form : String)
  | strayStar
  | twoArguments (callee : String) (received : Nat)
  | callArity (callee : String) (expected received : Nat)
  | methodArity (cls method : String) (expected received : Nat)
  | constructorArity (cls : String)
  | castArity (target : Ty) (received : Nat)
  | rangeArity (received : Nat)
  | zipArity
  | enumerateArity (received : Nat)
  | forkArity
  | twoEllipses
  | singleIndex (what : String) (received : Nat)
  | typedTarget (form : String)
  | loneStar
  | twoStars
  | notAssignable (form : String)
  | notAugmentable (op : BinaryOp)
  | augmentedTarget (form : String)
  | returnNotLast
  | outsideLoop (keyword : String)
  | noLoopTarget
  | other (message : String)
  deriving Repr

/-- A name that stands for nothing here. -/
inductive NameCause where
  | undefined (name : String)
  | noMember (module member : String)
  | missingReturn (function : String)
  | undefinedOn (name : String) (side : Side)
  | insideLoop (name : String)
  | other (message : String)
  deriving Repr

/-- A value of the wrong type. -/
inductive TypeCause where
  | primitiveOperands (primitive : Primitive) (types : List Ty)
  | notValue (kind : EntityKind)
  | notCallable (ty : Ty)
  | kindNotCallable (kind : EntityKind)
  | noAttribute (owner member : String)
  | kindNoAttribute (kind : EntityKind) (member : String)
  | noMethod (cls method : String)
  | setOnKind (kind : EntityKind) (member : String)
  | setOnType (ty : Ty) (member : String)
  | notIterable (found : Description)
  | kindNotIterable (kind : EntityKind)
  | noLength (ty : Ty)
  | kindNoLength (kind : EntityKind)
  | rangeOperand (ty : Ty)
  | mismatch (role : Role) (target found : Ty)
  | noReturn (function : String) (declared : Ty)
  | declaredOutside (name : String)
  | reassignedTo (name : String) (kind : EntityKind)
  | reassignedFrom (name : String) (kind : EntityKind)
  | reassigned (name : String) (previous found : Ty)
  | starredElement (found : Description)
  | starredArgument (found : Description)
  | mixedElements (what : String) (expected found : Ty)
  | dictKeyType (ty : Ty)
  | attributeNotLiteral
  | notSubscriptable (found : Description)
  | tensorIndexType (ty : Ty)
  | tupleIndexRange (length : Nat) (index : Int)
  | notConstantIndex (what : String)
  | annotatedMismatch (name : String) (declared found : Ty)
  | notUnpackable (found : Description)
  | tooFewValues (needed found : Nat)
  | tooManyValues (needed found : Nat)
  | tooFewForStar (needed found : Nat)
  | noItemAssignment (found : Description)
  | returnMismatch (declared found : Ty)
  | returnConflict (previous found : Ty)
  | notCondition (ty : Ty)
  | ternaryMismatch (body orelse : Ty)
  | branchMismatch (name : String) (body orelse : Ty)
  | branchKinds (name : String) (body orelse : EntityKind)
  | notType (form : String)
  | subscriptedType
  | unknownType (name : String)
  | typeArity (constructor : String) (expected received : Nat)
  | surfaceKeyType (ty : Ty)
  | unknownConstructor (name : String)
  | other (message : String)
  deriving Repr

/-- A feature that is left out. -/
inductive UnsupportedCause where
  | closureCall
  | tupleComprehension
  | keywordArgument (name : String)
  | optionalInstance (ty : Ty)
  | tensorAfterEllipsis
  | tupleStep
  | declaration
  | listSliceAssignment
  | augmentedSlice
  | earlyReturn
  | returnInLoop
  | exitUnrolled (keyword : String)
  | severalIterables
  | other (message : String)
  deriving Repr

/-- A fault of the library itself. -/
inductive InternalCause where
  | outsideBody
  | missingFrame
  | noPrimitive (op : BinaryOp)
  | missingSignature (closure : ValueId)
  | callSyntaxOnly (entry : String)
  | closureWithoutBody (node : NodeId)
  | forkWithoutTarget (node : NodeId)
  | forkOfNonClosure (node : NodeId) (target : String)
  | forkBeforeLifting (closure : NodeId)
  | other (message : String)
  deriving Repr

inductive Fault where
  | shape (span : Span) (cause : ShapeCause)
  | name (span : Span) (cause : NameCause)
  | type (span : Span) (cause : TypeCause)
  | unsupported (span : Span) (cause : UnsupportedCause)
  | internal (cause : InternalCause)
  deriving Repr

/-! ## Messages -/

def ShapeCause.message : ShapeCause → String
  | .primitiveArity primitive least most received =>
    let expected := if least = most then toString least else s!"{least} to {most}"
    s!"{primitive.name} expected {expected} argument(s) but received {received}"
  | .onlyAsIndex form => s!"{form} is only valid as a subscript index"
  | .strayStar => "starred expression is not valid here"
  | .twoArguments callee received => s!"{callee} expected 2 arguments but received {received}"
  | .callArity callee expected received =>
    s!"{callee}() expected {expected} argument(s) but received {received}"
  | .methodArity cls method expected received =>
    s!"{cls}.{method}() expected {expected} argument(s) but received {received}"
  | .constructorArity cls => s!"{cls}() takes no arguments"
  | .castArity target received => s!"{target.render}() expected 1 argument but received {received}"
  | .rangeArity received => s!"range expected 1 to 3 arguments but received {received}"
  | .zipArity => "zip expected at least one argument"
  | .enumerateArity received => s!"enumerate expected 1 argument but received {received}"
  | .forkArity => "fork expects a function as its first argument"
  | .twoEllipses => "An index can only have a single ellipsis ('...')"
  | .singleIndex what received => s!"{what} indexing expects a single index but found {received}"
  | .typedTarget form => s!"only a simple name may carry a type annotation, found a {form}"
  | .loneStar =>
    "A Starred expression may only appear on the lhs within the presence of another non-starred expression"
  | .twoStars => "Only one starred expression is allowed on the lhs"
  | .notAssignable form => s!"cannot assign to a {form}"
  | .notAugmentable op => s!"'{op.symbol}' cannot be used in an augmented assignment"
  | .augmentedTarget form => s!"augmented assignment is not supported on a {form}"
  | .returnNotLast => "return statements can appear only at the end of the function body"
  | .outsideLoop keyword => s!"'{keyword}' outside loop"
  | .noLoopTarget => "for loop requires at least one target"
  | .other message => message

def NameCause.message : NameCause → String
  | .undefined name => s!"undefined value {name}"
  | .noMember module member => s!"module '{module}' has no attribute '{member}'"
  | .missingReturn function => s!"function '{function}' does not return along all paths"
  | .undefinedOn name side => s!"{name} is not defined in the {side.render} branch"
  | .insideLoop name =>
    s!"'{name}' is defined inside a loop body and is not visible after the loop"
  | .other message => message

def TypeCause.message : TypeCause → String
  | .primitiveOperands primitive types =>
    let operands := ", ".intercalate (types.map Ty.render)
    s!"{primitive.name} is not defined for argument types ({operands})"
  | .notValue kind => s!"{kind.render} cannot be used as a value"
  | .notCallable ty => s!"'{ty.render}' object is not callable"
  | .kindNotCallable kind => s!"{kind.render} is not callable"
  | .noAttribute owner member => s!"'{owner}' object has no attribute '{member}'"
  | .kindNoAttribute kind member => s!"{kind.render} has no attribute '{member}'"
  | .noMethod cls method => s!"'{cls}' object has no method '{method}'"
  | .setOnKind kind member => s!"cannot set attribute '{member}' on a {kind.render}"
  | .setOnType ty member =>
    s!"cannot set attribute '{member}' on a value of type {ty.render}"
  | .notIterable found => s!"'{found.render}' object is not iterable"
  | .kindNotIterable kind => s!"{kind.render} is not iterable"
  | .noLength ty => s!"object of type {ty.render} has no len()"
  | .kindNoLength kind => s!"{kind.render} has no len()"
  | .rangeOperand ty => s!"range expected int arguments but found {ty.render}"
  | .mismatch role target found =>
    s!"{role.render} expected a value of type {target.render} but found {found.render}"
  | .noReturn function declared =>
    s!"function '{function}' was annotated as returning {declared.render} but does not return a value"
  | .declaredOutside name =>
    s!"Attempting to declare and annotate the type of variable '{name}' but it is already defined in an outer block"
  | .reassignedTo name kind =>
    s!"Cannot re-assign '{name}' to a value of type {kind.render} because {name} is not a first-class value.  Only reassignments to first-class values are allowed"
  | .reassignedFrom name kind =>
    s!"Cannot re-assign '{name}' because it has type {kind.render} and {name} is not a first-class value.  Only reassignments to first-class values are allowed"
  | .reassigned name previous found =>
    s!"Variable '{name}' previously has type {previous.render} but is now being assigned to a value of type {found.render}"
  | .starredElement found => s!"starred expression must be a tuple but found {found.render}"
  | .starredArgument found => s!"starred argument must be a tuple but found {found.render}"
  | .mixedElements what expected found =>
    s!"{what} must contain only a single type, expected: {expected.render} but found {found.render} instead"
  | .dictKeyType ty => s!"Dict keys must be int, float, str or Tensor but found {ty.render}"
  | .attributeNotLiteral => "getattr's second argument must be a string literal"
  | .notSubscriptable found => s!"'{found.render}' object is not subscriptable"
  | .tensorIndexType ty =>
    s!"Unsupported operation: indexing tensor with unsupported index type '{ty.render}'. Only ints, slices, None and tensors are supported"
  | .tupleIndexRange length index =>
    s!"Tuple index out of range. Tuple is length {length} and index is {index}"
  | .notConstantIndex what => s!"{what} must be integer constants"
  | .annotatedMismatch name declared found =>
    s!"Variable '{name}' is annotated with type {declared.render} but is being assigned to a value of type {found.render}"
  | .notUnpackable found => s!"cannot unpack a value of type {found.render}"
  | .tooFewValues needed found => s!"need {needed} values to unpack but found only {found}"
  | .tooManyValues needed found => s!"too many values to unpack: need {needed} but found {found}"
  | .tooFewForStar needed found =>
    s!"need at least {needed} values to unpack but found only {found}"
  | .noItemAssignment found => s!"'{found.render}' object does not support item assignment"
  | .returnMismatch declared found =>
    s!"Return value was annotated as having type {declared.render} but is actually of type {found.render}"
  | .returnConflict previous found =>
    s!"Previous return statement returned a value of type {previous.render} but this return statement returns a value of type {found.render}"
  | .notCondition ty => s!"expected a bool expression for condition but found {ty.render}"
  | .ternaryMismatch body orelse =>
    s!"if-expression's true branch has type {body.render} but false branch has type {orelse.render}"
  | .branchMismatch name body orelse =>
    s!"Type mismatch: {name} is set to type {body.render} in the true branch and type {orelse.render} in the false branch"
  | .branchKinds name body orelse =>
    s!"{name} is bound to a {body.render} in the true branch and a {orelse.render} in the false branch"
  | .notType form => s!"expression of kind {form} is not a type"
  | .subscriptedType => "subscripted type must be a name"
  | .unknownType name => s!"unknown type name '{name}'"
  | .typeArity constructor expected received =>
    s!"{constructor} expects {expected} type argument(s) but received {received}"
  | .surfaceKeyType ty =>
    s!"dictionary keys must be int, float, str or Tensor, found {ty.render}"
  | .unknownConstructor name => s!"unknown type constructor '{name}'"
  | .other message => message

def UnsupportedCause.message : UnsupportedCause → String
  | .closureCall => "closures cannot be called directly; use fork to run them"
  | .tupleComprehension => "list comprehensions over tuples are not supported"
  | .keywordArgument name => s!"keyword arguments are not supported (got '{name}')"
  | .optionalInstance ty =>
    s!"isinstance on a value of type {ty.render} is not supported; compare it with None instead"
  | .tensorAfterEllipsis => "Ellipses followed by tensor indexing is currently not supported"
  | .tupleStep => "tuple slicing with a step is not supported"
  | .declaration => "declarations without an assigned value are not supported"
  | .listSliceAssignment => "assigning to a list slice is not supported"
  | .augmentedSlice => "augmented assignment to a slice is not supported"
  | .earlyReturn => "early returns followed by further statements are not supported"
  | .returnInLoop => "return statements inside loops are not supported"
  | .exitUnrolled keyword => s!"'{keyword}' inside a loop over a tuple is not supported"
  | .severalIterables => "List of iterables is not supported currently"
  | .other message => message

def InternalCause.message : InternalCause → String
  | .outsideBody => "statement emitted outside of a function body"
  | .missingFrame => "branch frame missing after emission"
  | .noPrimitive op => s!"operator {op.symbol} has no primitive"
  | .missingSignature closure => s!"closure {closure.render} has no recorded schema"
  | .callSyntaxOnly entry => s!"builtin {entry} must be lowered from its call syntax"
  | .closureWithoutBody node => s!"closure {node.render} has no body"
  | .forkWithoutTarget node => s!"fork {node.render} has no target"
  | .forkOfNonClosure node target =>
    s!"fork {node.render} targets {target} which is not produced by a closure"
  | .forkBeforeLifting closure => s!"closure {closure.render} is forked before it was lifted"
  | .other message => message

namespace Fault

def kind : Fault → FaultKind
  | .shape .. => .shape
  | .name .. => .name
  | .type .. => .type
  | .unsupported .. => .unsupported
  | .internal .. => .internal

/-- The place of the fault; an internal one has none. -/
def span? : Fault → Option Span
  | .shape span _ | .name span _ | .type span _ | .unsupported span _ => some span
  | .internal _ => none

def message : Fault → String
  | .shape _ cause => cause.message
  | .name _ cause => cause.message
  | .type _ cause => cause.message
  | .unsupported _ cause => cause.message
  | .internal cause => cause.message

/-- The fault on its own line; an internal one is marked. -/
def render (fault : Fault) : String :=
  match fault with
  | .internal cause => "internal error: " ++ cause.message
  | located => located.message

/-- A fault that a host reports in its own words. -/
def ofMessage (kind : FaultKind) (span : Span) (message : String) : Fault :=
  match kind with
  | .shape => .shape span (.other message)
  | .name => .name span (.other message)
  | .type => .type span (.other message)
  | .unsupported => .unsupported span (.other message)
  | .internal => .internal (.other message)

end Fault

/-- Why an operation on graphs does not succeed: the program is at fault, or a reference points
outside its arena. -/
inductive Failure where
  | fault (fault : Fault)
  | dangling
  deriving Repr

end Flowgraph
