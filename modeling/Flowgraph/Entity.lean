import Flowgraph.Fault
import Flowgraph.Host
import Flowgraph.Prelude

/-!
# Entities

What an expression denotes while it is lowered.  Most expressions denote a value of the graph; the
others denote something that has no value of its own: a function, a class, an iterable, a closure,
a module.
-/

namespace Flowgraph

inductive Entity where
  | value (v : ValueId)
  | builtin (entry : PreludeEntry)
  /-- A host function, known by its signature. -/
  | function (signature : Signature)
  /-- A method of a class, bound to its receiver. -/
  | method (receiver : ValueId) (cls : Class) (name : String)
  /-- A primitive called in the syntax of methods, such as `xs.append(x)`. -/
  | primitiveMethod (receiver : ValueId) (operation : Primitive)
  /-- A class, which constructs its objects when it is called. -/
  | cls (cls : Class)
  | range (start : Option ValueId) (stop : ValueId) (step : Option ValueId)
  | zip (items : List Entity)
  | enumerate (inner : Entity)
  /-- The output of a closure node. -/
  | closure (v : ValueId)
  | fork
  | module (module : Module)
  deriving Repr, Inhabited

namespace Entity

def kind : Entity → EntityKind
  | .value _ => .value
  | .builtin _ => .builtin
  | .function _ => .function
  | .method .. | .primitiveMethod .. => .method
  | .cls _ => .cls
  | .range .. | .zip _ | .enumerate _ => .iterable
  | .closure _ => .closure
  | .fork => .fork
  | .module _ => .module

def asValue? : Entity → Option ValueId
  | .value v => some v
  | _ => none

/-- The graph value of an entity that has one. -/
def toValue (entity : Entity) (span : Span) : Except Fault ValueId :=
  match entity with
  | .value v | .closure v => .ok v
  | other => .error (.type span (.notValue other.kind))

mutual

/-- Equality of entities, with classes compared by name and constants as numbers. -/
def same : Entity → Entity → Bool
  | .value v, .value w => v = w
  | .builtin a, .builtin b => a.same b
  | .function a, .function b => a.same b
  | .method v c m, .method w d n => v = w && c.name = d.name && m = n
  | .primitiveMethod v p, .primitiveMethod w q => v = w && p = q
  | .cls c, .cls d => c.name = d.name
  | .range a b c, .range a' b' c' => a = a' && b = b' && c = c'
  | .zip as, .zip bs => sameAll as bs
  | .enumerate a, .enumerate b => same a b
  | .closure v, .closure w => v = w
  | .fork, .fork => true
  | .module a, .module b => HostValue.sameModule a b
  | _, _ => false

def sameAll : List Entity → List Entity → Bool
  | [], [] => true
  | a :: as, b :: bs => same a b && sameAll as bs
  | _, _ => false

end

/-- What a prelude name denotes. -/
def ofPrelude : PreludeEntry → Entity
  | .fork => .fork
  | entry => .builtin entry

end Entity

end Flowgraph
