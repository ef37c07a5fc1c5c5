import Flowgraph.Graph.Op
import Flowgraph.NameMap
import Flowgraph.Ty.Basic

/-!
# The prelude

The names that every program sees without defining them, and what each of them does when it is
called.
-/

namespace Flowgraph

/-- The builtin iterables. -/
inductive IterableKind where
  | range | zip | enumerate
  deriving DecidableEq, Repr, Inhabited

inductive PreludeEntry where
  | print
  /-- Conversion to a type; a class overloads it by the method. -/
  | cast (target : Ty) (method : String)
  /-- A primitive; a class may overload it by the method. -/
  | primitive (operation : Primitive) (method : Option String)
  | iterable (kind : IterableKind)
  | getAttr
  | isInstance
  | annotate
  | fork
  /-- A constructor of exceptions; what is raised is the message. -/
  | exception
  deriving Repr, Inhabited

namespace PreludeEntry

/-- Equality of entries, with types compared by class name. -/
def same : PreludeEntry → PreludeEntry → Bool
  | .print, .print => true
  | .cast a m, .cast b n => a == b && m = n
  | .primitive p m, .primitive q n => p = q && m = n
  | .iterable a, .iterable b => a = b
  | .getAttr, .getAttr => true
  | .isInstance, .isInstance => true
  | .annotate, .annotate => true
  | .fork, .fork => true
  | .exception, .exception => true
  | _, _ => false

end PreludeEntry

abbrev Prelude := NameMap PreludeEntry

namespace Prelude

def standard : Prelude := .ofList [
  ("print", .print),
  ("getattr", .getAttr),
  ("isinstance", .isInstance),
  ("annotate", .annotate),
  ("fork", .fork),
  ("range", .iterable .range),
  ("zip", .iterable .zip),
  ("enumerate", .iterable .enumerate),
  ("len", .primitive .len "__len__"),
  ("hex", .primitive .hex "__hex__"),
  ("oct", .primitive .oct "__oct__"),
  ("round", .primitive .round "__round__"),
  ("hash", .primitive .hash "__hash__"),
  ("min", .primitive .min none),
  ("max", .primitive .max none),
  ("abs", .primitive .abs none),
  ("all", .primitive .all none),
  ("divmod", .primitive .divmod none),
  ("list", .primitive .list none),
  ("ord", .primitive .ord none),
  ("chr", .primitive .chr none),
  ("bin", .primitive .bin none),
  ("rangelist", .primitive .rangelist none),
  ("int", .cast .int "__int__"),
  ("float", .cast .float "__float__"),
  ("bool", .cast .bool "__bool__"),
  ("str", .cast .str "__str__"),
  ("Exception", .exception),
  ("AssertionError", .exception),
  ("RuntimeError", .exception),
  ("ValueError", .exception)]

end Prelude

end Flowgraph
