import Flowgraph.Binary64.Text
import Flowgraph.Text.Quoted

/-!
# Literals

A literal is a constant of the source language.  The same values are the payloads of node
attributes, so `render` gives their text in a printed graph.
-/

namespace Flowgraph

inductive Literal where
  | int (value : Int64)
  | float (value : Binary64)
  | str (value : String)
  | bool (value : Bool)
  | nothing
  deriving DecidableEq, Repr, Inhabited

namespace Literal

/-- Equality of constants, in which a NaN differs from itself and the zeros are equal. -/
def equals : Literal → Literal → Bool
  | .int a, .int b => a = b
  | .float a, .float b => a.equals b
  | .str a, .str b => a = b
  | .bool a, .bool b => a = b
  | .nothing, .nothing => true
  | _, _ => false

def asInt? : Literal → Option Int64
  | .int value => some value
  | _ => none

def asStr? : Literal → Option String
  | .str value => some value
  | _ => none

def asBool? : Literal → Option Bool
  | .bool value => some value
  | _ => none

def render : Literal → String
  | .int value => toString value.toInt
  | .float value => value.render
  | .str value => Text.quote value
  | .bool true => "true"
  | .bool false => "false"
  | .nothing => "None"

end Literal

end Flowgraph
