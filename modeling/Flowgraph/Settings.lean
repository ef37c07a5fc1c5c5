import Flowgraph.Prelude
import Flowgraph.Text.Blank

/-!
# Settings of a compilation
-/

namespace Flowgraph

/-- A hint to whatever optimises the compiled function. -/
inductive InlinePolicy where
  | never | everything
  deriving DecidableEq, Repr, Inhabited

def InlinePolicy.render : InlinePolicy → String
  | .never => "Never"
  | .everything => "Everything"

structure Settings where
  builtins : Prelude := .standard
  inline : InlinePolicy := .never
  /-- Lift closures out of the graph after lowering. -/
  liftClosures : Bool := true
  /-- The type of a parameter that declares none. -/
  paramType : Ty := .tensor

namespace Settings

/-- Whether a flag is set by its text: not if it is blank, zero or a spelling of false. -/
def flagValue (text : String) : Bool :=
  let trimmed := Text.trimBlank text
  !(trimmed = "" || trimmed = "0" || trimmed = "false" || trimmed = "FALSE" || trimmed = "False")

/-- Defaults, changed by the flags of an environment. -/
def ofEnvironment (lookup : String → Option String) : Settings :=
  let flag (name : String) : Bool := ((lookup name).map flagValue).getD false
  { inline := if flag "SIR_INLINE_EVERYTHING" then .everything else .never
    liftClosures := !flag "SIR_NO_LIFT" }

end Settings

end Flowgraph
