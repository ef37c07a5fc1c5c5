import Flowgraph.Fault

/-!
# Diagnostics

A diagnostic is a message for people, with an optional place, suggestions and a code.  A report
holds the outcome of a step together with its diagnostics.
-/

namespace Flowgraph

inductive Severity where
  | warning | error
  deriving DecidableEq, Repr, Inhabited

def Severity.render : Severity → String
  | .warning => "WARNING"
  | .error => "ERROR"

structure Diagnostic where
  severity : Severity := .error
  message : String
  span : Option Span := none
  suggestions : List String := []
  code : Option String := none
  deriving Repr

namespace Diagnostic

def ofFault (fault : Fault) : Diagnostic where
  message := fault.kind.render ++ ": " ++ fault.message
  span := fault.span?
  code := some fault.kind.code

/-- The message with its code and its hints, on one line. -/
def render (diagnostic : Diagnostic) : String :=
  let code :=
    match diagnostic.code with
    | some code => " [" ++ code ++ "]"
    | none => ""
  let hints :=
    if diagnostic.suggestions.isEmpty then ""
    else " (hints: " ++ "; ".intercalate diagnostic.suggestions ++ ")"
  diagnostic.message ++ code ++ hints

/-- A header, the place if there is one, and a line per suggestion. -/
def lines (context : String) (diagnostic : Diagnostic) : List String :=
  let code :=
    match diagnostic.code with
    | some code => " (" ++ code ++ ")"
    | none => ""
  let header :=
    "[" ++ context ++ "] " ++ diagnostic.severity.render ++ ": " ++ diagnostic.message ++ code
  let place :=
    match diagnostic.span with
    | some span => ["   at " ++ span.render]
    | none => []
  header :: (place ++ diagnostic.suggestions.map fun hint => "   suggestion: " ++ hint)

/-- Diagnostics as plain text, one after the other. -/
def renderPlain (diagnostics : List Diagnostic) (context : String) : List String :=
  diagnostics.flatMap (lines context)

end Diagnostic

/-- The outcome of a step with the diagnostics it produced. -/
structure Report (α : Type) where
  value : Option α := none
  diagnostics : List Diagnostic := []

namespace Report

variable {α : Type}

def ofExcept : Except Fault α → Report α
  | .ok value => { value := some value }
  | .error fault => { diagnostics := [.ofFault fault] }

def hasErrors (report : Report α) : Bool :=
  report.diagnostics.any fun diagnostic => diagnostic.severity = .error

/-- The value with its diagnostics, or the diagnostics alone. -/
def toExcept (report : Report α) : Except (List Diagnostic) (α × List Diagnostic) :=
  match report.value with
  | some value => .ok (value, report.diagnostics)
  | none => .error report.diagnostics

end Report

end Flowgraph
