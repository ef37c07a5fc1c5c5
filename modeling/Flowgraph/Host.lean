import Flowgraph.Literal
import Flowgraph.NameMap
import Flowgraph.Signature
import Flowgraph.Span

/-!
# The host

A program runs inside a host that knows further names: functions, classes, modules and constants.
A `Host` answers what a name stands for, as a value and as a type; a `HostTable` is a host given
by tables.
-/

namespace Flowgraph

/-- A module with members of type `ρ`. -/
structure ModuleOf (ρ : Type) where
  name : String
  members : NameMap ρ := .empty
  deriving Repr

/-- What a host name stands for. -/
inductive HostValue where
  | function (signature : Signature)
  | cls (cls : Class)
  | module (module : ModuleOf HostValue)
  | constant (value : Literal)
  deriving Repr, Inhabited

abbrev Module := ModuleOf HostValue

namespace HostValue

mutual

/-- Equality of host values, with classes compared by name and constants as numbers. -/
def same : HostValue → HostValue → Bool
  | .function a, .function b => a.same b
  | .cls a, .cls b => a.name = b.name
  | .module a, .module b => sameModule a b
  | .constant a, .constant b => a.equals b
  | _, _ => false

def sameModule : ModuleOf HostValue → ModuleOf HostValue → Bool
  | ⟨name, members⟩, other => name = other.name && sameMembers members other.members

def sameMembers : NameMap HostValue → NameMap HostValue → Bool
  | ⟨entries⟩, other => sameEntries entries other.entries

def sameEntries : List (String × HostValue) → List (String × HostValue) → Bool
  | [], [] => true
  | a :: as, b :: bs => sameEntry a b && sameEntries as bs
  | _, _ => false

def sameEntry : String × HostValue → String × HostValue → Bool
  | (name, value), other => name = other.1 && same value other.2

end

end HostValue

structure Host where
  /-- What a name, used at a place, stands for as a value. -/
  value? : String → Span → Option HostValue
  /-- What a name, used at a place, stands for as a type. -/
  type? : String → Span → Option Ty

/-- The host that knows nothing. -/
def Host.empty : Host := ⟨fun _ _ => none, fun _ _ => none⟩

structure HostTable where
  values : NameMap HostValue := .empty
  types : NameMap Ty := .empty
  deriving Repr

namespace HostTable

def addValue (table : HostTable) (name : String) (value : HostValue) : HostTable :=
  { table with values := table.values.insert name value }

def addType (table : HostTable) (name : String) (ty : Ty) : HostTable :=
  { table with types := table.types.insert name ty }

def addFunction (table : HostTable) (signature : Signature) : HostTable :=
  table.addValue signature.name (.function signature)

/-- A class is a constructor under its name, and a type. -/
def addClass (table : HostTable) (cls : Class) : HostTable :=
  (table.addValue cls.name (.cls cls)).addType cls.name (.object cls)

def addModule (table : HostTable) (module : Module) : HostTable :=
  table.addValue module.name (.module module)

def toHost (table : HostTable) : Host where
  value? name _ := table.values.get? name
  type? name _ := table.types.get? name

end HostTable

end Flowgraph
