import Flowgraph.Entity

/-!
# Scopes

A scope is a stack of frames, one per block that is being lowered; frames that start the body of a
function or of a closure are marked.  A frame binds names: a variable of the program is known by
its type alone, since its value is loaded when it is read, and anything else is kept as an entity.

A name can be bound in a frame by an assignment or by a refinement.  The two are told apart,
because a refinement does not define a name for those who come after the frame.

A fault can be deferred: it is recorded for a name on the frame of the current body, and reported
only if the name is read before it is bound again.
-/

namespace Flowgraph

/-- What a name is bound to. -/
inductive Binding where
  | plain (ty : Ty)
  | entity (denoted : Entity)
  deriving Repr, Inhabited

def Binding.kind : Binding → EntityKind
  | .plain _ => .value
  | .entity denoted => denoted.kind

/-- How a name is bound in one frame. -/
inductive Slot where
  | assigned (binding : Binding)
  | refined (ty : Ty)
  deriving Repr, Inhabited

namespace Slot

def binding : Slot → Binding
  | .assigned binding => binding
  | .refined ty => .plain ty

def assigned? : Slot → Option Binding
  | .assigned binding => some binding
  | .refined _ => none

end Slot

structure Frame where
  block : BlockId
  /-- The frame is the body of a function or of a closure. -/
  startsBody : Bool
  /-- The node of the closure whose body this is. -/
  closure : Option NodeId := none
  slots : NameMap Slot := .empty
  /-- Faults to report when a name is read; only on frames that start a body. -/
  deferred : NameMap Fault := .empty
  deriving Repr

namespace Frame

def get? (frame : Frame) (name : String) : Option Binding :=
  (frame.slots.get? name).map Slot.binding

/-- What the name was assigned in this frame, refinements left aside. -/
def assigned? (frame : Frame) (name : String) : Option Binding :=
  (frame.slots.get? name).bind Slot.assigned?

def defines (frame : Frame) (name : String) : Bool :=
  frame.slots.contains name

/-- The names assigned in this frame, in order. -/
def definedNames (frame : Frame) : List String :=
  (frame.slots.filterMap fun _ slot => slot.assigned?).names

def bind (frame : Frame) (name : String) (slot : Slot) : Frame :=
  { frame with slots := frame.slots.insert name slot }

end Frame

/-- The frames in force, the innermost first.  A frame is numbered by how many are outside it. -/
structure Scope where
  frames : List Frame := []
  deriving Repr

namespace Scope

def depth (scope : Scope) : Nat :=
  scope.frames.length

def push (scope : Scope) (block : BlockId) (startsBody : Bool) (closure : Option NodeId) : Scope :=
  ⟨{ block, startsBody, closure } :: scope.frames⟩

def current? (scope : Scope) : Option Frame :=
  scope.frames.head?

def pop (scope : Scope) : Scope :=
  ⟨scope.frames.tail⟩

/-! ## Finding names -/

/-- A binding with the number of its frame. -/
structure Found where
  frame : Nat
  binding : Binding
  deriving Repr

def findFrom (name : String) : List Frame → Option Found
  | [] => none
  | frame :: outer =>
    match frame.get? name with
    | some binding => some ⟨outer.length, binding⟩
    | none => findFrom name outer

/-- The innermost binding of a name. -/
def find? (scope : Scope) (name : String) : Option Found :=
  findFrom name scope.frames

/-- As `findFrom`, but not beyond the first frame that starts a body. -/
def findWithinBody (name : String) : List Frame → Option Found
  | [] => none
  | frame :: outer =>
    match frame.get? name with
    | some binding => some ⟨outer.length, binding⟩
    | none => if frame.startsBody then none else findWithinBody name outer

/-- The binding of a name in a frame outside the current one, but in the same body. -/
def findEnclosing? (scope : Scope) (name : String) : Option Found :=
  match scope.frames with
  | [] => none
  | frame :: outer => if frame.startsBody then none else findWithinBody name outer

/-- The type of a variable. -/
def typeOf? (scope : Scope) (name : String) : Option Ty :=
  match scope.find? name with
  | some ⟨_, .plain ty⟩ => some ty
  | _ => none

/-- The outermost closure whose body lies between a frame and the current one. -/
def closureCrossedFrom? (scope : Scope) (frame : Nat) : Option NodeId :=
  let inside := scope.frames.take (scope.frames.length - (frame + 1))
  ((inside.filter Frame.startsBody).filterMap Frame.closure).getLast?

/-! ## Binding names -/

/-- Change the innermost frame that starts a body. -/
def modifyBodyFrame (change : Frame → Frame) : List Frame → List Frame
  | [] => []
  | frame :: outer =>
    if frame.startsBody then change frame :: outer else frame :: modifyBodyFrame change outer

def clearDeferred (scope : Scope) (name : String) : Scope :=
  ⟨modifyBodyFrame (fun frame => { frame with deferred := frame.deferred.erase name })
    scope.frames⟩

/-- Bind a name in the current frame. -/
def bindCurrent (scope : Scope) (name : String) (slot : Slot) : Scope :=
  match scope.frames with
  | [] => scope
  | frame :: outer => ⟨frame.bind name slot :: outer⟩

def recordPlain (scope : Scope) (name : String) (ty : Ty) : Scope :=
  (scope.clearDeferred name).bindCurrent name (.assigned (.plain ty))

def recordEntity (scope : Scope) (name : String) (entity : Entity) : Scope :=
  (scope.clearDeferred name).bindCurrent name (.assigned (.entity entity))

def recordRefined (scope : Scope) (name : String) (ty : Ty) : Scope :=
  scope.bindCurrent name (.refined ty)

/-! ## Deferred faults -/

/-- Report the fault if the name is read before it is bound again. -/
def defer (scope : Scope) (name : String) (fault : Fault) : Scope :=
  ⟨modifyBodyFrame (fun frame => { frame with deferred := frame.deferred.insert name fault })
    scope.frames⟩

/-- The deferred fault of a name, in the current body or in one around it. -/
def deferred? (scope : Scope) (name : String) : Option Fault :=
  (scope.frames.filter Frame.startsBody).findSome? fun frame => frame.deferred.get? name

/-- The deferred fault of a name in the current body. -/
def deferredInBody? (scope : Scope) (name : String) : Option Fault :=
  (scope.frames.find? Frame.startsBody).bind fun frame => frame.deferred.get? name

end Scope

end Flowgraph
