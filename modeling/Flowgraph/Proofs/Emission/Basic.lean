import Flowgraph.Lower.Stmt
import Flowgraph.Proofs.Graph.Visibility
import Flowgraph.Proofs.Regular
import Mathlib.Data.List.Forall2

/-!
# What lowering does to its state

`Emission` says once, for all of lowering, what can happen to the state: nodes are placed at the
insertion point, names are read, stored and narrowed, and the brackets of the language (branches,
loops, closures, frames) run something inside and undo on the way out what they did on the way in.
Every later statement about the graphs that lowering writes is an induction over it.

Two parameters keep track of what holds only sometimes.

* `H` lists the values whose type may still change: the lists that comprehensions are
  filling.  Nothing but the appending itself uses them.
* `A` says that the host supplies regular types only.  Then there are no others, conditions are
  bools, and loops count with ints.
-/

namespace Flowgraph

open List Lower

/-! ## Nodes by their kind -/

def loadNode (name : String) (span : Span) : Node :=
  { op := .load, inputs := [], attrs := [("name", .str name)], span }

def storeNode (name : String) (v : ValueId) (span : Span) : Node :=
  { op := .store, inputs := [v], attrs := [("name", .str name)], span }

def constantNode (value : Literal) (span : Span) : Node :=
  { op := .constant, inputs := [], attrs := [("value", value)], span }

/-- The type of a number. -/
def Literal.numberType? : Literal → Option Ty
  | .int _ => some .int
  | .float _ => some .float
  | .str _ | .bool _ | .nothing => none

/-- The number that a constant stands for. -/
def NodeOf.number? {γ : Type} (node : NodeOf γ) : Option Literal :=
  if node.op = .constant then
    (node.attr? "value").filter fun value => value.numberType?.isSome
  else none

/-- The operations that neither touch variables nor own blocks. -/
def Op.isPlain : Op → Bool
  | .load | .store | .branch | .loop | .closure | .forkClosure | .fork => false
  | _ => true

/-! ## Changes of the state -/

/-- A parameter as it is declared. -/
structure ParamDecl where
  name : String
  ty : Ty
  span : Span
  label : Option String

/-- A host that has nothing to offer, and the default settings. -/
def LowerContext.bare : LowerContext := ⟨.empty, {}⟩

namespace LowerState

abbrev graph (s : LowerState) : Graph := s.builder.graph

abbrev point (s : LowerState) : InsertPoint := s.builder.point

def withGraph (s : LowerState) (g : Graph) : LowerState :=
  { s with builder := { s.builder with graph := g } }

def moveTo (s : LowerState) (point : InsertPoint) : LowerState :=
  { s with builder := { s.builder with point } }

/-- A new node at the insertion point. -/
def place (s : LowerState) (node : Node) (types : List Ty) : LowerState :=
  s.withGraph (s.graph.place s.point node types)

/-- A pooled constant. -/
def pooled (s : LowerState) (value : Literal) (ty : Ty) : LowerState :=
  { s with builder := { s.builder with
      graph := s.graph.placeAtRoot s.builder.pool.length
        { op := .constant, inputs := [], attrs := [("value", value)] } [ty]
      pool := (value, s.graph.freshValue) :: s.builder.pool } }

def mapScope (s : LowerState) (change : Scope → Scope) : LowerState :=
  { s with scope := change s.scope }

def recordPlain (s : LowerState) (name : String) (ty : Ty) : LowerState :=
  s.mapScope fun scope => scope.recordPlain name ty

def recordEntity (s : LowerState) (name : String) (entity : Entity) : LowerState :=
  s.mapScope fun scope => scope.recordEntity name entity

def recordRefined (s : LowerState) (name : String) (ty : Ty) : LowerState :=
  s.mapScope fun scope => scope.recordRefined name ty

def recordBinding (s : LowerState) (name : String) : Binding → LowerState
  | .plain ty => s.recordPlain name ty
  | .entity denoted => s.recordEntity name denoted

def defer (s : LowerState) (name : String) (fault : Fault) : LowerState :=
  s.mapScope fun scope => scope.defer name fault

/-- Push a frame for the current block. -/
def narrowing (s : LowerState) : LowerState :=
  s.mapScope fun scope => scope.push s.point.block false none

def pop (s : LowerState) : LowerState := s.mapScope Scope.pop

/-- Enter a block, with a frame for it. -/
def enter (s : LowerState) (block : BlockId) : LowerState :=
  (s.mapScope fun scope => scope.push block false none).moveTo ⟨block, none⟩

/-- Leave a block for the point from which it was entered. -/
def leave (s : LowerState) (point : InsertPoint) : LowerState := s.pop.moveTo point

def mapBodies (s : LowerState) (change : List BodyContext → List BodyContext) : LowerState :=
  { s with bodies := change s.bodies }

def setMerged (s : LowerState) (ty : Ty) : LowerState :=
  s.mapBodies (modifyHead fun body => { body with merged := some ty })

def enterLoop (s : LowerState) (kind : LoopKind) : LowerState :=
  s.mapBodies (modifyHead fun body => { body with loops := kind :: body.loops })

def leaveLoop (s : LowerState) : LowerState :=
  s.mapBodies (modifyHead fun body => { body with loops := body.loops.tail })

def withResults (s : LowerState) (block : BlockId) (results : List ValueId) : LowerState :=
  s.withGraph (results.foldl (fun g v => g.withResult block v) s.graph)

def withOutputs (s : LowerState) (n : NodeId) (types : List Ty) : LowerState :=
  s.withGraph (types.foldl (fun g ty => g.withOutput n ty) s.graph)

/-- Where a variable of a frame is read: before the outermost closure on the way, or here. -/
def readPoint (s : LowerState) (frame : Nat) (here : InsertPoint) : InsertPoint :=
  match s.scope.closureCrossedFrom? frame with
  | some closure => ⟨((s.graph.node? closure).bind NodeOf.owner).getD here.block, some closure⟩
  | none => here

/-- A node with two blocks. -/
def openBranch (s : LowerState) (condition : ValueId) (span : Span) : LowerState :=
  s.withGraph (((s.graph.place s.point { op := .branch, inputs := [condition], span } []).withBlock
    s.graph.freshNode).withBlock s.graph.freshNode)

/-- The inputs and the body block of a loop, once what it starts from is known. -/
def openLoop (s : LowerState) (n : NodeId) (trip first : ValueId) : LowerState :=
  s.withGraph ((((s.graph.withInput n trip).withInput n first).withBlock n).withParam
    s.graph.freshBlock .int)

def withBlock (s : LowerState) (n : NodeId) : LowerState := s.withGraph (s.graph.withBlock n)

/-- The place before a new loop, where what it starts from is computed. -/
abbrev beforeLoop (s : LowerState) (span : Span) : LowerState :=
  (s.place { op := .loop, inputs := [], span } []).moveTo ⟨s.point.block, some s.graph.freshNode⟩

/-- The start of the body of a loop, once `before` is reached in front of it. -/
abbrev loopBody (s before : LowerState) (trip first : ValueId) : LowerState :=
  ((before.moveTo s.point).openLoop s.graph.freshNode trip first).enter before.graph.freshBlock

/-- The start of the condition of a loop, after its body. -/
abbrev loopNext (s body : LowerState) : LowerState :=
  ((body.leave s.point).withBlock s.graph.freshNode).enter body.graph.freshBlock

/-- The end of a loop with the given condition for the next iteration. -/
abbrev afterLoop (s body next : LowerState) (condition : ValueId) : LowerState :=
  (next.leave s.point).withResults body.graph.freshBlock [condition]

/-- An element is appended to a list, whose type is settled by that. -/
def fill (s : LowerState) (list elem : ValueId) (ty filled : Ty) (span : Span) : LowerState :=
  (s.withGraph (s.graph.retype list (.list ty))).place
    { op := .primitive .append, inputs := [list, elem], span } [filled]

/-- A new list, whose type is not settled yet. -/
abbrev placeList (s : LowerState) (span : Span) : LowerState :=
  s.place { op := .listConstruct, inputs := [], span } [.list .tensor]

/-- The end of a loop that has no condition of its own. -/
abbrev afterRounds (s body : LowerState) (span : Span) : LowerState :=
  s.afterLoop body ((s.loopNext body).place (constantNode (.bool true) span) [.bool])
    (s.loopNext body).graph.freshValue

/-- A closure node with its body block. -/
def openClosure (s : LowerState) (span : Span) : LowerState :=
  s.withGraph ((s.graph.place s.point { op := .closure, inputs := [], span } [.nothing]).withBlock
    s.graph.freshNode)

/-- Enter the body of a function or closure. -/
def enterBody (s : LowerState) (block : BlockId) (closure : Option NodeId) (body : BodyContext) :
    LowerState :=
  ((s.mapScope fun scope => scope.push block true closure).mapBodies (body :: ·)).moveTo
    ⟨block, none⟩

/-- The state in which the body of a definition starts, with an empty graph. -/
def start (body : BodyContext) : LowerState := enterBody {} Graph.root none body

def leaveBody (s : LowerState) (point : InsertPoint) : LowerState :=
  (s.pop.mapBodies tail).moveTo point

/-- A parameter of the block, stored under its name. -/
def declare (block : BlockId) (s : LowerState) (param : ParamDecl) : LowerState :=
  ((s.withGraph ((s.graph.withParam block param.ty).named s.graph.freshValue param.label)).place
    (storeNode param.name s.graph.freshValue param.span) []).recordPlain param.name param.ty

def declareAll (s : LowerState) (block : BlockId) (params : List ParamDecl) : LowerState :=
  params.foldl (declare block) s

def sign (s : LowerState) (closure : ValueId) (signature : Signature) : LowerState :=
  { s with signatures := (closure, signature) :: s.signatures }

/-- Where a block reads a variable that it returns. -/
def returnPoint (s : LowerState) (block : BlockId) : Option Nat → InsertPoint
  | some frame => s.readPoint frame ⟨block, none⟩
  | none => ⟨block, none⟩

/-- Read a variable and return it from a block. -/
def returnFrom (s : LowerState) (block : BlockId) (name : String) (side : SideType)
    (span : Span) (label : Option String) : LowerState :=
  s.withGraph (((s.graph.place (s.returnPoint block side.source) (loadNode name span)
    [side.ty]).named s.graph.freshValue label).withResult block s.graph.freshValue)

/-- A new output of a branch, stored under a name. -/
def storeOutput (s : LowerState) (n : NodeId) (name : String) (ty : Ty) (span : Span)
    (label : Option String) : LowerState :=
  ((s.withGraph ((s.graph.withOutput n ty).named s.graph.freshValue label)).place
    (storeNode name s.graph.freshValue span) []).recordPlain name ty

end LowerState

/-- The value is defined at the insertion point, and its type is settled. -/
def Held (H : List ValueId) (s : LowerState) (v : ValueId) : Prop :=
  v ∉ H ∧ s.graph.Defined s.point v

/-- The values have these types, one by one. -/
def Graph.Typed (g : Graph) (values : List ValueId) (types : List Ty) : Prop :=
  Forall₂ (fun v ty => g.typeOf? v = some ty) values types

/-- The types of the operands and outputs of a primitive pass its check, and what is unwrapped is an
optional. -/
structure Graph.Checked (g : Graph) (op : Op) (inputs : List ValueId) (outputs : List Ty) :
    Prop where
  primitive : ∀ primitive, op = .primitive primitive → ∃ args ty, g.Typed inputs args ∧
    outputs = [ty] ∧ ∀ span, primitive.check args span = .ok ty
  unwrap : op = .unwrap → ∃ inner, g.Typed inputs [.optional inner] ∧ outputs = [inner]

/-- The values fit the outputs of a branch that they are returned to. -/
def Graph.Returns (A : Prop) (g : Graph) (values : List ValueId) (outputs : List Ty) : Prop :=
  Forall₂ (fun v ty => ∃ found, g.typeOf? v = some found ∧ (A → found.Below ty)) values outputs

/-! ## Merging the sides of a branch -/

/-- What a name means at the end of a side. -/
def Lower.BranchSide.binding? (side : BranchSide) (scope : Scope) (name : String) :
    Option Binding :=
  (side.frame.assigned? name).or ((scope.find? name).map Scope.Found.binding)

/-- The type of a variable at the end of a side, with the frame that it is read from. -/
def Lower.BranchSide.typed (side : BranchSide) (scope : Scope) (name : String) (ty : Ty) :
    SideType :=
  { ty, source :=
      if (side.frame.assigned? name).isSome then none else
        (scope.find? name).map Scope.Found.frame }

/-- What happens after the two sides of a branch node were lowered. -/
inductive Merge (n : NodeId) (a b : BranchSide) : LowerState → LowerState → Prop
  | refl (s : LowerState) : Merge n a b s s
  | trans {s t u : LowerState} : Merge n a b s t → Merge n a b t u → Merge n a b s u
  /-- Both sides give the name types with a join. -/
  | joined {s : LowerState} {name : String} {typeA typeB joined : Ty} (span : Span)
      (labelA labelB label : Option String) (ha : a.binding? s.scope name = some (.plain typeA))
      (hb : b.binding? s.scope name = some (.plain typeB))
      (hjoin : Ty.join typeA typeB = some joined) : Merge n a b s
        (((s.returnFrom a.block name (a.typed s.scope name typeA) span labelA).returnFrom b.block
          name (b.typed s.scope name typeB) span labelB).storeOutput n name joined span label)
  /-- Both sides give the name the same entity. -/
  | shared {s : LowerState} {name : String} {entity other : Entity}
      (ha : a.binding? s.scope name = some (.entity entity))
      (hb : b.binding? s.scope name = some (.entity other)) (hsame : entity.same other = true) :
      Merge n a b s (s.recordEntity name entity)
  /-- One side raises, so the name means what the other side says. -/
  | survivor {s : LowerState} {name : String} {binding : Binding}
      (h : (b.raises = true ∧ a.frame.assigned? name = some binding) ∨
        (a.raises = true ∧ b.frame.assigned? name = some binding)) :
      Merge n a b s (s.recordBinding name binding)
  | defer (s : LowerState) (name : String) (fault : Fault) : Merge n a b s (s.defer name fault)

/-! ## Emissions -/

/-- How a side of a branch ends whose results have the types of the outputs. -/
structure SideEnds (A : Prop) (H : List ValueId) (side : BranchSide) (results : List ValueId)
    (outputs : List Ty) (t : LowerState) : Prop where
  frame : t.scope.current? = some side.frame
  held : ∀ v ∈ results, Held H t v
  returns : t.graph.Returns A results outputs
  raises : side.raises = true → t.graph.Raises side.block

/-- What lowering can do to its state. -/
inductive Emission (A : Prop) : List ValueId → LowerState → LowerState → Prop
  | refl (H : List ValueId) (s : LowerState) : Emission A H s s
  | trans {H : List ValueId} {s t u : LowerState} :
      Emission A H s t → Emission A H t u → Emission A H s u
  | node {H : List ValueId} {s : LowerState} {node : Node} (types : List Ty)
      (hplain : node.op.isPlain = true) (hblocks : node.blocks = [])
      (hsubgraph : node.subgraph = none) (hinputs : ∀ v ∈ node.inputs, Held H s v)
      (hchecked : s.graph.Checked node.op node.inputs types)
      (hregular : A → ∀ ty ∈ types, ty.Regular) (hnumber : node.number? = none) :
      Emission A H s (s.place node types)
  | pooled {value : Literal} {ty : Ty} (H : List ValueId) (s : LowerState)
      (hnumber : value.numberType? = some ty) (hnew : ∀ entry ∈ s.builder.pool, entry.1 ≠ value) :
      Emission A H s (s.pooled value ty)
  | named (H : List ValueId) (s : LowerState) (v : ValueId) (label : Option String) :
      Emission A H s (s.withGraph (s.graph.named v label))
  /-- A parameter of the root. -/
  | input (H : List ValueId) (s : LowerState) :
      Emission A H s (s.withGraph (s.graph.withParam Graph.root .tensor))
  /-- A variable is read. -/
  | read {H : List ValueId} {s : LowerState} {name : String} {frame : Nat} {ty : Ty}
      (span : Span) (hfound : s.scope.find? name = some ⟨frame, .plain ty⟩) : Emission A H s
        (s.withGraph (s.graph.place (s.readPoint frame s.point) (loadNode name span) [ty]))
  /-- A variable is assigned. -/
  | store {H : List ValueId} {s : LowerState} {name : String} {v : ValueId} {ty : Ty}
      (span : Span) (hheld : Held H s v) (hregular : A → ty.Regular) :
      Emission A H s ((s.place (storeNode name v span) []).recordPlain name ty)
  /-- A variable is narrowed. -/
  | narrow {H : List ValueId} {s : LowerState} {name : String} {v : ValueId} {ty : Ty}
      (span : Span) (hheld : Held H s v) (htype : s.graph.typeOf? v = some ty) :
      Emission A H s ((s.place (storeNode name v span) []).recordRefined name ty)
  | entity {H : List ValueId} {s : LowerState} {name : String} {entity : Entity}
      (hheld : ∀ v ∈ entity.values, Held H s v) (hregular : A → entity.Regular s.graph) :
      Emission A H s (s.recordEntity name entity)
  | defer (H : List ValueId) (s : LowerState) (name : String) (fault : Fault) :
      Emission A H s (s.defer name fault)
  | merged (H : List ValueId) (s : LowerState) (ty : Ty) : Emission A H s (s.setMerged ty)
  /-- Something happens with variables narrowed for its time only. -/
  | narrowing {H : List ValueId} {s t : LowerState} :
      Emission A H s.narrowing t → Emission A H s t.pop
  /-- Something happens inside a loop. -/
  | inLoop {H : List ValueId} {s t : LowerState} (kind : LoopKind) :
      Emission A H (s.enterLoop kind) t → Emission A H s t.leaveLoop
  | branch {H : List ValueId} {s s₁ s₂ t : LowerState} {condition : ValueId} (span : Span)
      {a b : BranchSide} {resultsA resultsB : List ValueId} {outputs : List Ty}
      (hcondition : Held H s condition) (htruth : A → s.graph.typeOf? condition = some .bool)
      (hblocks : (a.block = ⟨s.graph.blocks.length⟩ ∧ b.block = ⟨s.graph.blocks.length + 1⟩) ∨
        (a.block = ⟨s.graph.blocks.length + 1⟩ ∧ b.block = ⟨s.graph.blocks.length⟩))
      (ha : Emission A H ((s.openBranch condition span).enter a.block) s₁)
      (hendA : SideEnds A H a resultsA outputs s₁)
      (hb : Emission A H (((s₁.leave s.point).withResults a.block resultsA).enter b.block) s₂)
      (hendB : SideEnds A H b resultsB outputs s₂) (hregular : A → ∀ ty ∈ outputs, ty.Regular)
      (hmerge : Merge s.graph.freshNode a b (((s₂.leave s.point).withResults b.block
        resultsB).withOutputs s.graph.freshNode outputs) t) : Emission A H s t
  | loop {H : List ValueId} {s s₁ s₂ s₃ : LowerState} {trip first next : ValueId}
      (span : Span) (hfirst : Emission A H (s.beforeLoop span) s₁)
      (htrip : Held H s₁ trip) (hcount : A → s₁.graph.typeOf? trip = some .int)
      (hcondition : Held H s₁ first) (htruth : A → s₁.graph.typeOf? first = some .bool)
      (hbody : Emission A H (s.loopBody s₁ trip first) s₂)
      (hnext : Emission A H (s.loopNext s₂) s₃) (hresult : Held H s₃ next)
      (hagain : A → s₃.graph.typeOf? next = some .bool) : Emission A H s (s.afterLoop s₂ s₃ next)
  /-- A new list is filled by a loop.  Its type is settled by the elements that are appended to it;
  until then nothing uses it. -/
  | comprehension {H : List ValueId} {s s₀ s₁ s₂ : LowerState} {trip first v : ValueId}
      {ty filled : Ty} (span : Span) (hiter : Emission A (s.graph.freshValue :: H)
        (s.place { op := .listConstruct, inputs := [], span } [.list .tensor]) s₀)
      (hfirst : Emission A (s.graph.freshValue :: H) (s₀.beforeLoop span) s₁)
      (htrip : Held (s.graph.freshValue :: H) s₁ trip)
      (hcount : A → s₁.graph.typeOf? trip = some .int)
      (hcondition : Held (s.graph.freshValue :: H) s₁ first)
      (htruth : A → s₁.graph.typeOf? first = some .bool)
      (hbody : Emission A (s.graph.freshValue :: H)
        ((s₀.loopBody s₁ trip first).enterLoop .loop) s₂)
      (helem : Held (s.graph.freshValue :: H) s₂ v) (htype : s₂.graph.typeOf? v = some ty)
      (hfilled : ∀ span, Primitive.check .append [.list ty, ty] span = .ok filled) :
      Emission A H s (s₀.afterLoop (s₂.fill s.graph.freshValue v ty filled span).leaveLoop
          ((s₀.loopNext (s₂.fill s.graph.freshValue v ty filled span).leaveLoop).place
            (constantNode (.bool true) span) [.bool])
          (s₀.loopNext (s₂.fill s.graph.freshValue v ty filled span).leaveLoop).graph.freshValue)
  | closure {H : List ValueId} {s s₁ : LowerState} {result : ValueId} {ty : Ty}
      {params : List ParamDecl} (span : Span) (name : String) (body : BodyContext)
      (hdeclared : A → ∀ declared ∈ body.declared, declared.Regular)
      (hparams : A → ∀ param ∈ params, param.ty.Regular)
      (hbody : Emission A H (((s.openClosure span).enterBody s.graph.freshBlock
        (some s.graph.freshNode) body).declareAll s.graph.freshBlock params) s₁)
      (hresult : Held H s₁ result) (htype : s₁.graph.typeOf? result = some ty) : Emission A H s
        (((s₁.leaveBody s.point).withResults s.graph.freshBlock [result]).sign s.graph.freshValue
          ⟨name, params.map fun param => (param.name, param.ty), ty⟩)
  | fork {H : List ValueId} {s : LowerState} {closure : ValueId} {args : List ValueId}
      {signature : Signature} (span : Span) (hsigned : (closure, signature) ∈ s.signatures)
      (hclosure : Held H s closure) (hargs : ∀ v ∈ args, Held H s v)
      (hfit : Forall₂ (fun v param => ∃ ty, s.graph.typeOf? v = some ty ∧
        ty.isSubtype (Prod.snd param) = true) args signature.params) :
      Emission A H s (s.place { op := .forkClosure, inputs := closure :: args, span }
          [.future signature.result])

end Flowgraph
