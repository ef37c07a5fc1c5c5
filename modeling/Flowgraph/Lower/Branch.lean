import Flowgraph.Lower.Condition

/-!
# Branches

After a branch, the names that its two sides assigned have to mean one thing.  A variable that both
sides give types with a join becomes an output of the branch.  A name whose two meanings do not fit
together is a fault, which is deferred until the name is read: a program may well use it on one
side only.  A side that always raises has no say.
-/

namespace Flowgraph.Lower

/-- One side of a branch after it was lowered. -/
structure BranchSide where
  block : BlockId
  frame : Frame
  /-- Control does not pass the end of this side. -/
  raises : Bool

/-- The type of a variable at the end of a side, and the frame that it is read from if the side
did not assign it. -/
structure SideType where
  ty : Ty
  source : Option Nat

/-- Return a variable from a side of a branch. -/
def returnFrom (block : BlockId) (name : String) (side : SideType) (span : Span) : Lower Unit := do
  let v ← inBlock block <|
    match side.source with
    | some frame => load name side.ty frame span
    | none => build (Build.insertWith .load [] side.ty "name" (.str name) span)
  addResult block v

/-- Make a variable an output of the branch, and store it. -/
def mergeVariable (n : NodeId) (name : String) (onTrue onFalse : BlockId × SideType) (joined : Ty)
    (span : Span) : Lower Unit := do
  returnFrom onTrue.1 name onTrue.2 span
  returnFrom onFalse.1 name onFalse.2 span
  let merged ← addOutput n joined
  nameValue merged name
  store name merged joined span

def deferFault (name : String) (fault : Fault) : Lower Unit :=
  modifyScope fun scope => scope.defer name fault

/-- Bind a name to what a side assigned to it. -/
def recordBinding (name : String) (binding : Binding) : Lower Unit :=
  modifyScope fun scope =>
    match binding with
    | .plain ty => scope.recordPlain name ty
    | .entity denoted => scope.recordEntity name denoted

/-- Give a name the meaning that both sides agree on. -/
def mergeName (n : NodeId) (onTrue onFalse : BranchSide) (span : Span) (name : String) :
    Lower Unit := do
  let outer := (← getScope).find? name
  let binding (side : BranchSide) : Option Binding :=
    (side.frame.assigned? name).or (outer.map Scope.Found.binding)
  let sideType (side : BranchSide) (ty : Ty) : BlockId × SideType :=
    let source :=
      if (side.frame.assigned? name).isSome then none else outer.map Scope.Found.frame
    (side.block, { ty, source })
  match binding onTrue, binding onFalse with
  | some (.plain trueType), some (.plain falseType) =>
    match Ty.join trueType falseType with
    | some joined =>
      mergeVariable n name (sideType onTrue trueType) (sideType onFalse falseType) joined span
    | none =>
      let fault := Fault.type span (.branchMismatch name trueType falseType)
      if outer.isSome then fail fault else deferFault name fault
  | none, _ => deferFault name (.name span (.undefinedOn name .onTrue))
  | _, none => deferFault name (.name span (.undefinedOn name .onFalse))
  | some trueBinding, some falseBinding =>
    match sharedEntity? trueBinding falseBinding with
    | some entity => recordBinding name (.entity entity)
    | none =>
      deferFault name (.type span (.branchKinds name trueBinding.kind falseBinding.kind))
where
  /-- The entity that two bindings share. -/
  sharedEntity? : Binding → Binding → Option Entity
    | .entity a, .entity b => if a.same b then some a else none
    | _, _ => none

/-- Names in order, each of them once. -/
def sortedNames (names : List String) : List String :=
  (NameMap.ofList (names.map fun name => (name, ()))).names

/-- Make the names that the sides assigned visible after the branch. -/
def mergeSides (n : NodeId) (onTrue onFalse : BranchSide) (span : Span) : Lower Unit := do
  let names := sortedNames (onTrue.frame.definedNames ++ onFalse.frame.definedNames)
  match onTrue.raises, onFalse.raises with
  | true, true => return ()
  | false, false => names.forM (mergeName n onTrue onFalse span)
  | trueRaises, _ =>
    let live := if trueRaises then onFalse else onTrue
    names.forM fun name =>
      match live.frame.assigned? name with
      | some binding => recordBinding name binding
      | none => pure ()

/-- A branch on a condition.  Only the side that runs is lowered where the outcome is known. -/
def branch (span : Span) (cond : Operand) (body orelse : Lower Unit)
    (bodyRaises orelseRaises : Bool) : Lower Unit := do
  let condition ← cond.condition
  match condition.known with
  | some true => do insertRefinements condition.refinements.onTrue; body
  | some false => do insertRefinements condition.refinements.onFalse; orelse
  | none =>
    let branching ← insertBranching condition.value span
    let (_, trueFrame) ← inNarrowedBranch branching.onTrue condition.refinements.onTrue body
    let (_, falseFrame) ← inNarrowedBranch branching.onFalse condition.refinements.onFalse orelse
    match trueFrame, falseFrame with
    | some trueFrame, some falseFrame =>
      mergeSides branching.node
        { block := branching.onTrue, frame := trueFrame, raises := bodyRaises }
        { block := branching.onFalse, frame := falseFrame, raises := orelseRaises } span
    | _, _ => fail (.internal .missingFrame)

end Flowgraph.Lower
