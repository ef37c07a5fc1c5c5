import Flowgraph.Lower.Operand

/-!
# Subscripts

A tensor is indexed by a list of integers, slices, `None`, tensors and at most one ellipsis.  Each
entry addresses a dimension: from the front for those before the ellipsis, from the back for those
after it.  `axes` computes the dimensions; the entries are then applied one after the other, except
tensors, which are collected and applied together.

Tuples are indexed by constants only, so that the type of the result is known.
-/

namespace Flowgraph.Lower

/-! ## Dimensions -/

/-- An index of a tensor after its expression was looked at. -/
inductive IndexEntry where
  | ellipsis
  | select (position : ValueId)
  | slice (start stop step : Option Operand)
  | newAxis
  | tensor (positions : ValueId)

namespace IndexEntry

def isEllipsis : IndexEntry → Bool
  | .ellipsis => true
  | _ => false

def isTensor : IndexEntry → Bool
  | .tensor _ => true
  | _ => false

/-- How many dimensions of the result come from the entry. -/
def produced : IndexEntry → Int
  | .select _ => 0
  | _ => 1

/-- How many dimensions of the tensor the entry uses up. -/
def consumed : IndexEntry → Int
  | .newAxis => 0
  | _ => 1

end IndexEntry

/-- Dimensions counted from the front: each entry moves on by what it leaves in the result. -/
def frontAxes : Int → List IndexEntry → List Int
  | _, [] => []
  | axis, entry :: rest => axis :: frontAxes (axis + entry.produced) rest

/-- Dimensions counted from the back, for entries in reverse order: each entry moves on by what it
uses up of the tensor. -/
def backAxes : Int → List IndexEntry → List Int
  | _, [] => []
  | axis, entry :: rest => axis :: backAxes (axis - entry.consumed) rest

/-- The dimension of every entry; that of the ellipsis has no meaning. -/
def axes (entries : List IndexEntry) : List Int :=
  let front := entries.takeWhile fun entry => !entry.isEllipsis
  match entries.dropWhile fun entry => !entry.isEllipsis with
  | [] => frontAxes 0 front
  | _ :: back => frontAxes 0 front ++ 0 :: (backAxes (-1) back.reverse).reverse

/-! ## Tensors -/

/-- Look at one index.  An ellipsis is allowed once. -/
def indexEntry (seenEllipsis : Bool) (item : Item) : Lower IndexEntry := do
  match item.form with
  | .ellipsis =>
    if seenEllipsis then fail (.shape item.span .twoEllipses)
    else return .ellipsis
  | .slice start stop step => return .slice start stop step
  | .noneLiteral => return .newAxis
  | _ =>
    let v ← item.value none
    let ty ← typeOf v
    match ty with
    | .int => return .select v
    | _ =>
      if ty.isTensor then return .tensor v
      else fail (.type item.span (.tensorIndexType ty))

def indexEntries (seenEllipsis : Bool) : List Item → Lower (List IndexEntry)
  | [] => return []
  | item :: rest => do
    let entry ← indexEntry seenEllipsis item
    return entry :: (← indexEntries (seenEllipsis || entry.isEllipsis) rest)

/-- Tensors after an ellipsis are refused, the last one first. -/
def refuseTensorAfterEllipsis (items : List Item) (entries : List IndexEntry) : Lower Unit :=
  let afterEllipsis := (items.zip entries).dropWhile fun pair => !pair.2.isEllipsis
  match afterEllipsis.reverse.find? fun pair => pair.2.isTensor with
  | some pair => fail (.unsupported pair.1.span .tensorAfterEllipsis)
  | none => return ()

/-- A bound of a slice, or its default. -/
def sliceBound (bound : Option Operand) (default : Int64) : Lower ValueId := do
  match bound with
  | some operand => coerce (← operand.value (some .int)) .int operand.span .sliceBound
  | none => build (Build.int default)

def sliceBounds (start stop step : Option Operand) : Lower (List ValueId) := do
  let start ← sliceBound start 0
  let stop ← sliceBound stop Int64.maxValue
  let step ← sliceBound step 1
  return [start, stop, step]

/-- A tensor with some indices applied, and those that are tensors with their dimensions. -/
structure Sliced where
  tensor : ValueId
  positions : List (Int × ValueId) := []

def axisConstant (axis : Int) : Lower ValueId :=
  build (Build.int (Int64.ofInt axis))

/-- Apply one index at its dimension. -/
def applyEntry (span : Span) (sliced : Sliced) (entry : IndexEntry) (axis : Int) :
    Lower Sliced := do
  match entry with
  | .ellipsis => return sliced
  | .select position =>
    let dim ← axisConstant axis
    return { sliced with tensor := ← primitive .select [sliced.tensor, dim, position] span }
  | .slice start stop step =>
    let bounds ← sliceBounds start stop step
    let dim ← axisConstant axis
    return { sliced with tensor := ← primitive .slice (sliced.tensor :: dim :: bounds) span }
  | .newAxis =>
    let dim ← axisConstant axis
    return { sliced with tensor := ← primitive .unsqueeze [sliced.tensor, dim] span }
  | .tensor positions => return { sliced with positions := sliced.positions ++ [(axis, positions)] }

/-- Apply all indices but tensors, in the order of the source. -/
def decompose (tensor : ValueId) (items : List Item) (span : Span) : Lower Sliced := do
  let entries ← indexEntries false items
  refuseTensorAfterEllipsis items entries
  (entries.zip (axes entries)).foldlM (fun sliced pair => applyEntry span sliced pair.1 pair.2)
    { tensor }

/-- One past the largest dimension. -/
def axisCount (positions : List (Int × ValueId)) : Nat :=
  positions.foldl (fun count pair => max count (pair.1 + 1).toNat) 0

/-- The list of index tensors at their dimensions, with `None` at the others. -/
def positionList (positions : List (Int × ValueId)) (span : Span) : Lower ValueId := do
  let elems ← (List.range (axisCount positions)).mapM fun (axis : Nat) =>
    match positions.find? fun pair => pair.1 = (axis : Int) with
    | some pair => pure pair.2
    | none => build (Build.none Ty.optionalTensor span)
  build (Build.insertValue .listConstruct elems (.list Ty.optionalTensor) span)

def tensorSubscript (tensor : ValueId) (items : List Item) (span : Span) : Lower ValueId := do
  let sliced ← decompose tensor items span
  if sliced.positions.isEmpty then return sliced.tensor
  else
    let list ← positionList sliced.positions span
    primitive .index [sliced.tensor, list] span

/-! ## Tuples -/

/-- The value of an index that has to be a constant. -/
def constantIndex (operand : Operand) (what : String) : Lower Int := do
  let v ← operand.value none
  let ty ← typeOf v
  let constant ← build (Build.constantOf? v)
  match ty, constant.bind Literal.asInt? with
  | .int, some position => return position.toInt
  | _, _ => fail (.type operand.span (.notConstantIndex what))

/-- A position of which a negative one counts from the end. -/
def wrapped (length : Nat) (position : Int) : Int :=
  if position < 0 then position + length else position

/-- A bound of a slice, moved into the tuple. -/
def clampedBound (length : Nat) (position : Int) : Nat :=
  min (wrapped length position).toNat length

def tupleBound (length : Nat) (bound : Option Operand) (default : Nat) : Lower Nat := do
  match bound with
  | some operand => return clampedBound length (← constantIndex operand "tuple slice indices")
  | none => return default

def tupleSlice (tuple : ValueId) (types : List Ty) (item : Item) (start stop step : Option Operand)
    (span : Span) : Lower ValueId := do
  if step.isSome then fail (.unsupported item.span .tupleStep)
  let first ← tupleBound types.length start 0
  let last ← tupleBound types.length stop types.length
  let last := max last first
  let n ← build (Build.insert .tupleSlice [tuple] [.tuple ((types.take last).drop first)] span)
  build (Build.setAttr n "begin" (.int (Int64.ofNat first)))
  build (Build.setAttr n "end" (.int (Int64.ofNat last)))
  build (Build.query fun graph => graph.output? n)

def tupleItem (tuple : ValueId) (types : List Ty) (item : Item) (span : Span) : Lower ValueId := do
  let position ← constantIndex item.toOperand "tuple indices"
  let index := wrapped types.length position
  match if index < 0 then none else types[index.toNat]? with
  | some ty =>
    build (Build.insertWith .tupleIndex [tuple] ty "index" (.int (Int64.ofInt index)) span)
  | none => fail (.type item.span (.tupleIndexRange types.length position))

def tupleSubscript (tuple : ValueId) (types : List Ty) (item : Item) (span : Span) :
    Lower ValueId :=
  match item.form with
  | .slice start stop step => tupleSlice tuple types item start stop step span
  | _ => tupleItem tuple types item span

/-! ## All subscripts -/

def singleIndex (items : List Item) (span : Span) (what : String) : Lower Item :=
  match items with
  | [item] => return item
  | _ => fail (.shape span (.singleIndex what items.length))

/-- A list or a string at an index or a slice. -/
def sequenceSubscript (v : ValueId) (item : Item) (span : Span) : Lower ValueId := do
  match item.form with
  | .slice start stop step => primitive .slice (v :: (← sliceBounds start stop step)) span
  | _ => primitive .getItem [v, ← item.value none] span

/-- `base[items]` -/
def subscript (span : Span) (base : Operand) (items : List Item) : Lower ValueId := do
  let entity ← base.entity
  match entity with
  | .value v =>
    let ty ← typeOf v
    match ty with
    | .tensor | .ranked _ => tensorSubscript v items span
    | .tuple types => tupleSubscript v types (← singleIndex items span "tuple") span
    | .list _ | .str => sequenceSubscript v (← singleIndex items span "list") span
    | .dict key _ =>
      let item ← singleIndex items span "dict"
      let keyValue ← coerce (← item.value (some key)) key item.span .dictKey
      primitive .getItem [v, keyValue] span
    | _ =>
      match ty.classWith? "__getitem__" with
      | some cls =>
        let item ← singleIndex items span cls.name
        callMethod v cls "__getitem__" [← item.value none] span
      | none => fail (.type span (.notSubscriptable (.ofType ty)))
  | other => fail (.type span (.notSubscriptable (.ofKind other.kind)))

end Flowgraph.Lower
