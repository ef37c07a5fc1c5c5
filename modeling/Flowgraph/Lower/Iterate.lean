import Flowgraph.Lower.Member

/-!
# Iterables

How many elements an iterable has, and its element at a position, as values of the graph.
-/

namespace Flowgraph.Lower

/-- The start and the step of a range, zero and one unless they are given. -/
def rangeParts (start step : Option ValueId) : Lower (ValueId × ValueId) := do
  let start ← start.getDM (build (Build.int 0))
  let step ← step.getDM (build (Build.int 1))
  return (start, step)

/-- The element of a value at a position. -/
def itemOfValue (v : ValueId) (span : Span) (position : ValueId) : Lower ValueId := do
  let ty ← typeOf v
  match ty with
  | .list _ | .str => primitive .getItem [v, position] span
  | _ =>
    if ty.isTensor then
      let dim ← build (Build.int 0)
      primitive .select [v, dim, position] span
    else fail (.type span (.notIterable (.ofType ty)))

mutual

/-- The element of an iterable at a position. -/
def item (span : Span) (position : ValueId) : Entity → Lower ValueId
  | .value v => itemOfValue v span position
  | .range none _ none => return position
  | .range start _ step => do
    let (start, step) ← rangeParts start step
    primitive .deriveIndex [position, start, step] span
  | .zip items => do tuple (← itemsAt span position items) span
  | .enumerate inner => do
    let elem ← item span position inner
    tuple [position, elem] span
  | other => fail (.type span (.kindNotIterable other.kind))

def itemsAt (span : Span) (position : ValueId) : List Entity → Lower (List ValueId)
  | [] => return []
  | entity :: rest => do
    let elem ← item span position entity
    return elem :: (← itemsAt span position rest)

end

/-- The number of elements of a value. -/
def lengthOfValue (v : ValueId) (span : Span) : Lower ValueId := do
  let ty ← typeOf v
  match ty with
  | .tuple elems => build (Build.int (Int64.ofNat elems.length))
  | .list _ | .str | .dict _ _ => primitive .len [v] span
  | _ =>
    match ty.classWith? "__len__" with
    | some cls => callMethod v cls "__len__" [] span
    | none =>
      if ty.isTensor then primitive .len [v] span
      else fail (.type span (.noLength ty))

mutual

/-- The number of elements of an iterable; the shortest part decides for `zip`. -/
def length (span : Span) : Entity → Lower ValueId
  | .value v => lengthOfValue v span
  | .range none stop none => return stop
  | .range start stop step => do
    let (start, step) ← rangeParts start step
    primitive .rangeLength [start, stop, step] span
  | .zip items => do
    match ← shortest span none items with
    | some count => return count
    | none => fail (.shape span .zipArity)
  | .enumerate inner => length span inner
  | other => fail (.type span (.kindNoLength other.kind))

/-- The least of a length and those of some iterables. -/
def shortest (span : Span) (least : Option ValueId) : List Entity → Lower (Option ValueId)
  | [] => return least
  | entity :: rest => do
    let count ← length span entity
    let least ←
      match least with
      | some previous => primitive .min [previous, count] span
      | none => pure count
    shortest span (some least) rest

end

/-- What a loop runs over: a dict stands for its keys. -/
def prepareIterable (entity : Entity) (span : Span) : Lower Entity := do
  match entity with
  | .value v =>
    let ty ← typeOf v
    match ty with
    | .dict _ _ => return .value (← primitive .keys [v] span)
    | .list _ | .str => return entity
    | _ => if ty.isTensor then return entity else fail (.type span (.notIterable (.ofType ty)))
  | .range .. | .zip _ | .enumerate _ => return entity
  | other => fail (.type span (.notIterable (.ofKind other.kind)))

/-- Whether an entity is a value of tuple type. -/
def isTuple (entity : Entity) : Lower Bool := do
  match entity with
  | .value v => return (← typeOf v).isTuple
  | _ => return false

end Flowgraph.Lower
