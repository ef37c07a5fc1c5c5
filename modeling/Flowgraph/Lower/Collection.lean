import Flowgraph.Lower.Loop

/-!
# Collections

Literals of lists, tuples and dicts, and list comprehensions.  The elements of a list have one
common type: the one that is expected, or else the join of the types of the elements.
-/

namespace Flowgraph.Lower

/-- The values of an element of a literal: a starred tuple gives several. -/
def element (hint : Option Ty) (item : Item) : Lower (List ValueId) := do
  match item.form with
  | .starred inner =>
    let entity ← inner.entity
    match ← expand? entity item.span none with
    | some elems => return elems
    | none => fail (.type item.span (.starredElement (← describe entity)))
  | _ => return [← item.value hint]

def elements (hint : Option Ty) (items : List Item) : Lower (List ValueId) :=
  return (← items.mapM (element hint)).flatten

/-- The join of a type with that of one more value. -/
def joinType (what : String) (span : Span) (joined : Option Ty) (v : ValueId) :
    Lower (Option Ty) := do
  let ty ← typeOf v
  match joined with
  | none => return some ty
  | some previous =>
    match Ty.join previous ty with
    | some ty => return some ty
    | none => fail (.type span (.mixedElements what previous ty))

/-- The join of the types of some values, `none` if there are no values. -/
def commonType? (what : String) (span : Span) (values : List ValueId) : Lower (Option Ty) :=
  values.foldlM (joinType what span) none

/-- Values brought to an expected type, or to the type that they have in common. -/
def unified (values : List ValueId) (hint : Option Ty) (default : Ty) (what : String) (role : Role)
    (span : Span) : Lower (List ValueId × Ty) := do
  match hint with
  | some ty => return (← values.mapM fun v => coerce v ty span role, ty)
  | none => return (values, ((← commonType? what span values).getD default))

/-- The type of the elements of an expected list. -/
def elementHint? : Option Ty → Option Ty
  | some (.list elem) => some elem
  | _ => none

def listLiteral (span : Span) (items : List Item) (hint : Option Ty) : Lower ValueId := do
  let values ← elements (elementHint? hint) items
  let (values, ty) ← unified values (elementHint? hint) .tensor "Lists" .listElement span
  build (Build.insertValue .listConstruct values (.list ty) span)

/-- Elements that are lowered towards a type each. -/
def hintedElements : List Item → List Ty → Lower (List ValueId)
  | item :: items, ty :: types => do
    let v ← item.value (some ty)
    let converted ← tryConvert v item.span ty
    return converted :: (← hintedElements items types)
  | _, _ => return []

def tupleLiteral (span : Span) (items : List Item) (hint : Option Ty) : Lower ValueId := do
  let values ←
    match hint with
    | some (.tuple types) =>
      if types.length = items.length && !items.any fun item => item.expr.isStarred then
        hintedElements items types
      else elements none items
    | _ => elements none items
  tuple values span

/-- The entries of a dict literal, keys before their values. -/
def dictEntries (keyHint valueHint : Option Ty) :
    List (Operand × Operand) → Lower (List ValueId × List ValueId)
  | [] => return ([], [])
  | (key, value) :: rest => do
    let key ← key.value keyHint
    let value ← value.value valueHint
    let (keys, values) ← dictEntries keyHint valueHint rest
    return (key :: keys, value :: values)

def isKeyType : Ty → Bool
  | .int | .float | .str => true
  | ty => ty.isTensor

def dictLiteral (span : Span) (entries : List (Operand × Operand)) (hint : Option Ty) :
    Lower ValueId := do
  let (keyHint, valueHint) :=
    match hint with
    | some (.dict key value) => (some key, some value)
    | _ => (none, none)
  let (keys, values) ← dictEntries keyHint valueHint entries
  let (keys, keyType) ← unified keys keyHint .str "Dict keys" .dictKey span
  let (values, valueType) ← unified values valueHint .tensor "Dict values" .dictValue span
  if !isKeyType keyType then fail (.type span (.dictKeyType keyType))
  let inputs := (keys.zip values).flatMap fun pair => [pair.1, pair.2]
  build (Build.insertValue .dictConstruct inputs (.dict keyType valueType) span)

/-- The element that one iteration of a comprehension appends.  Without an expected type, the type
of the list follows from its element. -/
def comprehensionElement (list : ValueId) (elem : Operand) (hint : Option Ty) :
    Lower ValueId := do
  let v ← elem.value hint
  match hint with
  | some ty => coerce v ty elem.span .comprehensionElement
  | none =>
    let ty ← typeOf v
    build (Build.update fun graph => graph.setType list (.list ty))
    return v

/-- `[elem for target in iter]`: a loop that appends to a new list. -/
def comprehension (span : Span) (elem : Operand) (target : Target) (iter : Operand)
    (hint : Option Ty) : Lower ValueId := do
  let elemHint := elementHint? hint
  let list ← build (Build.insertValue .listConstruct [] (.list (elemHint.getD .tensor)) span)
  let iterable ← iter.entity
  if ← isTuple iterable then fail (.unsupported iter.span .tupleComprehension)
  let iterable ← prepareIterable iterable iter.span
  let trip ← length span iterable
  loop (some trip) none span fun counter => do
    let current ← item span counter iterable
    target.assign (.value current) span
    let v ← comprehensionElement list elem elemHint
    let _ ← primitive .append [list, v] span
  return list

end Flowgraph.Lower
