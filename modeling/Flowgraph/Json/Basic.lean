import Flowgraph.Binary64

/-!
# JSON values

The tree of a JSON text.  Integers and floating-point numbers are told apart by how they are
written: a number with a fraction or an exponent is not an integer.

Encoded records and variants follow one convention.  A record is an object; an array that lists
its fields in order is read as well.  A variant is an object with its tag as the only key, or just
the tag if it carries nothing; if it carries several named parts, they are an object and never an
array.
-/

namespace Flowgraph

inductive Json where
  | null
  | bool (value : Bool)
  | int (value : Int)
  | float (value : Binary64)
  | str (value : String)
  | arr (items : List Json)
  | obj (fields : List (String × Json))
  deriving Repr, Inhabited

namespace Json

mutual

/-- How deep arrays and objects are nested, counting the value itself. -/
def depth : Json → Nat
  | .arr items => depthOfItems items + 1
  | .obj fields => depthOfFields fields + 1
  | _ => 1

def depthOfItems : List Json → Nat
  | [] => 0
  | item :: rest => max item.depth (depthOfItems rest)

def depthOfFields : List (String × Json) → Nat
  | [] => 0
  | (_, value) :: rest => max value.depth (depthOfFields rest)

end

/-! ## Reading values -/

def asInt? : Json → Option Int
  | .int value => some value
  | _ => none

def asStr? : Json → Option String
  | .str value => some value
  | _ => none

def asBool? : Json → Option Bool
  | .bool value => some value
  | _ => none

/-- A number; an integer is converted. -/
def asFloat? : Json → Option Binary64
  | .int value => some (.ofInt value)
  | .float value => some value
  | _ => none

/-- A number, or the name of one that JSON cannot write. -/
def asDouble? : Json → Option Binary64
  | .str "nan" => some .nan
  | .str "inf" => some .infinity
  | .str "-inf" => some Binary64.infinity.negate
  | json => json.asFloat?

def asItems? : Json → Option (List Json)
  | .arr items => some items
  | _ => none

def asPair? : Json → Option (Json × Json)
  | .arr [first, second] => some (first, second)
  | _ => none

/-- An integer in the range of 64 bits with a sign. -/
def asInt64? (json : Json) : Option Int64 := do
  let value ← json.asInt?
  if Int64.minValue.toInt ≤ value ∧ value ≤ Int64.maxValue.toInt then some (Int64.ofInt value)
  else none

def asUInt64? (json : Json) : Option UInt64 := do
  let value ← json.asInt?
  if 0 ≤ value ∧ value.toNat < UInt64.size then some (UInt64.ofNat value.toNat) else none

def asUInt32? (json : Json) : Option UInt32 := do
  let value ← json.asInt?
  if 0 ≤ value ∧ value.toNat < UInt32.size then some (UInt32.ofNat value.toNat) else none

/-- A natural number below `2 ^ 64`. -/
def asNat? (json : Json) : Option Nat :=
  json.asUInt64?.map UInt64.toNat

/-- Every item of an array, decoded. -/
def listOf? {α : Type} (decode : Json → Option α) (json : Json) : Option (List α) := do
  (← json.asItems?).mapM decode

/-- Something that may be left out or null. -/
def optional? {α : Type} (decode : Json → Option α) : Option Json → Option (Option α)
  | none | some .null => some none
  | some json => (decode json).map some

/-- Something that may be left out, but not be null. -/
def defaulted? {α : Type} (decode : Json → Option α) (default : α) : Option Json → Option α
  | none => some default
  | some json => decode json

/-! ## Records and variants -/

def isObject : Json → Bool
  | .obj _ => true
  | _ => false

/-- A field of an object. -/
def field? (json : Json) (name : String) : Option Json :=
  match json with
  | .obj fields => fields.lookup name
  | _ => none

/-- A field of an object that may be left out or null. -/
def optionalField? {α : Type} (json : Json) (name : String) (decode : Json → Option α) :
    Option (Option α) :=
  optional? decode (json.field? name)

/-- The fields of a record, `none` for those that are missing.  An array has to list all of them
but those of the end that have a default. -/
def record? (required withDefault : List String) : Json → Option (List (Option Json))
  | .obj fields => some ((required ++ withDefault).map fun name => fields.lookup name)
  | .arr items =>
    let count := required.length + withDefault.length
    if required.length ≤ items.length ∧ items.length ≤ count then
      some (items.map some ++ List.replicate (count - items.length) none)
    else none
  | _ => none

/-- The named parts that a variant carries, `none` for those that are missing. -/
def parts? (names : List String) : Json → Option (List (Option Json))
  | .obj fields => some (names.map fun name => fields.lookup name)
  | _ => none

/-- The tag of a variant, and what it carries. -/
def variant? : Json → Option (String × Option Json)
  | .str tag => some (tag, none)
  | .obj [(tag, content)] => some (tag, some content)
  | _ => none

/-- The tag of a variant that carries nothing. -/
def tag? (json : Json) : Option String := do
  match ← json.variant? with
  | (tag, none) | (tag, some .null) => some tag
  | _ => none

/-- A floating-point number.  Infinities and NaN are no numbers of JSON; `null` stands for them. -/
def ofBinary64 (value : Binary64) : Json :=
  if value.isFinite then .float value else .null

/-- A variant with what it carries. -/
def tagged (tag : String) (content : Json) : Json :=
  .obj [(tag, content)]

end Json

end Flowgraph
