import Flowgraph.Json.Basic

/-!
# Reading JSON texts

`Json.read?` reads a whole text as one value.  It follows the grammar strictly: no leading zeros,
no trailing commas, no control characters or lone surrogates in strings.  Integers that fit into
64 bits, with or without a sign, are kept as integers; any other number becomes the nearest double
and has to be finite.  Of two fields with one name the last one stays.
-/

namespace Flowgraph.Json

def isSpace (c : Char) : Bool :=
  c = ' ' || c = '\t' || c = '\n' || c = '\r'

def skipSpace (text : List Char) : List Char :=
  text.dropWhile isSpace

/-! ## Numbers -/

/-- The digits that a text starts with, and the rest. -/
def takeDigits (text : List Char) : List Char × List Char :=
  (text.takeWhile Char.isDigit, text.dropWhile Char.isDigit)

def digitsValue (digits : List Char) : Nat :=
  digits.foldl (fun value c => value * 10 + (c.toNat - '0'.toNat)) 0

/-- Digits after a mark, at least one; `none` in the answer if the mark is missing. -/
def fraction? (text : List Char) : Option (Option (List Char) × List Char) :=
  match text with
  | '.' :: rest =>
    match takeDigits rest with
    | ([], _) => none
    | (digits, rest) => some (some digits, rest)
  | _ => some (none, text)

def exponentDigits? (negative : Bool) (text : List Char) : Option (Option Int × List Char) :=
  match takeDigits text with
  | ([], _) => none
  | (digits, rest) =>
    let value : Int := (digitsValue digits : Int)
    some (some (if negative then -value else value), rest)

def exponent? (text : List Char) : Option (Option Int × List Char) :=
  match text with
  | 'e' :: '+' :: rest | 'E' :: '+' :: rest => exponentDigits? false rest
  | 'e' :: '-' :: rest | 'E' :: '-' :: rest => exponentDigits? true rest
  | 'e' :: rest | 'E' :: rest => exponentDigits? false rest
  | _ => some (none, text)

/-- A double, if it is finite. -/
def finite? (value : Binary64) : Option Json :=
  if value.isInfinite then none else some (.float value)

/-- The value of an integer as it is written.  Zero with a sign is a double. -/
def integer? (negative : Bool) (magnitude : Nat) : Option Json :=
  if negative then
    if 0 < magnitude ∧ 2 * magnitude ≤ UInt64.size then some (.int (-magnitude))
    else finite? (.ofDecimal true magnitude 0)
  else if magnitude < UInt64.size then some (.int magnitude)
  else finite? (.ofDecimal false magnitude 0)

def unsigned? (negative : Bool) (text : List Char) : Option (Json × List Char) := do
  let (whole, rest) := takeDigits text
  match whole with
  | [] => none
  | '0' :: _ :: _ => none
  | _ =>
    let (fraction, rest) ← fraction? rest
    let (exponent, rest) ← exponent? rest
    let number ←
      match fraction, exponent with
      | none, none => integer? negative (digitsValue whole)
      | _, _ =>
        let decimals := fraction.getD []
        finite? (.ofDecimal negative (digitsValue (whole ++ decimals))
          (exponent.getD 0 - decimals.length))
    some (number, rest)

def number? (text : List Char) : Option (Json × List Char) :=
  match text with
  | '-' :: rest => unsigned? true rest
  | _ => unsigned? false text

/-! ## Strings -/

def hexDigit? (c : Char) : Option Nat :=
  if c.isDigit then some (c.toNat - '0'.toNat)
  else if 'a' ≤ c ∧ c ≤ 'f' then some (c.toNat - 'a'.toNat + 10)
  else if 'A' ≤ c ∧ c ≤ 'F' then some (c.toNat - 'A'.toNat + 10)
  else none

def hexValue? (digits : List Char) : Option Nat :=
  digits.foldlM (fun value c => do return value * 16 + (← hexDigit? c)) 0

/-- The character of an escape of one letter. -/
def shortEscape? : Char → Option Char
  | '"' => some '"'
  | '\\' => some '\\'
  | '/' => some '/'
  | 'b' => some '\x08'
  | 'f' => some '\x0c'
  | 'n' => some '\n'
  | 'r' => some '\r'
  | 't' => some '\t'
  | _ => none

def isHighSurrogate (unit : Nat) : Bool := 0xD800 ≤ unit && unit < 0xDC00

def isLowSurrogate (unit : Nat) : Bool := 0xDC00 ≤ unit && unit < 0xE000

/-- The character of two surrogates. -/
def pairChar (high low : Nat) : Char :=
  Char.ofNat (0x10000 + (high - 0xD800) * 0x400 + (low - 0xDC00))

/-- The characters of a string up to its closing quote, and the rest. -/
def string? : List Char → Option (List Char × List Char)
  | [] => none
  | '"' :: rest => some ([], rest)
  | '\\' :: 'u' :: a :: b :: c :: d :: rest => do
    let unit ← hexValue? [a, b, c, d]
    if isHighSurrogate unit then
      match rest with
      | '\\' :: 'u' :: e :: f :: g :: h :: rest => do
        let low ← hexValue? [e, f, g, h]
        if isLowSurrogate low then
          let (text, rest) ← string? rest
          some (pairChar unit low :: text, rest)
        else none
      | _ => none
    else if isLowSurrogate unit then none
    else
      let (text, rest) ← string? rest
      some (Char.ofNat unit :: text, rest)
  | '\\' :: escape :: rest => do
    let c ← shortEscape? escape
    let (text, rest) ← string? rest
    some (c :: text, rest)
  | c :: rest => do
    if c.toNat < 0x20 then none
    else
      let (text, rest) ← string? rest
      some (c :: text, rest)

/-! ## Values -/

/-- Set a field, replacing one of the same name. -/
def setField (fields : List (String × Json)) (name : String) (value : Json) :
    List (String × Json) :=
  match fields with
  | [] => [(name, value)]
  | (key, old) :: rest =>
    if key = name then (name, value) :: rest else (key, old) :: setField rest name value

/-- The fields of an object, each name once. -/
def uniqueFields (fields : List (String × Json)) : List (String × Json) :=
  fields.foldl (fun unique field => setField unique field.1 field.2) []

mutual

/-- A value and the rest of the text; `fuel` bounds the steps. -/
def value? : Nat → List Char → Option (Json × List Char)
  | 0, _ => none
  | fuel + 1, text =>
    match skipSpace text with
    | 'n' :: 'u' :: 'l' :: 'l' :: rest => some (.null, rest)
    | 't' :: 'r' :: 'u' :: 'e' :: rest => some (.bool true, rest)
    | 'f' :: 'a' :: 'l' :: 's' :: 'e' :: rest => some (.bool false, rest)
    | '"' :: rest => do
      let (text, rest) ← string? rest
      some (.str (String.ofList text), rest)
    | '[' :: rest =>
      match skipSpace rest with
      | ']' :: rest => some (.arr [], rest)
      | rest => do
        let (items, rest) ← items? fuel rest
        some (.arr items, rest)
    | '\x7b' :: rest =>
      match skipSpace rest with
      | '\x7d' :: rest => some (.obj [], rest)
      | rest => do
        let (fields, rest) ← fields? fuel rest
        some (.obj (uniqueFields fields), rest)
    | rest => number? rest

/-- The items of an array up to its closing bracket. -/
def items? : Nat → List Char → Option (List Json × List Char)
  | 0, _ => none
  | fuel + 1, text => do
    let (item, rest) ← value? fuel text
    match skipSpace rest with
    | ']' :: rest => some ([item], rest)
    | ',' :: rest => do
      let (items, rest) ← items? fuel rest
      some (item :: items, rest)
    | _ => none

/-- The fields of an object up to its closing brace. -/
def fields? : Nat → List Char → Option (List (String × Json) × List Char)
  | 0, _ => none
  | fuel + 1, text => do
    match skipSpace text with
    | '"' :: rest => do
      let (name, rest) ← string? rest
      match skipSpace rest with
      | ':' :: rest => do
        let (value, rest) ← value? fuel rest
        let field := (String.ofList name, value)
        match skipSpace rest with
        | '\x7d' :: rest => some ([field], rest)
        | ',' :: rest => do
          let (fields, rest) ← fields? fuel rest
          some (field :: fields, rest)
        | _ => none
      | _ => none
    | _ => none

end

/-- Read a text as one value with nothing but blanks around it.  Every second step takes a
character away, which bounds them. -/
def read? (text : String) : Option Json := do
  let chars := text.toList
  let (json, rest) ← value? (2 * chars.length + 2) chars
  if (skipSpace rest).isEmpty then some json else none

end Flowgraph.Json
