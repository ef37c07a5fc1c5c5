import Flowgraph.Binary64.Text
import Flowgraph.Json.Basic

/-!
# Writing JSON texts

A floating-point number is written as a string, so that a reader gets its digits as they stand.
-/

namespace Flowgraph.Json

/-- A number in four hexadecimal digits. -/
def hexText (unit : Nat) : String :=
  let digits := Nat.toDigits 16 unit
  String.ofList (List.replicate (4 - digits.length) '0' ++ digits)

def escaped (c : Char) : String :=
  if c = '"' then "\\\""
  else if c = '\\' then "\\\\"
  else if c.toNat < 0x20 then "\\u" ++ hexText c.toNat
  else c.toString

def quoted (text : String) : String :=
  "\"" ++ String.join (text.toList.map escaped) ++ "\""

mutual

def render : Json → String
  | .null => "null"
  | .bool true => "true"
  | .bool false => "false"
  | .int value => toString value
  | .float value => quoted value.render
  | .str value => quoted value
  | .arr items => "[" ++ ",".intercalate (renderItems items) ++ "]"
  | .obj fields => "\x7b" ++ ",".intercalate (renderFields fields) ++ "\x7d"

def renderItems : List Json → List String
  | [] => []
  | item :: rest => item.render :: renderItems rest

def renderFields : List (String × Json) → List String
  | [] => []
  | (name, value) :: rest => (quoted name ++ ":" ++ value.render) :: renderFields rest

end

end Flowgraph.Json
