import Flowgraph.Binary64
import Flowgraph.Decimal.Shortest

/-!
# The text of a double

A double is written with the fewest digits that read back.  Numbers from one ten-thousandth up to
ten to the sixteenth are written out, with a digit on each side of the point; all others in
scientific notation, without a plus sign and without a fraction that is zero.
-/

namespace Flowgraph.Binary64

/-- How the digits of a double are laid out. -/
structure TextLayout where
  /-- Least exponent of the first digit that is written out. -/
  positionalFrom : Int
  /-- Least exponent of the first digit that is too large to be written out. -/
  positionalBelow : Int
  nanText : String
  infinityText : String

def textLayout : TextLayout := ⟨-4, 16, "NaN", "inf"⟩

/-- The digits without their trailing zeros, which move into the exponent. -/
def stripZeros : Nat → Nat × Int → Nat × Int
  | 0, pair => pair
  | fuel + 1, (digits, exponent) =>
    if digits % 10 = 0 ∧ digits ≠ 0 then stripZeros fuel (digits / 10, exponent + 1)
    else (digits, exponent)

/-- Digits of which `before` stand before the point. -/
def positional (digits : List Char) (before : Int) : List Char :=
  if before ≤ 0 then
    '0' :: '.' :: (List.replicate (-before).toNat '0' ++ digits)
  else if before ≥ digits.length then
    digits ++ List.replicate (before.toNat - digits.length) '0' ++ ['.', '0']
  else digits.take before.toNat ++ '.' :: digits.drop before.toNat

def scientific (digits : List Char) (exponent : Int) : List Char :=
  let fraction := digits.drop 1
  let point := if fraction.isEmpty then [] else '.' :: fraction
  digits.take 1 ++ point ++ 'e' :: (toString exponent).toList

/-- The text of a positive finite double. -/
def finiteText (significand : Nat) (exponent : Int) : List Char :=
  let (number, last) := stripZeros 20 (Decimal.shortest significand exponent)
  let digits := Nat.toDigits 10 number
  let leading := last + digits.length - 1
  if textLayout.positionalFrom ≤ leading ∧ leading < textLayout.positionalBelow then
    positional digits (leading + 1)
  else scientific digits leading

def render (x : Binary64) : String :=
  if x.isNaN then textLayout.nanText
  else
    let absolute :=
      if x.isInfinite then textLayout.infinityText
      else if x.isZero then "0.0"
      else String.ofList (finiteText x.decompose.1 x.decompose.2)
    if x.isNegative then "-" ++ absolute else absolute

end Flowgraph.Binary64
