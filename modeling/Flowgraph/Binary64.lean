/-!
# Double-precision numbers

A `Binary64` is an IEEE 754 double, held as its 64 bits: one sign bit, eleven exponent bits and
52 fraction bits.  Two doubles are the same value of this type exactly when their bits are the
same, which is how constants are pooled; `equals` is the comparison of the standard, under which
a NaN differs from itself and the two zeros agree.
-/

namespace Flowgraph

structure Binary64 where
  bits : UInt64
  deriving DecidableEq, Repr, Inhabited

namespace Binary64

/-- The number of fractions, `2 ^ 52`; also the leading bit of a significand. -/
def leadingBit : Nat := 0x10000000000000

/-- The sign bit, `2 ^ 63`. -/
def signBit : Nat := 0x8000000000000000

/-- The bits of positive infinity, which no finite double reaches. -/
def infinityBits : Nat := 2047 * leadingBit

def infinity : Binary64 := ⟨UInt64.ofNat infinityBits⟩

def nan : Binary64 := ⟨UInt64.ofNat (infinityBits + leadingBit / 2)⟩

def isNegative (x : Binary64) : Bool :=
  x.bits.toNat ≥ signBit

/-- The bits without the sign. -/
def magnitude (x : Binary64) : Nat :=
  x.bits.toNat % signBit

def isNaN (x : Binary64) : Bool :=
  x.magnitude > infinityBits

def isInfinite (x : Binary64) : Bool :=
  x.magnitude = infinityBits

def isFinite (x : Binary64) : Bool :=
  x.magnitude < infinityBits

def isZero (x : Binary64) : Bool :=
  x.magnitude = 0

/-- Change the sign; the sign bit of a NaN changes too. -/
def negate (x : Binary64) : Binary64 :=
  ⟨x.bits ^^^ 0x8000000000000000⟩

/-- Equality of the standard: a NaN equals nothing, and the two zeros are equal. -/
def equals (x y : Binary64) : Bool :=
  !x.isNaN && !y.isNaN && (x.bits = y.bits || (x.isZero && y.isZero))

/-- The significand and the exponent of two of a finite double: its absolute value is
`significand * 2 ^ exponent`. -/
def decompose (x : Binary64) : Nat × Int :=
  let exponentField : Nat := x.magnitude / leadingBit
  let fraction : Nat := x.magnitude % leadingBit
  if exponentField = 0 then (fraction, -1074)
  else (leadingBit + fraction, (exponentField : Int) - 1075)

/-! ## Rounding a quotient -/

/-- `num / den` to the nearest natural number, a tie to the even one. -/
def roundDiv (num den : Nat) : Nat :=
  let quotient := num / den
  let twice := 2 * (num % den)
  if twice > den ∨ (twice = den ∧ quotient % 2 = 1) then quotient + 1 else quotient

/-- The exponent of two under which `num / den` has 53 bits, or the least exponent of a double. -/
def exponentOf (num den : Nat) : Int :=
  let estimate : Int := (num.log2 : Int) - (den.log2 : Int) - 52
  -- The quotient of the logarithms may be one too large.
  let tooLarge :=
    if estimate ≥ 0 then num < den * Nat.pow 2 (52 + estimate.toNat)
    else num * Nat.pow 2 (-estimate).toNat < den * leadingBit
  max (-1074) (if tooLarge then estimate - 1 else estimate)

/-- The double nearest to `num / den`, a tie going to the even significand; infinity if it is too
large.  A significand that rounds up to 54 bits carries into the exponent by itself. -/
def ofRatio (num den : Nat) : Binary64 :=
  if num = 0 then ⟨0⟩
  else
    let exponent := exponentOf num den
    let significand :=
      if exponent ≥ 0 then roundDiv num (den * Nat.pow 2 exponent.toNat)
      else roundDiv (num * Nat.pow 2 (-exponent).toNat) den
    let bits := (exponent + 1074).toNat * leadingBit + significand
    if bits ≥ infinityBits then infinity else ⟨UInt64.ofNat bits⟩

/-- Read `digits * 10 ^ exponent`.  Exponents that leave the range of doubles by far are decided
without computing the power. -/
def ofDecimal (negative : Bool) (digits : Nat) (exponent : Int) : Binary64 :=
  let size : Int := (digits.log2 : Int)
  let absolute :=
    if digits = 0 ∨ size / 3 + 1 + exponent < -400 then ⟨0⟩
    else if size / 4 + exponent > 400 then infinity
    else if exponent ≥ 0 then ofRatio (digits * Nat.pow 10 exponent.toNat) 1
    else ofRatio digits (Nat.pow 10 (-exponent).toNat)
  if negative then absolute.negate else absolute

/-- The double nearest to an integer. -/
def ofInt (n : Int) : Binary64 :=
  ofDecimal (n < 0) n.natAbs 0

end Binary64

end Flowgraph
