/-! Doubles held as bit patterns, and the correctly rounded double of an exact ratio or decimal. -/
namespace Stylebook

/-- A double given by its IEEE-754 bit pattern, so that equality tells signed zeros apart. -/
structure Binary64 where
  bits : UInt64
  deriving DecidableEq

namespace Binary64

def zero : Binary64 := ⟨0⟩

instance : Inhabited Binary64 := ⟨zero⟩

/-- The pattern of positive infinity. Magnitudes above it are NaNs. -/
def infinityMagnitude : Nat := 0x7ff0000000000000

def nanMagnitude : Nat := 0x7ff8000000000000

def signBit : Nat := 0x8000000000000000

/-- The unit of the exponent's place, which is also the leading bit that a significand leaves out. -/
def hiddenBit : Nat := 0x10000000000000

def tenTo (n : Nat) : Nat := Nat.pow 10 n

/-- The bit pattern without the sign bit. -/
def magnitude (x : Binary64) : Nat := x.bits.toNat % signBit

def isNegative (x : Binary64) : Bool := signBit ≤ x.bits.toNat

def isFinite (x : Binary64) : Bool := x.magnitude < infinityMagnitude

def isInfinite (x : Binary64) : Bool := x.magnitude == infinityMagnitude

def ofMagnitude (negative : Bool) (magnitude : Nat) : Binary64 :=
  ⟨UInt64.ofNat (if negative then signBit + magnitude else magnitude)⟩

/-- A quotient rounded to the nearest natural number, a half to the even neighbour. -/
def roundQuotient (num den : Nat) : Nat :=
  let q := num / den
  let r := num % den
  if 2 * r < den ∨ (2 * r = den ∧ q % 2 = 0) then q else q + 1

/-- The magnitude of the double nearest to `num / den`, for positive `num` and `den`.

The exponent `e` is chosen so that the quotient by `2 ^ e` has 53 bits, or is the least exponent there
is. Adding the rounded significand to the exponent's place then also carries into the next exponent. -/
def magnitudeOfRatio (num den : Nat) : Nat :=
  let k : Int := (num.log2 : Int) - (den.log2 : Int)
  let below := num <<< (-k).toNat < den <<< k.toNat
  let e : Int := max (if below then k - 53 else k - 52) (-1074)
  let q := roundQuotient (num <<< (-e).toNat) (den <<< e.toNat)
  min ((e + 1074).toNat * hiddenBit + q) infinityMagnitude

/-- The number of decimal digits of a natural number; one for zero. -/
def decimalLength (n : Nat) : Nat := (Nat.toDigits 10 n).length

/-- The double nearest to `± digits · 10 ^ scale`. Values past the range of doubles are settled by
their length alone. -/
def ofDecimal (negative : Bool) (digits : Nat) (scale : Int) : Binary64 :=
  let top : Int := decimalLength digits + scale
  ofMagnitude negative <|
    if digits = 0 ∨ top < -330 then 0
    else if 310 < top then infinityMagnitude
    else magnitudeOfRatio (digits * tenTo scale.toNat) (tenTo (-scale).toNat)

end Binary64

end Stylebook
