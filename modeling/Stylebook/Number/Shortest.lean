import Stylebook.Number.Binary64

/-! The fewest decimal digits that still round to a given double, and the layouts they are written in. -/
namespace Stylebook

/-- Where the value lies exactly between two decimals of the fewest digits. -/
inductive Tie
  | up
  | even
  deriving DecidableEq

/-- The value `digits · 10 ^ exponent`. -/
structure Decimal where
  digits : Nat
  exponent : Int
  deriving DecidableEq

namespace Binary64

/-- The significand `m` and exponent `q` of a finite double `m · 2 ^ q`. -/
def significand (x : Binary64) : Nat × Int :=
  let e : Nat := x.magnitude / hiddenBit
  let f : Nat := x.magnitude % hiddenBit
  if e = 0 then (f, -1074) else (f + hiddenBit, (e : Int) - 1075)

/-- The reals that round to a double, in quarters of its last place: `value` lies between `low` and
`high`, which belong to the interval when `closed`. All are multiplied by `num / den`. -/
structure Interval where
  value : Nat
  low : Nat
  high : Nat
  closed : Bool
  num : Nat
  den : Nat

/-- Below a power of two the neighbour is only half as far away. -/
def interval (x : Binary64) : Interval :=
  let (m, q) := x.significand
  let low := if m = hiddenBit ∧ q ≠ -1074 then 4 * m - 1 else 4 * m - 2
  { value := 4 * m, low, high := 4 * m + 2, closed := m % 2 == 0
    num := 1 <<< (q - 2).toNat, den := 1 <<< (2 - q).toNat }

namespace Interval

/-- Whether `d · 10 ^ s` rounds to the value. -/
def contains (i : Interval) (d : Nat) (s : Int) : Bool :=
  let scaled := d * tenTo s.toNat * i.den
  let low := i.low * i.num * tenTo (-s).toNat
  let high := i.high * i.num * tenTo (-s).toNat
  (low < scaled && scaled < high) || (i.closed && (low == scaled || scaled == high))

/-- The power of ten just above the value: `10 ^ (k - 1) ≤ value < 10 ^ k`. -/
def power (i : Interval) : Int :=
  let n := i.value * i.num
  if i.den ≤ n then decimalLength (n / i.den)
  else 1 - (decimalLength ((i.den - 1) / n) : Int)

/-- The multiple of `10 ^ s` inside the interval that is nearest to the value, if there is one. -/
def nearest? (tie : Tie) (i : Interval) (s : Int) : Option Nat :=
  let n := i.value * i.num * tenTo (-s).toNat
  let unit := i.den * tenTo s.toNat
  let d := n / unit
  match i.contains d s, i.contains (d + 1) s with
  | true, false => some d
  | false, true => some (d + 1)
  | false, false => none
  | true, true =>
    match compare (2 * n) ((2 * d + 1) * unit) with
    | .lt => some d
    | .gt => some (d + 1)
    | .eq => some (if tie = .even ∧ d % 2 = 0 then d else d + 1)

end Interval

/-- Seventeen digits always suffice, so the search ends there. -/
def shortest (tie : Tie) (x : Binary64) : Decimal :=
  let i := x.interval
  let k := i.power
  let found := (List.range 17).findSome? fun n =>
    let s := k - (n + 1 : Nat)
    (i.nearest? tie s).map fun d => (⟨d, s⟩ : Decimal)
  found.getD ⟨0, 0⟩

end Binary64

/-- How a decimal is laid out. Numbers whose leading digit stands for a power of ten between `least`
and `most` are written positionally, all others with an exponent. -/
structure Layout where
  tie : Tie
  least : Option Int
  most : Option Int
  /-- Whether a whole number is followed by `.0`. -/
  pointZero : Bool
  /-- Whether a positive exponent carries its sign. -/
  plusSign : Bool

namespace Layout

def zeros (n : Nat) : List Char := List.replicate n '0'

/-- Digits `ds` with the decimal point after the first `point` of them. -/
def positional (layout : Layout) (ds : List Char) (point : Int) : List Char :=
  if point ≤ 0 then '0' :: '.' :: zeros (-point).toNat ++ ds
  else if (ds.length : Int) ≤ point then
    ds ++ zeros (point.toNat - ds.length) ++ (if layout.pointZero then ['.', '0'] else [])
  else ds.take point.toNat ++ '.' :: ds.drop point.toNat

def scientific (layout : Layout) (ds : List Char) (power : Int) : List Char :=
  let fraction := ds.drop 1
  ds.take 1 ++ (if fraction.isEmpty then [] else '.' :: fraction) ++ 'e' ::
    (if power < 0 then ['-'] else if layout.plusSign then ['+'] else []) ++ Nat.toDigits 10 power.natAbs

/-- The digits of a positive number without trailing zeros, which the point takes over. -/
def strip (ds : List Char) : List Char := (ds.reverse.dropWhile (· == '0')).reverse

def decimal (layout : Layout) (d : Decimal) : List Char :=
  let all := Nat.toDigits 10 d.digits
  let point : Int := all.length + d.exponent
  let ds := strip all
  if layout.least.all (· ≤ point - 1) && layout.most.all (point - 1 ≤ ·) then layout.positional ds point
  else layout.scientific ds (point - 1)

/-- The text of a double. -/
def render (layout : Layout) (x : Binary64) : String :=
  let sign := if x.isNegative then ['-'] else []
  if x.isFinite then
    if x.magnitude = 0 then String.ofList (sign ++ layout.positional ['0'] 1)
    else String.ofList (sign ++ layout.decimal (x.shortest layout.tie))
  else if x.isInfinite then String.ofList (sign ++ ['i', 'n', 'f'])
  else "NaN"

end Layout

end Stylebook
