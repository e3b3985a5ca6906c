import Stylebook.Number.Binary64

/-! Numbers as they are written: 32-bit integers and decimal fractions with an exponent. -/
namespace Stylebook.Numeral

def digitsValue (ds : List Char) : Nat :=
  ds.foldl (fun n d => 10 * n + (d.toNat - '0'.toNat)) 0

/-- Whether a sign stands in front, and what follows it. Without a sign the number is positive. -/
def splitSign : List Char → Bool × List Char
  | '-' :: rest => (true, rest)
  | '+' :: rest => (false, rest)
  | rest => (false, rest)

/-- An integer of 32 bits: an optional sign and at least one digit, nothing else. -/
def int32? (text : List Char) : Option Int32 :=
  let (negative, ds) := splitSign text
  if ds.isEmpty || !ds.all Char.isDigit then none
  else
    let value : Int := if negative then -(digitsValue ds : Int) else digitsValue ds
    if Int32.minValue.toInt ≤ value ∧ value ≤ Int32.maxValue.toInt then some (Int32.ofInt value) else none

/-- The power of ten after the fraction: absent, or `e` with an optional sign and digits. -/
def exponent? : List Char → Option Int
  | [] => some 0
  | c :: rest =>
    let (negative, ds) := splitSign rest
    if (c == 'e' || c == 'E') && !ds.isEmpty && ds.all Char.isDigit then
      some (if negative then -(digitsValue ds : Int) else digitsValue ds)
    else none

/-- The names of the values that digits cannot write, in any case. -/
def namedMagnitude? (text : List Char) : Option Nat :=
  match String.ofList (text.map Char.toLower) with
  | "inf" | "infinity" => some Binary64.infinityMagnitude
  | "nan" => some Binary64.nanMagnitude
  | _ => none

/-- The part after a decimal point, if there is one, and what follows. -/
def splitFraction : List Char → List Char × List Char
  | '.' :: rest => (rest.takeWhile Char.isDigit, rest.dropWhile Char.isDigit)
  | rest => ([], rest)

/-- A double: an optional sign, then a name, or digits with an optional point and exponent. At least
one digit stands beside the point. -/
def binary64? (text : List Char) : Option Binary64 :=
  let (negative, body) := splitSign text
  match namedMagnitude? body with
  | some magnitude => some (.ofMagnitude negative magnitude)
  | none =>
    let whole := body.takeWhile Char.isDigit
    let (fraction, rest) := splitFraction (body.dropWhile Char.isDigit)
    if whole.isEmpty && fraction.isEmpty then none
    else (exponent? rest).map fun power =>
      .ofDecimal negative (digitsValue (whole ++ fraction)) (power - fraction.length)

end Stylebook.Numeral
