import Stylebook.Number.Numeral
import Stylebook.Text.Blank

/-! Arithmetic progressions of sibling positions: `step · k + offset` for `k = 0, 1, …`. -/
namespace Stylebook

structure NthChild where
  step : Int32
  offset : Int32
  deriving DecidableEq

namespace NthChild

/-- By the step, then by the offset. -/
def lt (a b : NthChild) : Bool :=
  a.step.toInt < b.step.toInt || (a.step == b.step && a.offset.toInt < b.offset.toInt)

/-- The step: `n` alone, with a sign, or with a number. -/
def coefficient? (text : List Char) : Option Int32 :=
  match text with
  | [] => some 1
  | ['+'] => some 1
  | ['-'] => some (-1)
  | _ => Numeral.int32? text

/-- The offset: nothing, or a number with its sign. -/
def constant? (text : List Char) : Option Int32 :=
  match text with
  | [] => some 0
  | c :: _ => if c = '+' ∨ c = '-' then Numeral.int32? text else none

/-- A progression written without blanks, in lower case: `even`, `odd`, an integer, or `an+b`. -/
def parseCompact? (text : List Char) : Option NthChild :=
  if text = ['e', 'v', 'e', 'n'] then some ⟨2, 0⟩
  else if text = ['o', 'd', 'd'] then some ⟨2, 1⟩
  else match text.dropWhile (· ≠ 'n') with
    | [] => (Numeral.int32? text).map fun k => ⟨0, k⟩
    | _ :: constant => do
      return ⟨← coefficient? (text.takeWhile (· ≠ 'n')), ← constant? constant⟩

/-- Blanks and case do not count. -/
def parse? (text : String) : Option NthChild :=
  parseCompact? ((Text.squeeze text.toList).map Char.toLower)

/-- Whether the progression meets the position `index + 1`, counted in 64 bits. -/
def matchesIndex (n : NthChild) (index : Nat) : Bool :=
  let position := Int64.ofNat index + 1
  let step := n.step.toInt64
  let offset := n.offset.toInt64
  if step = 0 then position = offset
  else
    let distance := position - offset
    distance % step = 0 && 0 ≤ distance / step

def stepText (step : Int) : String :=
  if step = 1 then "n" else if step = -1 then "-n" else s!"{step}n"

def offsetText (offset : Int) : String :=
  if offset = 0 then "" else if 0 < offset then s!"+{offset}" else s!"{offset}"

def text (n : NthChild) : String :=
  if n.step.toInt = 0 then s!"{n.offset.toInt}"
  else stepText n.step.toInt ++ offsetText n.offset.toInt

end NthChild

end Stylebook
