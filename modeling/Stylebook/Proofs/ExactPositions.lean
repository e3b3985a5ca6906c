import Stylebook.Proofs.Placement

/-! Positions among siblings are reckoned exactly. Words of 64 bits wrap around silently, so every operation is
put beside one that gives up unless its exact result is a word; where nothing is given up, nothing has wrapped,
and no division was by zero. -/
namespace Stylebook

/-- The word that stands for an integer, if there is one. -/
def word? (n : ℤ) : Option Int64 :=
  if Int64.minValue.toInt ≤ n ∧ n ≤ Int64.maxValue.toInt then some (.ofInt n) else none

lemma word?_eq_some_iff {n : ℤ} {w : Int64} : word? n = some w ↔ w.toInt = n := by
  have hlo := w.minValue_le_toInt
  have hhi := w.toInt_le
  unfold word?
  constructor
  · intro h
    split_ifs at h with hn
    obtain rfl := Option.some.inj h
    exact Int64.toInt_ofInt_of_le hn.1 (Int.lt_of_le_of_lt hn.2 (by decide))
  · intro h
    subst h
    rw [if_pos ⟨hlo, hhi⟩, Int64.ofInt_toInt]

namespace Exact

def add? (a b : Int64) : Option Int64 := word? (a.toInt + b.toInt)

def sub? (a b : Int64) : Option Int64 := word? (a.toInt - b.toInt)

/-- The quotient is rounded towards zero. -/
def div? (a b : Int64) : Option Int64 := if b = 0 then none else word? (a.toInt.tdiv b.toInt)

/-- There is a remainder only where there is a quotient. -/
def rem? (a b : Int64) : Option Int64 := (div? a b).bind fun _ => word? (a.toInt.tmod b.toInt)

lemma div?_eq_some {a b : Int64} (ha : a ≠ Int64.minValue) (hb : b ≠ 0) : div? a b = some (a / b) := by
  rw [div?, if_neg hb]
  exact word?_eq_some_iff.mpr (Int64.toInt_div_of_ne_left _ _ ha)

lemma rem?_eq_some {a b : Int64} (ha : a ≠ Int64.minValue) (hb : b ≠ 0) : rem? a b = some (a % b) := by
  rw [rem?, div?_eq_some ha hb, Option.bind_some]
  exact word?_eq_some_iff.mpr (Int64.toInt_mod _ _)

end Exact

namespace NthChild

/-- Whether the progression meets the position `index + 1`, with every operation on words checked. -/
def checked? (n : NthChild) (index : ℕ) : Option Bool := do
  let position ← Exact.add? (← word? index) 1
  let step := n.step.toInt64
  let offset := n.offset.toInt64
  if step = 0 then return position = offset
  else
    let distance ← Exact.sub? position offset
    let remainder ← Exact.rem? distance step
    let quotient ← Exact.div? distance step
    return remainder = 0 && 0 ≤ quotient

/-- Among siblings no check fails. -/
lemma checked?_eq_some (n : NthChild) {index : ℕ} (h : index < 2 ^ 32) :
    n.checked? index = some (n.matchesIndex index) := by
  have hindex : word? index = some (Int64.ofNat index) :=
    word?_eq_some_iff.mpr (Int64.toInt_ofNat_of_lt (by omega))
  have hposition : Exact.add? (Int64.ofNat index) 1 = some (Int64.ofNat index + 1) := by
    apply word?_eq_some_iff.mpr
    rw [toInt_position h, Int64.toInt_ofNat_of_lt (by omega)]
    rfl
  have hdistance : Exact.sub? (Int64.ofNat index + 1) n.offset.toInt64 =
      some (Int64.ofNat index + 1 - n.offset.toInt64) := by
    apply word?_eq_some_iff.mpr
    rw [toInt_distance n.offset h, toInt_position h, Int32.toInt_toInt64]
  have hleast := distance_ne_minValue n.offset h
  unfold checked? matchesIndex
  simp only [hindex, hposition, Option.bind_eq_bind, Option.bind_some]
  by_cases hstep : n.step.toInt64 = 0
  · simp only [hstep, if_true]
    rfl
  · simp only [hstep, if_false, hdistance, Exact.rem?_eq_some hleast hstep, Exact.div?_eq_some hleast hstep,
      Option.bind_some]
    rfl

/-- A progression meets the position behind an index just when the position is one of its terms. All that is
reckoned on the way is exact, whatever the step and the offset: no operation overflows, and none divides by
zero. Nodes are numbered in 32 bits, and so is the index among siblings. -/
theorem matchesIndex_iff_term_and_checked (n : NthChild) {index : ℕ} (h : index < 2 ^ 32) :
    (n.matchesIndex index = true ↔ ∃ k : ℤ, 0 ≤ k ∧ n.step.toInt * k + n.offset.toInt = index + 1) ∧
      n.checked? index = some (n.matchesIndex index) := by
  refine ⟨?_, n.checked?_eq_some h⟩
  rw [matchesIndex_iff h]
  constructor
  · rintro ⟨k, hk⟩
    exact ⟨k, Int.natCast_nonneg k, by exact_mod_cast hk.symm⟩
  · rintro ⟨k, hk, heq⟩
    refine ⟨k.toNat, ?_⟩
    rw [Int.toNat_of_nonneg hk, heq]
    push_cast
    rfl

/-- The last index, the least offset: the distance is half as much again as 32 bits can number. It is a multiple of
3, and also of the least step, but there by -3, so that the position is missed. -/
theorem matchesIndex_iff_term_and_checked_extreme :
    4294967295 < 2 ^ 32 ∧
      (∃ k : ℤ, 0 ≤ k ∧ (3 : Int32).toInt * k + Int32.minValue.toInt = 4294967295 + 1) ∧
      checked? ⟨3, Int32.minValue⟩ 4294967295 = some true ∧
      checked? ⟨Int32.minValue, Int32.minValue⟩ 4294967295 = some false := by
  have hlast : 4294967295 < 2 ^ 32 := by decide
  obtain ⟨hmeets, hchecked⟩ := matchesIndex_iff_term_and_checked ⟨3, Int32.minValue⟩ hlast
  have hmissed := (matchesIndex_iff_term_and_checked ⟨Int32.minValue, Int32.minValue⟩ hlast).2
  have htrue : matchesIndex ⟨3, Int32.minValue⟩ 4294967295 = true := by decide
  have hfalse : matchesIndex ⟨Int32.minValue, Int32.minValue⟩ 4294967295 = false := by decide
  exact ⟨hlast, hmeets.mp htrue, hchecked.trans (congrArg some htrue), hmissed.trans (congrArg some hfalse)⟩

/-- Past the last index that has a word for its position, the check fails. -/
example : checked? ⟨1, 0⟩ (2 ^ 63 - 2) = some true ∧ checked? ⟨1, 0⟩ (2 ^ 63 - 1) = none := by decide

end NthChild

end Stylebook
