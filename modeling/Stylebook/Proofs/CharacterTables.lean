import Mathlib.Data.List.Basic
import Mathlib.Tactic.IntervalCases
import Stylebook.Text.Blank

/-! The characters one by one: white space, and the letters and digits of ASCII. What is tested elsewhere by
comparing code points is here a place in a table. -/
namespace Stylebook.Text

/-- The code points with the property `White_Space`. -/
def whiteSpace : List Nat :=
  [0x9, 0xa, 0xb, 0xc, 0xd, 0x20, 0x85, 0xa0, 0x1680, 0x2000, 0x2001, 0x2002, 0x2003, 0x2004, 0x2005, 0x2006,
    0x2007, 0x2008, 0x2009, 0x200a, 0x2028, 0x2029, 0x202f, 0x205f, 0x3000]

def capitals : List Char :=
  ['A', 'B', 'C', 'D', 'E', 'F', 'G', 'H', 'I', 'J', 'K', 'L', 'M', 'N', 'O', 'P', 'Q', 'R', 'S', 'T', 'U', 'V',
    'W', 'X', 'Y', 'Z']

def smalls : List Char :=
  ['a', 'b', 'c', 'd', 'e', 'f', 'g', 'h', 'i', 'j', 'k', 'l', 'm', 'n', 'o', 'p', 'q', 'r', 's', 't', 'u', 'v',
    'w', 'x', 'y', 'z']

def digits : List Char := ['0', '1', '2', '3', '4', '5', '6', '7', '8', '9']

/-- The small letter for a capital; any other character is left as it is. -/
def small (c : Char) : Char := ((capitals.zip smalls).lookup c).getD c

/-- The text with small letters for capitals. -/
def inSmall (s : String) : String := String.ofList (s.toList.map small)

lemma isBlank_iff_mem {c : Char} : isBlank c = true ↔ c.toNat ∈ whiteSpace := by
  simp only [isBlank, whiteSpace, Bool.or_eq_true, Bool.and_eq_true, decide_eq_true_eq, beq_iff_eq, List.mem_cons,
    List.not_mem_nil, or_false]
  omega

/-- A table of neighbours has the characters from its first on. -/
lemma mem_iff_of_map_toNat {cs : List Char} {first n : Nat} (h : cs.map Char.toNat = List.range' first n)
    {c : Char} : c ∈ cs ↔ first ≤ c.toNat ∧ c.toNat < first + n := by
  have hinj : Function.Injective Char.toNat := fun _ _ => Char.toNat_inj.mp
  rw [← List.mem_map_of_injective hinj, h, List.mem_range'_1]

lemma mem_capitals {c : Char} : c ∈ capitals ↔ 65 ≤ c.toNat ∧ c.toNat < 65 + 26 := mem_iff_of_map_toNat rfl

lemma mem_smalls {c : Char} : c ∈ smalls ↔ 97 ≤ c.toNat ∧ c.toNat < 97 + 26 := mem_iff_of_map_toNat rfl

lemma mem_digits {c : Char} : c ∈ digits ↔ 48 ≤ c.toNat ∧ c.toNat < 48 + 10 := mem_iff_of_map_toNat rfl

lemma isUpper_iff_mem {c : Char} : c.isUpper = true ↔ c ∈ capitals := by
  have hval : c.toNat = c.val.toNat := rfl
  have hA : 'A'.val.toNat = 65 ∧ 'Z'.val.toNat = 90 := ⟨rfl, rfl⟩
  rw [mem_capitals]
  delta Char.isUpper
  rw [decide_eq_true_eq]
  simp only [ge_iff_le, UInt32.le_iff_toNat_le]
  omega

lemma isLower_iff_mem {c : Char} : c.isLower = true ↔ c ∈ smalls := by
  have hval : c.toNat = c.val.toNat := rfl
  have ha : 'a'.val.toNat = 97 ∧ 'z'.val.toNat = 122 := ⟨rfl, rfl⟩
  rw [mem_smalls]
  delta Char.isLower
  simp only [ge_iff_le, UInt32.le_iff_toNat_le, Bool.and_eq_true, decide_eq_true_eq]
  omega

lemma isDigit_iff_mem {c : Char} : c.isDigit = true ↔ c ∈ digits := by
  have hval : c.toNat = c.val.toNat := rfl
  have hzero : '0'.val.toNat = 48 ∧ '9'.val.toNat = 57 := ⟨rfl, rfl⟩
  rw [mem_digits, Char.isDigit]
  simp only [ge_iff_le, UInt32.le_iff_toNat_le, Bool.and_eq_true, decide_eq_true_eq]
  omega

lemma small_of_notMem {c : Char} (h : c ∉ capitals) : small c = c := by
  have hnone : (capitals.zip smalls).lookup c = none := by
    rw [List.lookup_eq_none_iff]
    intro p hp
    have hne : c ≠ p.1 := fun he => h (he ▸ (List.of_mem_zip hp).1)
    simpa using hne
  rw [small, hnone, Option.getD_none]

lemma toLower_eq_small (c : Char) : c.toLower = small c := by
  by_cases h : c ∈ capitals
  · obtain ⟨hfirst, hlast⟩ := mem_capitals.mp h
    have hc : c = Char.ofNat c.toNat := (Char.ofNat_toNat c).symm
    rw [hc]
    -- One letter after the other.
    generalize c.toNat = n at hfirst hlast
    interval_cases n <;> rfl
  · rw [small_of_notMem h]
    delta Char.toLower
    rw [dif_neg]
    intro hupper
    apply h
    rw [← isUpper_iff_mem]
    exact decide_eq_true hupper

end Stylebook.Text
