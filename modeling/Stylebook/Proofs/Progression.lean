import Mathlib.Algebra.Order.Ring.Int
import Mathlib.Data.List.Induction
import Mathlib.Data.List.TakeWhile
import Stylebook.Proofs.CharacterTables
import Stylebook.Term.Canonical

/-! The language of progressions: `even`, `odd`, an integer, or `an+b`, each number within 32 bits. A
progression that is read from a text is the one that the text spells, and every progression is read from
its own text. -/
namespace Stylebook

namespace Numeral

/-- Digits, at least one, and the number that they write. -/
inductive Digits : List Char → Nat → Prop
  | single {d : Char} (h : d.isDigit = true) : Digits [d] (d.toNat - '0'.toNat)
  | snoc {ds : List Char} {n : Nat} {d : Char} (h : Digits ds n) (hd : d.isDigit = true) :
      Digits (ds ++ [d]) (10 * n + (d.toNat - '0'.toNat))

/-- Digits behind a sign. -/
inductive Signed : List Char → Int → Prop
  | plus {ds : List Char} {n : Nat} (h : Digits ds n) : Signed ('+' :: ds) n
  | minus {ds : List Char} {n : Nat} (h : Digits ds n) : Signed ('-' :: ds) (-n)

/-- Digits with or without a sign. -/
inductive Integer : List Char → Int → Prop
  | unsigned {ds : List Char} {n : Nat} (h : Digits ds n) : Integer ds n
  | signed {cs : List Char} {k : Int} (h : Signed cs k) : Integer cs k

/-- The number is one of 32 bits. -/
def Fits (k : Int) : Prop := -2 ^ 31 ≤ k ∧ k < 2 ^ 31

variable {cs ds : List Char} {n : Nat} {k : Int}

lemma fits_toInt (k : Int32) : Fits k.toInt := ⟨k.le_toInt, k.toInt_lt⟩

lemma digitsValue_concat (ds : List Char) (d : Char) :
    digitsValue (ds ++ [d]) = 10 * digitsValue ds + (d.toNat - '0'.toNat) := by
  simp [digitsValue]

lemma digits_iff : Digits ds n ↔ ds ≠ [] ∧ (∀ d ∈ ds, d.isDigit = true) ∧ n = digitsValue ds := by
  constructor
  · intro h
    induction h with
    | single hd => simp [hd, digitsValue]
    | @snoc ds n d _ hd ih =>
      obtain ⟨-, hall, rfl⟩ := ih
      refine ⟨by simp, ?_, (digitsValue_concat ds d).symm⟩
      simpa [or_imp, forall_and, hd] using hall
  · rintro ⟨hne, hall, rfl⟩
    induction ds using List.reverseRecOn with
    | nil => exact absurd rfl hne
    | append_singleton ds d ih =>
      have hd : d.isDigit = true := hall d (by simp)
      rcases List.eq_nil_or_concat ds with rfl | hds
      · simpa [digitsValue] using Digits.single hd
      · rw [digitsValue_concat]
        exact .snoc (ih (by rintro rfl; simp at hds) (fun c hc => hall c (by simp [hc]))) hd

lemma Digits.toDigits (n : Nat) : Digits (Nat.toDigits 10 n) n := by
  refine digits_iff.mpr ⟨Nat.toDigits_ne_nil, fun d hd => ?_, ?_⟩
  · exact Nat.isDigit_of_mem_toDigits (by decide) (by decide) hd
  · exact (Nat.ofDigitChars_toDigits (by decide) (by decide)).symm

/-- The text of an integer, and with a plus sign if it is not negative. -/
lemma integer_repr (k : Int) : Integer k.repr.toList k ∧ (k < 0 → Signed k.repr.toList k) ∧
    (0 ≤ k → Signed ('+' :: k.repr.toList) k) := by
  rw [Int.repr_eq_if]
  split_ifs with hk
  · have hdigits : Digits k.toNat.repr.toList k.toNat := by
      rw [Nat.toList_repr]
      exact .toDigits _
    have hvalue : (k.toNat : Int) = k := by omega
    have hint : Integer k.toNat.repr.toList (k.toNat : Int) := .unsigned hdigits
    have hplus : Signed ('+' :: k.toNat.repr.toList) (k.toNat : Int) := .plus hdigits
    rw [hvalue] at hint hplus
    exact ⟨hint, by omega, fun _ => hplus⟩
  · have hdigits : Digits (-k).toNat.repr.toList (-k).toNat := by
      rw [Nat.toList_repr]
      exact .toDigits _
    have hvalue : -((-k).toNat : Int) = k := by omega
    have hminus : Signed ("-" ++ (-k).toNat.repr).toList (-((-k).toNat : Int)) := by
      rw [String.toList_append]
      exact .minus hdigits
    rw [hvalue] at hminus
    exact ⟨.signed hminus, fun _ => hminus, by omega⟩

/-- What an integer is written with. -/
def isIntegerChar (c : Char) : Bool := c.isDigit || c == '+' || c == '-'

lemma Digits.forall_mem (h : Digits ds n) : ∀ c ∈ ds, isIntegerChar c = true := by
  intro c hc
  simp [isIntegerChar, (digits_iff.mp h).2.1 c hc]

lemma Signed.forall_mem (h : Signed cs k) : ∀ c ∈ cs, isIntegerChar c = true := by
  cases h with
  | plus hds => exact List.forall_mem_cons.mpr ⟨rfl, hds.forall_mem⟩
  | minus hds => exact List.forall_mem_cons.mpr ⟨rfl, hds.forall_mem⟩

lemma Integer.forall_mem (h : Integer cs k) : ∀ c ∈ cs, isIntegerChar c = true := by
  cases h with
  | unsigned hds => exact hds.forall_mem
  | signed hcs => exact hcs.forall_mem

lemma Integer.signed_of_sign {c : Char} (h : Integer (c :: cs) k) (hc : c = '+' ∨ c = '-') :
    Signed (c :: cs) k := by
  cases h with
  | signed hcs => exact hcs
  | unsigned hds =>
    have hdigit := (digits_iff.mp hds).2.1 c (by simp)
    rcases hc with rfl | rfl <;> exact absurd hdigit (by decide)

/-- An integer in terms of its sign and its digits. -/
lemma integer_iff :
    Integer cs k ↔ ∃ n, Digits (splitSign cs).2 n ∧ k = if (splitSign cs).1 then -(n : Int) else n := by
  constructor
  · intro h
    cases h with
    | @unsigned n hds =>
      obtain ⟨hne, hall, -⟩ := digits_iff.mp hds
      have hsplit : splitSign cs = (false, cs) := by
        unfold splitSign
        split
        · exact absurd (hall '-' (by simp)) (by decide)
        · exact absurd (hall '+' (by simp)) (by decide)
        · rfl
      exact ⟨n, by rwa [hsplit], by rw [hsplit]; rfl⟩
    | signed hcs =>
      cases hcs with
      | @plus _ n hds => exact ⟨n, hds, rfl⟩
      | @minus _ n hds => exact ⟨n, hds, rfl⟩
  · rintro ⟨n, hds, rfl⟩
    unfold splitSign at hds ⊢
    split at hds
    · exact .signed (.minus hds)
    · exact .signed (.plus hds)
    · exact .unsigned hds

/-- Reading succeeds just for the integers of 32 bits. -/
lemma int32?_eq_some_iff {k : Int32} : int32? cs = some k ↔ Integer cs k.toInt := by
  rw [integer_iff]
  obtain ⟨negative, ds, hsplit⟩ : ∃ negative ds, splitSign cs = (negative, ds) := ⟨_, _, rfl⟩
  simp only [int32?, hsplit]
  by_cases hds : ds ≠ [] ∧ ∀ d ∈ ds, d.isDigit = true
  · have hguard : (ds.isEmpty || !ds.all Char.isDigit) = false := by
      simpa [List.all_eq_true] using hds
    have hdigits (n : Nat) : Digits ds n ↔ n = digitsValue ds := by
      rw [digits_iff]
      tauto
    simp only [hguard, Bool.false_eq_true, if_false, hdigits, exists_eq_left]
    generalize (if negative = true then -(digitsValue ds : Int) else digitsValue ds) = value
    have hmax : Int32.maxValue.toInt = 2 ^ 31 - 1 := rfl
    rw [Int32.toInt_minValue, hmax]
    split_ifs with hrange
    · rw [Option.some_inj]
      constructor
      · rintro rfl
        exact Int32.toInt_ofInt_of_le hrange.1 (by omega)
      · rintro rfl
        exact Int32.ofInt_toInt k
    · have hfits := fits_toInt k
      simp only [Fits] at hfits
      simp only [false_iff]
      omega
  · have hguard : (ds.isEmpty || !ds.all Char.isDigit) = true := by
      by_contra hne
      exact hds (by simpa [List.all_eq_true] using hne)
    simp only [hguard, if_true, reduceCtorEq, false_iff, digits_iff]
    tauto

end Numeral

namespace NthChild
open Numeral

/-! ## The language -/

/-- What stands before the `n`: nothing or a sign for one, or an integer. -/
inductive Coefficient : List Char → Int → Prop
  | one : Coefficient [] 1
  | plus : Coefficient ['+'] 1
  | minus : Coefficient ['-'] (-1)
  | integer {cs : List Char} {k : Int} (h : Integer cs k) : Coefficient cs k

/-- What stands behind the `n`: nothing for zero, or digits with their sign. -/
inductive Constant : List Char → Int → Prop
  | zero : Constant [] 0
  | signed {cs : List Char} {k : Int} (h : Signed cs k) : Constant cs k

/-- The progressions as they are written, with the step and the offset that they mean. -/
inductive Spelled : List Char → Int → Int → Prop
  | even : Spelled ['e', 'v', 'e', 'n'] 2 0
  | odd : Spelled ['o', 'd', 'd'] 2 1
  | position {cs : List Char} {k : Int} (h : Integer cs k) : Spelled cs 0 k
  | progression {as bs : List Char} {step offset : Int} (ha : Coefficient as step) (hb : Constant bs offset) :
      Spelled (as ++ 'n' :: bs) step offset

/-- A text as it counts: without white space, in small letters. -/
def compact (text : String) : List Char := (text.toList.filter (·.toNat ∉ Text.whiteSpace)).map Text.small

variable {cs : List Char} {step offset : Int} {n : NthChild}

lemma Coefficient.forall_mem (h : Coefficient cs step) : ∀ c ∈ cs, isIntegerChar c = true := by
  cases h with
  | one => simp
  | plus => simp [isIntegerChar]
  | minus => simp [isIntegerChar]
  | integer h => exact h.forall_mem

lemma Constant.forall_mem (h : Constant cs offset) : ∀ c ∈ cs, isIntegerChar c = true := by
  cases h with
  | zero => simp
  | signed h => exact h.forall_mem

/-! ## Reading -/

lemma compact_eq (text : String) : compact text = (Text.squeeze text.toList).map Char.toLower := by
  have hblank : ∀ c : Char, decide (c.toNat ∉ Text.whiteSpace) = !Text.isBlank c := by
    intro c
    rw [Bool.eq_iff_iff, decide_eq_true_eq, Bool.not_eq_true', ← Bool.not_eq_true, Text.isBlank_iff_mem]
  have hlower : Text.small = Char.toLower := funext fun c => (Text.toLower_eq_small c).symm
  simp only [compact, Text.squeeze, hblank, hlower]

/-- A lone sign has no digits. -/
lemma not_integer_sign {c : Char} (hc : c = '+' ∨ c = '-') (k : Int) : ¬ Integer [c] k := by
  intro h
  cases h.signed_of_sign hc with
  | plus hds => exact absurd rfl (digits_iff.mp hds).1
  | minus hds => exact absurd rfl (digits_iff.mp hds).1

lemma coefficient_nil : Coefficient [] step ↔ step = 1 := by
  constructor
  · intro h
    cases h with
    | one => rfl
    | integer h => obtain ⟨n, hds, -⟩ := integer_iff.mp h; exact absurd rfl (digits_iff.mp hds).1
  · rintro rfl
    exact .one

lemma coefficient_plus : Coefficient ['+'] step ↔ step = 1 := by
  constructor
  · intro h
    cases h with
    | plus => rfl
    | integer h => exact absurd h (not_integer_sign (.inl rfl) step)
  · rintro rfl
    exact .plus

lemma coefficient_minus : Coefficient ['-'] step ↔ step = -1 := by
  constructor
  · intro h
    cases h with
    | minus => rfl
    | integer h => exact absurd h (not_integer_sign (.inr rfl) step)
  · rintro rfl
    exact .minus

lemma coefficient_iff_integer (hnil : cs ≠ []) (hplus : cs ≠ ['+']) (hminus : cs ≠ ['-']) :
    Coefficient cs step ↔ Integer cs step := by
  refine ⟨fun h => ?_, .integer⟩
  cases h with
  | one => exact absurd rfl hnil
  | plus => exact absurd rfl hplus
  | minus => exact absurd rfl hminus
  | integer h => exact h

lemma coefficient?_eq_some_iff {k : Int32} : coefficient? cs = some k ↔ Coefficient cs k.toInt := by
  have hconst (m : Int32) : some m = some k ↔ k.toInt = m.toInt := by
    rw [Option.some_inj, Int32.toInt_inj, eq_comm]
  unfold coefficient?
  split
  · rw [coefficient_nil, hconst]
    rfl
  · rw [coefficient_plus, hconst]
    rfl
  · rw [coefficient_minus, hconst]
    rfl
  · next hnil hplus hminus => rw [coefficient_iff_integer hnil hplus hminus, int32?_eq_some_iff]

lemma constant?_eq_some_iff {k : Int32} : constant? cs = some k ↔ Constant cs k.toInt := by
  cases cs with
  | nil =>
    have hzero : some (0 : Int32) = some k ↔ k.toInt = 0 := by
      rw [Option.some_inj, eq_comm, ← Int32.toInt_inj]
      rfl
    rw [constant?, hzero]
    generalize k.toInt = offset
    constructor
    · rintro rfl
      exact .zero
    · intro h
      cases h with
      | zero => rfl
      | signed h => cases h
  | cons c cs =>
    have hsigned : Constant (c :: cs) k.toInt ↔ Signed (c :: cs) k.toInt := by
      refine ⟨fun h => ?_, .signed⟩
      cases h with
      | signed h => exact h
    rw [constant?, hsigned]
    split_ifs with hc
    · rw [int32?_eq_some_iff]
      exact ⟨fun h => h.signed_of_sign hc, .signed⟩
    · simp only [false_iff]
      generalize k.toInt = offset
      intro h
      cases h with
      | plus _ => exact hc (.inl rfl)
      | minus _ => exact hc (.inr rfl)

lemma notMem_of_forall_mem {c : Char} (h : ∀ d ∈ cs, isIntegerChar d = true) (hc : isIntegerChar c = false) :
    c ∉ cs := by
  intro hmem
  rw [h c hmem] at hc
  cases hc

/-- What stands before the first `n` is without an `n`, so that the text is cut there. -/
lemma parseCompact?_append {as bs : List Char} (ha : ∀ c ∈ as, isIntegerChar c = true) :
    parseCompact? (as ++ 'n' :: bs) = do return ⟨← coefficient? as, ← constant? bs⟩ := by
  have hn : ∀ c ∈ as, decide (c ≠ 'n') = true := by
    intro c hc
    have hne : c ≠ 'n' := by
      rintro rfl
      exact notMem_of_forall_mem ha rfl hc
    simpa using hne
  have heven : as ++ 'n' :: bs ≠ ['e', 'v', 'e', 'n'] := by
    intro h
    cases as with
    | nil => cases h
    | cons c as =>
      obtain ⟨rfl, -⟩ := List.cons.inj h
      exact notMem_of_forall_mem ha rfl (List.mem_cons_self ..)
  have hodd : as ++ 'n' :: bs ≠ ['o', 'd', 'd'] := by
    intro h
    have hmem : 'n' ∈ ['o', 'd', 'd'] := h ▸ by simp
    exact absurd hmem (by decide)
  have htake : (as ++ 'n' :: bs).takeWhile (· ≠ 'n') = as := by
    rw [List.takeWhile_append_of_pos hn]
    simp
  have hdrop : (as ++ 'n' :: bs).dropWhile (· ≠ 'n') = 'n' :: bs := by
    rw [List.dropWhile_append_of_pos hn]
    simp
  rw [parseCompact?, if_neg heven, if_neg hodd, htake, hdrop]

lemma parseCompact?_of_integer (h : ∀ c ∈ cs, isIntegerChar c = true) :
    parseCompact? cs = (int32? cs).map fun k => ⟨0, k⟩ := by
  have heven : cs ≠ ['e', 'v', 'e', 'n'] := by
    rintro rfl
    exact absurd (h 'e' List.mem_cons_self) (by decide)
  have hodd : cs ≠ ['o', 'd', 'd'] := by
    rintro rfl
    exact absurd (h 'o' List.mem_cons_self) (by decide)
  have hdrop : cs.dropWhile (· ≠ 'n') = [] := by
    apply List.dropWhile_eq_nil_iff.mpr
    intro c hc
    have hne : c ≠ 'n' := by
      rintro rfl
      exact notMem_of_forall_mem h rfl hc
    simpa using hne
  rw [parseCompact?, if_neg heven, if_neg hodd, hdrop]

lemma parseCompact?_of_spelled (h : Spelled cs n.step.toInt n.offset.toInt) : parseCompact? cs = some n := by
  obtain ⟨step, offset⟩ := n
  dsimp only at h
  generalize hstep : step.toInt = s at h
  generalize hoffset : offset.toInt = o at h
  cases h with
  | even =>
    obtain rfl : step = 2 := Int32.toInt_inj.mp hstep
    obtain rfl : offset = 0 := Int32.toInt_inj.mp hoffset
    rfl
  | odd =>
    obtain rfl : step = 2 := Int32.toInt_inj.mp hstep
    obtain rfl : offset = 1 := Int32.toInt_inj.mp hoffset
    rfl
  | position h =>
    obtain rfl : step = 0 := Int32.toInt_inj.mp hstep
    subst hoffset
    rw [parseCompact?_of_integer h.forall_mem, int32?_eq_some_iff.mpr h]
    rfl
  | progression ha hb =>
    subst hstep
    subst hoffset
    rw [parseCompact?_append ha.forall_mem, coefficient?_eq_some_iff.mpr ha, constant?_eq_some_iff.mpr hb]
    rfl

lemma spelled_of_parseCompact? (h : parseCompact? cs = some n) : Spelled cs n.step.toInt n.offset.toInt := by
  unfold parseCompact? at h
  split_ifs at h with heven hodd
  · obtain rfl := Option.some.inj h
    rw [heven]
    exact .even
  · obtain rfl := Option.some.inj h
    rw [hodd]
    exact .odd
  · split at h
    · obtain ⟨k, hk, rfl⟩ := Option.map_eq_some_iff.mp h
      exact .position (int32?_eq_some_iff.mp hk)
    · next c constant hdrop =>
      obtain ⟨step, hstep, h⟩ := Option.bind_eq_some_iff.mp h
      obtain ⟨offset, hoffset, h⟩ := Option.bind_eq_some_iff.mp h
      obtain rfl := Option.some.inj h
      have hhead := List.head?_dropWhile_not (fun c => decide (c ≠ 'n')) cs
      rw [hdrop] at hhead
      obtain rfl : c = 'n' := by simpa using hhead
      have hcut : cs = cs.takeWhile (· ≠ 'n') ++ 'n' :: constant := by
        rw [← hdrop, List.takeWhile_append_dropWhile]
      rw [hcut]
      exact .progression (coefficient?_eq_some_iff.mp hstep) (constant?_eq_some_iff.mp hoffset)

lemma parse?_eq_some_iff {text : String} :
    parse? text = some n ↔ Spelled (compact text) n.step.toInt n.offset.toInt := by
  rw [compact_eq]
  exact ⟨spelled_of_parseCompact?, parseCompact?_of_spelled⟩

/-! ## Writing -/

lemma coefficient_stepText (step : Int) :
    ∃ as, (stepText step).toList = as ++ ['n'] ∧ Coefficient as step := by
  unfold stepText
  split_ifs with hone hminus
  · exact ⟨[], rfl, hone ▸ .one⟩
  · exact ⟨['-'], rfl, hminus ▸ .minus⟩
  · refine ⟨step.repr.toList, ?_, .integer (integer_repr step).1⟩
    exact String.toList_append

lemma constant_offsetText (offset : Int) : Constant (offsetText offset).toList offset := by
  unfold offsetText
  split_ifs with hzero hpos
  · exact hzero ▸ .zero
  · have htext : s!"+{offset}" = "+" ++ offset.repr := rfl
    rw [htext, String.toList_append]
    exact .signed ((integer_repr offset).2.2 hpos.le)
  · exact .signed ((integer_repr offset).2.1 (by omega))

/-- The text is an integer or has an `n` in it. -/
lemma text_cases (n : NthChild) :
    (n.step.toInt = 0 ∧ Integer n.text.toList n.offset.toInt) ∨
      ∃ as bs, n.text.toList = as ++ 'n' :: bs ∧ Coefficient as n.step.toInt ∧ Constant bs n.offset.toInt := by
  unfold text
  split_ifs with hstep
  · exact .inl ⟨hstep, (integer_repr _).1⟩
  · obtain ⟨as, has, hcoefficient⟩ := coefficient_stepText n.step.toInt
    refine .inr ⟨as, _, ?_, hcoefficient, constant_offsetText _⟩
    rw [String.toList_append, has, List.append_assoc, List.singleton_append]

/-- A progression spells itself. -/
lemma spelled_text (n : NthChild) : Spelled n.text.toList n.step.toInt n.offset.toInt := by
  rcases n.text_cases with ⟨hstep, hinteger⟩ | ⟨as, bs, htext, ha, hb⟩
  · rw [hstep]
    exact .position hinteger
  · rw [htext]
    exact .progression ha hb

lemma forall_mem_text (n : NthChild) : ∀ c ∈ n.text.toList, isIntegerChar c = true ∨ c = 'n' := by
  intro c hc
  rcases n.text_cases with ⟨-, hinteger⟩ | ⟨as, bs, htext, ha, hb⟩
  · exact .inl (hinteger.forall_mem c hc)
  · rw [htext, List.mem_append, List.mem_cons] at hc
    rcases hc with hc | rfl | hc
    · exact .inl (ha.forall_mem c hc)
    · exact .inr rfl
    · exact .inl (hb.forall_mem c hc)

lemma isIntegerChar_spec {c : Char} (h : isIntegerChar c = true) : 43 ≤ c.toNat ∧ c.toNat ≤ 57 := by
  simp only [isIntegerChar, Char.isDigit, Bool.or_eq_true, Bool.and_eq_true, decide_eq_true_eq, beq_iff_eq,
    ge_iff_le, UInt32.le_iff_toNat_le] at h
  rcases h with (⟨hleast, hgreatest⟩ | rfl) | rfl
  · have hzero : '0'.val.toNat = 48 := rfl
    have hnine : '9'.val.toNat = 57 := rfl
    have hval : c.toNat = c.val.toNat := rfl
    omega
  · decide
  · decide

/-- There is nothing in the text to leave out, nor any capital. -/
lemma compact_text (n : NthChild) : compact n.text = n.text.toList := by
  have hblank : ∀ c ∈ n.text.toList, c.toNat ∉ Text.whiteSpace := by
    intro c hc
    rcases n.forall_mem_text c hc with hc | rfl
    · have hc := isIntegerChar_spec hc
      simp only [Text.whiteSpace, List.mem_cons, List.not_mem_nil, or_false]
      omega
    · decide
  have hsmall : ∀ c ∈ n.text.toList, Text.small c = c := by
    intro c hc
    apply Text.small_of_notMem
    rw [Text.mem_capitals]
    rcases n.forall_mem_text c hc with hc | rfl
    · have hc := isIntegerChar_spec hc
      omega
    · decide
  rw [compact, List.filter_eq_self.mpr (fun c hc => decide_eq_true (hblank c hc))]
  exact (List.map_congr_left hsmall).trans (List.map_id _)

lemma parse?_text (n : NthChild) : parse? n.text = some n := by
  rw [parse?_eq_some_iff, compact_text]
  exact n.spelled_text

/-- Some numbers of 32 bits are spelled just if there is a progression that is. -/
lemma exists_spelled_iff : (∃ step offset, Spelled cs step offset ∧ Fits step ∧ Fits offset) ↔
    ∃ n : NthChild, Spelled cs n.step.toInt n.offset.toInt := by
  constructor
  · rintro ⟨step, offset, h, hstep, hoffset⟩
    refine ⟨⟨.ofInt step, .ofInt offset⟩, ?_⟩
    rwa [Int32.toInt_ofInt_of_le hstep.1 hstep.2, Int32.toInt_ofInt_of_le hoffset.1 hoffset.2]
  · rintro ⟨n, h⟩
    exact ⟨_, _, h, fits_toInt _, fits_toInt _⟩

/-- Each progression is read from its own text. A text is read as the progression that it spells when blanks
and case are left aside, and if it spells none within 32 bits it is refused as an invalid one. -/
theorem parse?_accepts_exactly_spelled (text : String) (c : Compound) :
    (∀ n : NthChild, parse? n.text = some n) ∧
      (∀ n : NthChild, parse? text = some n ↔ Spelled (compact text) n.step.toInt n.offset.toInt) ∧
      ((∃ n : NthChild, parse? text = some n) ↔
        ∃ step offset, Spelled (compact text) step offset ∧ Fits step ∧ Fits offset) ∧
      (c.addNth text = .error (.invalidNthChild (Text.trimString text)) ↔
        ¬ ∃ step offset, Spelled (compact text) step offset ∧ Fits step ∧ Fits offset) := by
  have hexists : (∃ n : NthChild, parse? text = some n) ↔
      ∃ step offset, Spelled (compact text) step offset ∧ Fits step ∧ Fits offset := by
    simp only [exists_spelled_iff, parse?_eq_some_iff]
  refine ⟨parse?_text, fun n => parse?_eq_some_iff, hexists, ?_⟩
  rw [← hexists, Compound.addNth]
  cases parse? text <;> simp

/-- Blanks may stand anywhere, a no-break space among them. -/
theorem parse?_accepts_exactly_spelled_apart :
    compact " -1 2N\u00a0+ 3\n" = "-12n+3".toList ∧ parse? " -1 2N\u00a0+ 3\n" = some ⟨-12, 3⟩ := by
  have hcompact : compact " -1 2N\u00a0+ 3\n" = "-12n+3".toList := by decide
  have htwelve : Digits (['1'] ++ ['2']) 12 := .snoc (.single (by decide)) (by decide)
  have hthree : Digits ['3'] 3 := .single (by decide)
  have hspelled : Spelled "-12n+3".toList (-12) 3 :=
    .progression (.integer (.signed (.minus htwelve))) (.signed (.plus hthree))
  obtain ⟨-, hread, -⟩ := parse?_accepts_exactly_spelled " -1 2N\u00a0+ 3\n" .universal
  refine ⟨hcompact, (hread ⟨-12, 3⟩).mpr ?_⟩
  rw [hcompact]
  exact hspelled

end NthChild

end Stylebook
