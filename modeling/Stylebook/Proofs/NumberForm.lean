import Stylebook.Proofs.LexerTiling
import Stylebook.Proofs.TokenText

/-! The language of numbers, and how a number is cut out of a text. A number begins just where some front part of
the text is a number; what is cut out is the longest such part, and every number can be read. So whatever a call
fails for, it is not a number. -/
namespace Stylebook

namespace Token

/-- The value of a number, with or without a unit. -/
def number? : Token → Option Binary64
  | number x | percentage x | dimension x _ => some x
  | _ => none

end Token

/-- Whether something between two marks is broken: a comment, a string or a url. -/
def Cause.isEnclosure : Cause → Bool
  | unterminatedComment | unterminatedString | url _ => true
  | _ => false

namespace Lexer

/-! ## The language -/

/-- A sign, or none. -/
def IsSign (sign : List Char) : Prop := sign = [] ∨ sign = ['+'] ∨ sign = ['-']

/-- Digits, at least one. -/
structure IsDigits (ds : List Char) : Prop where
  ne_nil : ds ≠ []
  forall_mem : ∀ d ∈ ds, d.isDigit = true

/-- Digits with or without a fraction, or a fraction alone. A point has digits behind it. -/
inductive IsMantissa : List Char → Prop
  | whole {ds : List Char} (h : IsDigits ds) : IsMantissa ds
  | mixed {ds fs : List Char} (h : IsDigits ds) (hf : IsDigits fs) : IsMantissa (ds ++ '.' :: fs)
  | fraction {fs : List Char} (hf : IsDigits fs) : IsMantissa ('.' :: fs)

/-- A power of ten, or none. -/
inductive IsPower : List Char → Prop
  | none : IsPower []
  | power {e : Char} {sign ds : List Char} (he : e = 'e' ∨ e = 'E') (hsign : IsSign sign) (h : IsDigits ds) :
      IsPower (e :: (sign ++ ds))

/-- The text of a number. -/
inductive IsNumber : List Char → Prop
  | mk {sign mantissa power : List Char} (hsign : IsSign sign) (hm : IsMantissa mantissa) (hp : IsPower power) :
      IsNumber (sign ++ (mantissa ++ power))

section Language
variable {cs ds sign mantissa power rest : List Char} {c : Char}

lemma isNumber_of_digits (hsign : IsSign sign) (h : IsDigits ds) : IsNumber (sign ++ ds) := by
  have hnumber := IsNumber.mk hsign (.whole h) .none
  rwa [List.append_nil] at hnumber

/-- The text does not go on with a mantissa in front of it. -/
def EndsMantissa (rest : List Char) : Prop := ∀ c ∈ rest.head?, c.isDigit = false ∧ c ≠ '.'

lemma endsMantissa_cons {e : Char} (he : e = 'e' ∨ e = 'E') (rest : List Char) : EndsMantissa (e :: rest) := by
  intro c hc
  cases hc
  obtain rfl | rfl := he <;> decide

lemma IsPower.endsMantissa (h : IsPower power) : EndsMantissa power := by
  cases h with
  | none => simp [EndsMantissa]
  | power he => exact endsMantissa_cons he _

/-! ## Where numbers begin -/

/-- Whether a number without a sign begins here. -/
def startsMantissa (cs : List Char) : Bool := startsDigit cs || startsFraction cs

lemma startsNumber_eq (cs : List Char) : startsNumber cs = startsMantissa (spanSign cs).2 := rfl

lemma IsDigits.startsDigit_append (h : IsDigits ds) (rest : List Char) : startsDigit (ds ++ rest) = true := by
  obtain ⟨d, ds, rfl⟩ := List.exists_cons_of_ne_nil h.ne_nil
  exact h.forall_mem d List.mem_cons_self

lemma IsDigits.startsMantissa_append (h : IsDigits ds) (rest : List Char) :
    startsMantissa (ds ++ rest) = true := by
  rw [startsMantissa, h.startsDigit_append, Bool.true_or]

lemma IsMantissa.startsMantissa_append (h : IsMantissa mantissa) (rest : List Char) :
    startsMantissa (mantissa ++ rest) = true := by
  cases h with
  | whole hd => exact hd.startsMantissa_append rest
  | mixed hd =>
    rw [List.append_assoc]
    exact hd.startsMantissa_append _
  | fraction hf =>
    rw [startsMantissa, List.cons_append, startsFraction, hf.startsDigit_append, Bool.or_true]

lemma ne_sign_of_startsMantissa (h : startsMantissa (c :: cs) = true) : c ≠ '+' ∧ c ≠ '-' := by
  constructor <;>
  · rintro rfl
    exact absurd h (by simp [startsMantissa, startsDigit, startsFraction])

/-- A sign in front of a number is told from what follows it. -/
lemma spanSign_append_of_isSign (hsign : IsSign sign) (h : startsMantissa cs = true) :
    spanSign (sign ++ cs) = (sign, cs) := by
  rcases hsign with rfl | rfl | rfl
  · cases cs with
    | nil => rfl
    | cons c cs =>
      obtain ⟨hplus, hminus⟩ := ne_sign_of_startsMantissa h
      simp [spanSign, hplus, hminus]
  · rfl
  · rfl

lemma isSign_spanSign (cs : List Char) : IsSign (spanSign cs).1 := by
  unfold spanSign
  split <;> simp [IsSign]

/-! ## What is cut out -/

lemma spanDigits_append (h : ∀ d ∈ ds, d.isDigit = true) (rest : List Char) :
    spanWhile Char.isDigit (ds ++ rest) =
      (ds ++ (spanWhile Char.isDigit rest).1, (spanWhile Char.isDigit rest).2) := by
  rw [spanWhile, List.takeWhile_append_of_pos h, List.dropWhile_append_of_pos h]
  rfl

lemma isDigits_spanDigits (h : startsDigit cs = true) : IsDigits (spanWhile Char.isDigit cs).1 := by
  refine ⟨?_, fun d hd => spanWhile_all hd⟩
  cases cs with
  | nil => cases h
  | cons c cs =>
    have hc : c.isDigit = true := h
    simp [spanWhile, hc]

lemma spanDigits_of_not_startsDigit (h : startsDigit cs = false) : spanWhile Char.isDigit cs = ([], cs) := by
  cases cs with
  | nil => rfl
  | cons c cs =>
    have hc : c.isDigit = false := h
    simp [spanWhile, hc]

lemma startsFraction_eq_true (h : startsFraction cs = true) : ∃ rest, cs = '.' :: rest ∧ startsDigit rest = true := by
  unfold startsFraction at h
  split at h
  · next rest => exact ⟨rest, rfl, h⟩
  · cases h

lemma spanFraction_of_not_startsFraction (h : startsFraction cs = false) : spanFraction cs = ([], cs) := by
  unfold spanFraction
  split
  · next rest =>
    have hrest : startsDigit rest = false := h
    simp [hrest]
  · rfl

/-- Digits and a fraction, each as far as it goes. -/
def spanMantissa (cs : List Char) : List Char × List Char :=
  ((spanWhile Char.isDigit cs).1 ++ (spanFraction (spanWhile Char.isDigit cs).2).1,
    (spanFraction (spanWhile Char.isDigit cs).2).2)

lemma spanNumber_eq (cs : List Char) :
    spanNumber cs =
      ((spanSign cs).1 ++ ((spanMantissa (spanSign cs).2).1 ++ (spanExponent (spanMantissa (spanSign cs).2).2).1),
        (spanExponent (spanMantissa (spanSign cs).2).2).2) := by
  simp only [spanNumber, spanMantissa, List.append_assoc]

/-- Where a mantissa begins, one is cut out. -/
lemma isMantissa_spanMantissa (h : startsMantissa cs = true) : IsMantissa (spanMantissa cs).1 := by
  have hfraction {rest : List Char} (hf : startsFraction rest = true) :
      ∃ fs, IsDigits fs ∧ (spanFraction rest).1 = '.' :: fs := by
    obtain ⟨tail, rfl, htail⟩ := startsFraction_eq_true hf
    refine ⟨_, isDigits_spanDigits htail, ?_⟩
    rw [spanFraction_point, if_pos htail]
  rw [spanMantissa]
  cases hd : startsDigit cs with
  | true =>
    have hwhole := isDigits_spanDigits hd
    cases hf : startsFraction (spanWhile Char.isDigit cs).2 with
    | true =>
      obtain ⟨fs, hfs, he⟩ := hfraction hf
      rw [he]
      exact .mixed hwhole hfs
    | false =>
      rw [spanFraction_of_not_startsFraction hf, List.append_nil]
      exact .whole hwhole
  | false =>
    rw [startsMantissa, hd, Bool.false_or] at h
    obtain ⟨fs, hfs, he⟩ := hfraction h
    rw [spanDigits_of_not_startsDigit hd, he]
    exact .fraction hfs

lemma isPower_spanExponent (cs : List Char) : IsPower (spanExponent cs).1 := by
  cases cs with
  | nil => exact .none
  | cons e rest =>
    simp only [spanExponent]
    split_ifs with h
    · simp only [Bool.and_eq_true, Bool.or_eq_true, beq_iff_eq] at h
      exact .power h.1 (isSign_spanSign rest) (isDigits_spanDigits h.2)
    · exact .none

/-- Where a number begins, one is cut out. -/
lemma isNumber_spanNumber (h : startsNumber cs = true) : IsNumber (spanNumber cs).1 := by
  rw [spanNumber_eq]
  exact .mk (isSign_spanSign cs) (isMantissa_spanMantissa h) (isPower_spanExponent _)

/-! ## Nothing longer could be cut out -/

lemma EndsMantissa.spanDigits (h : EndsMantissa rest) : spanWhile Char.isDigit rest = ([], rest) := by
  apply spanDigits_of_not_startsDigit
  cases rest with
  | nil => rfl
  | cons c rest => exact (h c rfl).1

lemma EndsMantissa.spanFraction (h : EndsMantissa rest) : spanFraction rest = ([], rest) := by
  unfold Lexer.spanFraction
  split
  · exact absurd rfl (h '.' rfl).2
  · rfl

lemma spanMantissa_append_digits (h : ∀ d ∈ ds, d.isDigit = true) (rest : List Char) :
    spanMantissa (ds ++ rest) = (ds ++ (spanMantissa rest).1, (spanMantissa rest).2) := by
  simp only [spanMantissa, spanDigits_append h, List.append_assoc]

lemma spanMantissa_fraction (h : IsDigits ds) (rest : List Char) :
    spanMantissa ('.' :: (ds ++ rest)) =
      ('.' :: (ds ++ (spanWhile Char.isDigit rest).1), (spanWhile Char.isDigit rest).2) := by
  have hpoint : spanWhile Char.isDigit ('.' :: (ds ++ rest)) = ([], '.' :: (ds ++ rest)) :=
    spanDigits_of_not_startsDigit rfl
  simp only [spanMantissa, hpoint, List.nil_append]
  rw [spanFraction_point, if_pos (h.startsDigit_append rest), spanDigits_append h.forall_mem]

/-- A mantissa at the front of a text is cut out, or a longer one. -/
lemma IsMantissa.prefix_spanMantissa (h : IsMantissa mantissa) (rest : List Char) :
    mantissa <+: (spanMantissa (mantissa ++ rest)).1 := by
  cases h with
  | whole hd =>
    rw [spanMantissa_append_digits hd.forall_mem]
    exact List.prefix_append ..
  | @mixed ds fs hd hf =>
    rw [List.append_assoc, List.cons_append, spanMantissa_append_digits hd.forall_mem, spanMantissa_fraction hf,
      ← List.cons_append, ← List.append_assoc]
    exact List.prefix_append ..
  | @fraction fs hf =>
    rw [List.cons_append, spanMantissa_fraction hf, ← List.cons_append]
    exact List.prefix_append ..

/-- Where the text does not go on with it, the mantissa ends. -/
lemma IsMantissa.spanMantissa_of_ends (h : IsMantissa mantissa) (hrest : EndsMantissa rest) :
    spanMantissa (mantissa ++ rest) = (mantissa, rest) := by
  cases h with
  | whole hd =>
    rw [spanMantissa_append_digits hd.forall_mem, spanMantissa, hrest.spanDigits, hrest.spanFraction]
    simp
  | @mixed ds fs hd hf =>
    rw [List.append_assoc, List.cons_append, spanMantissa_append_digits hd.forall_mem, spanMantissa_fraction hf,
      hrest.spanDigits]
    simp
  | @fraction fs hf =>
    rw [List.cons_append, spanMantissa_fraction hf, hrest.spanDigits]
    simp

lemma IsPower.prefix_spanExponent (h : IsPower power) (rest : List Char) :
    power <+: (spanExponent (power ++ rest)).1 := by
  cases h with
  | none => exact List.nil_prefix
  | @power e sign ds he hsign hd =>
    have hspan : spanSign (sign ++ ds ++ rest) = (sign, ds ++ rest) := by
      rw [List.append_assoc]
      exact spanSign_append_of_isSign hsign (hd.startsMantissa_append rest)
    have hletter : (e == 'e' || e == 'E') = true := by simpa using he
    simp only [List.cons_append, spanExponent, hspan, hletter, hd.startsDigit_append, Bool.and_self, if_true,
      spanDigits_append hd.forall_mem]
    rw [← List.append_assoc, ← List.cons_append]
    exact List.prefix_append ..

/-- A number at the front of a text is cut out, or a longer one. -/
lemma IsNumber.prefix_spanNumber {p : List Char} (h : IsNumber p) (hp : p <+: cs) : p <+: (spanNumber cs).1 := by
  obtain ⟨rest, rfl⟩ := hp
  cases h with
  | @mk sign mantissa power hsign hm hw =>
    have hspan : spanSign (sign ++ (mantissa ++ power) ++ rest) = (sign, mantissa ++ (power ++ rest)) := by
      rw [List.append_assoc, List.append_assoc]
      exact spanSign_append_of_isSign hsign (hm.startsMantissa_append _)
    rw [spanNumber_eq, hspan, List.prefix_append_right_inj]
    cases hw with
    | none =>
      rw [List.append_nil]
      exact (hm.prefix_spanMantissa _).trans (List.prefix_append ..)
    | @power e psign ds he hpsign hd =>
      -- The letter of the power ends the mantissa, so that both have the same one.
      have hends : EndsMantissa (e :: (psign ++ ds) ++ rest) := endsMantissa_cons he _
      rw [hm.spanMantissa_of_ends hends, List.prefix_append_right_inj]
      exact (IsPower.power he hpsign hd).prefix_spanExponent rest

/-- A number begins just where the text has one in front. -/
lemma startsNumber_iff : startsNumber cs = true ↔ ∃ p, IsNumber p ∧ p <+: cs := by
  constructor
  · intro h
    refine ⟨_, isNumber_spanNumber h, (spanNumber cs).2, spanNumber_append cs⟩
  · rintro ⟨p, h, rest, rfl⟩
    cases h with
    | mk hsign hm =>
      rw [List.append_assoc, List.append_assoc, startsNumber_eq,
        spanSign_append_of_isSign hsign (hm.startsMantissa_append _)]
      exact hm.startsMantissa_append _

lemma isNumber_iff {p : List Char} : IsNumber p ↔ startsNumber p = true ∧ spanNumber p = (p, []) := by
  constructor
  · intro h
    refine ⟨startsNumber_iff.mpr ⟨p, h, List.prefix_rfl⟩, ?_⟩
    obtain ⟨more, hmore⟩ := h.prefix_spanNumber List.prefix_rfl
    have htiles := spanNumber_append p
    rw [← hmore, List.append_assoc, List.append_right_eq_self, List.append_eq_nil_iff] at htiles
    rw [htiles.1, List.append_nil] at hmore
    exact Prod.ext hmore.symm htiles.2
  · rintro ⟨hstarts, hspan⟩
    have h := isNumber_spanNumber hstarts
    rwa [hspan] at h

instance : DecidablePred IsNumber := fun _ => decidable_of_iff _ isNumber_iff.symm

example : IsNumber "+.5E-3".toList ∧ ¬ IsNumber "5.".toList ∧ ¬ IsNumber "1e".toList := by decide

/-! ## Numbers can be read -/

lemma splitSign_snd (cs : List Char) : (Numeral.splitSign cs).2 = (spanSign cs).2 := by
  cases cs with
  | nil => rfl
  | cons c cs =>
    by_cases hplus : c = '+'
    · rw [hplus]
      rfl
    · by_cases hminus : c = '-'
      · rw [hminus]
        rfl
      · simp [Numeral.splitSign, spanSign, hplus, hminus]

lemma IsPower.exists_exponent (h : IsPower power) : ∃ k, Numeral.exponent? power = some k := by
  cases h with
  | none => exact ⟨0, rfl⟩
  | @power e sign ds he hsign hd =>
    have hstarts := hd.startsMantissa_append []
    rw [List.append_nil] at hstarts
    have hsplit : (Numeral.splitSign (sign ++ ds)).2 = ds := by
      rw [splitSign_snd, spanSign_append_of_isSign hsign hstarts]
    have hletter : (e == 'e' || e == 'E') = true := by simpa using he
    have hall : ds.all Char.isDigit = true := List.all_eq_true.mpr hd.forall_mem
    simp [Numeral.exponent?, hsplit, hletter, hd.ne_nil, hall]

/-- The parts of a mantissa are found again, and one of them has digits. -/
lemma IsMantissa.splitFraction (h : IsMantissa mantissa) (hrest : EndsMantissa rest) :
    ∃ fs, Numeral.splitFraction ((mantissa ++ rest).dropWhile Char.isDigit) = (fs, rest) ∧
      ((mantissa ++ rest).takeWhile Char.isDigit ≠ [] ∨ fs ≠ []) := by
  have hends : ∀ c ∈ rest.head?, c.isDigit = false := fun c hc => (hrest c hc).1
  have hpoint {fs : List Char} (hf : IsDigits fs) : Numeral.splitFraction ('.' :: (fs ++ rest)) = (fs, rest) :=
    spanWhile_of_ends hf.forall_mem hends
  cases h with
  | @whole ds hd =>
    obtain ⟨htake, hdrop⟩ := Prod.mk.inj (spanWhile_of_ends hd.forall_mem hends)
    refine ⟨[], ?_, .inl (by rw [htake]; exact hd.ne_nil)⟩
    rw [hdrop, Numeral.splitFraction]
    rintro tail rfl
    exact (hrest '.' rfl).2 rfl
  | @mixed ds fs hd hf =>
    have hspan : spanWhile Char.isDigit (ds ++ '.' :: (fs ++ rest)) = (ds, '.' :: (fs ++ rest)) :=
      spanWhile_of_ends hd.forall_mem (by rintro c ⟨⟩; rfl)
    obtain ⟨htake, hdrop⟩ := Prod.mk.inj hspan
    rw [List.append_assoc, List.cons_append]
    exact ⟨fs, by rw [hdrop, hpoint hf], .inl (by rw [htake]; exact hd.ne_nil)⟩
  | @fraction fs hf => exact ⟨fs, hpoint hf, .inr hf.ne_nil⟩

/-- Every number has a value. -/
lemma IsNumber.exists_binary64 {p : List Char} (h : IsNumber p) : ∃ x, Numeral.binary64? p = some x := by
  cases h with
  | @mk sign mantissa power hsign hm hw =>
    have hsplit : (Numeral.splitSign (sign ++ (mantissa ++ power))).2 = mantissa ++ power := by
      rw [splitSign_snd, spanSign_append_of_isSign hsign (hm.startsMantissa_append _)]
    obtain ⟨fs, hfs, hdigits⟩ := hm.splitFraction hw.endsMantissa
    obtain ⟨k, hk⟩ := hw.exists_exponent
    unfold Numeral.binary64?
    generalize Numeral.splitSign (sign ++ (mantissa ++ power)) = split at hsplit
    obtain ⟨negative, body⟩ := split
    obtain rfl : body = mantissa ++ power := hsplit
    dsimp only
    split
    · exact ⟨_, rfl⟩
    · rw [hfs, if_neg (by simpa [or_iff_not_imp_left] using hdigits), hk]
      exact ⟨_, rfl⟩

end Language

/-! ## What calls fail for -/

section Calls
variable {cs lead taken rest : List Char} {c : Char} {cause : Cause}

lemma isNumberChar_of_startsNumber (h : startsNumber (c :: rest) = true) : isNumberChar c = true := by
  obtain ⟨d, text, htext⟩ := List.exists_cons_of_ne_nil (spanNumber_ne_nil h)
  have htiles := spanNumber_append (c :: rest)
  rw [htext, List.cons_append] at htiles
  obtain ⟨rfl, -⟩ := List.cons.inj htiles
  exact isNumberChar_spanNumber (d :: rest) d (by rw [htext]; exact List.mem_cons_self)

/-- Nothing else is tried where a number begins. -/
lemma readToken_of_startsNumber (h : startsNumber cs = true) : readToken cs = numeric cs := by
  cases cs with
  | nil => cases h
  | cons c rest =>
    rw [readToken_of_isNumberChar (isNumberChar_of_startsNumber h), if_pos h]

/-- A number that is cut out is read, and its token has the value. -/
lemma exists_numeric (h : startsNumber cs = true) :
    ∃ x t, Numeral.binary64? (spanNumber cs).1 = some x ∧ (numeric cs).value = .ok t ∧ t.number? = some x := by
  obtain ⟨x, hx⟩ := (isNumber_spanNumber h).exists_binary64
  unfold numeric
  simp only [hx]
  split
  · exact ⟨x, _, rfl, rfl, rfl⟩
  · split_ifs <;> exact ⟨x, _, rfl, rfl, rfl⟩

lemma string_error {quote : Char} (h : (string quote cs).value = .error (lead, cause)) :
    cause.isEnclosure = true := by
  simp only [string] at h
  split at h
  · cases h
  · cases h
    rfl

lemma urlOrFunction_error {name : List Char} (h : (urlOrFunction name cs).value = .error (lead, cause)) :
    cause.isEnclosure = true := by
  simp only [urlOrFunction] at h
  split at h
  · cases h
  · cases h
  · split at h
    · cases h
    · cases h
      rfl

lemma nameLike_error (h : (nameLike cs).value = .error (lead, cause)) : cause.isEnclosure = true := by
  simp only [nameLike] at h
  split at h
  · split_ifs at h
    exact urlOrFunction_error h
  · cases h

/-- A token that cannot be read is a string or a url. -/
lemma readToken_error (h : (readToken cs).value = .error (lead, cause)) : cause.isEnclosure = true := by
  cases hn : startsNumber cs with
  | true =>
    obtain ⟨x, t, -, ht, -⟩ := exists_numeric hn
    rw [readToken_of_startsNumber hn, ht] at h
    cases h
  | false =>
    cases cs with
    | nil => cases h
    | cons c rest =>
      cases hp : Token.punctuation? c with
      | some t =>
        simp only [readToken, hp] at h
        cases h
      | none =>
        rw [readToken_of_word hp, if_neg (ne_true_of_eq_false hn)] at h
        split_ifs at h with hquote hhash hat hname
        · exact string_error h
        · cases h
        · unfold atKeyword at h
          split at h
          · split_ifs at h
          · cases h
        · exact nameLike_error h

lemma step_defect (h : step cs = .defect lead cause taken rest) : cause.isEnclosure = true := by
  unfold step at h
  split at h
  · cases h
    rfl
  · cases h
  · simp only at h
    split at h
    · cases h
    · next hv =>
      cases h
      exact readToken_error hv

/-- A call that fails meets a broken comment, string or url. -/
lemma Cursor.next_fault {c : Cursor} {f : Fault} {after : Location} (h : c.next.1 = .fault f after) :
    f.cause.isEnclosure = true := by
  rw [Cursor.next_eq] at h
  cases hs : step c.rest with
  | token gap t text rest =>
    rw [hs] at h
    cases h
  | defect lead cause taken rest =>
    rw [hs] at h
    cases h
    exact step_defect hs

end Calls

/-- However many calls are made from a cursor on, no call fails for a number. Numbers begin just where some front part
of what is left is a number, and then the longest such part is passed, and read. -/
theorem numbers_are_read_at_full_length (c : Cursor) :
    (∀ n f after, (c.after n).next.1 = .fault f after → ∀ text, f.cause ≠ .invalidNumber text) ∧
    (startsNumber c.rest = true ↔ ∃ p, IsNumber p ∧ p <+: c.rest) ∧
    (startsNumber c.rest = true →
      let text := c.slice c.passNumber
      IsNumber text ∧ text <+: c.rest ∧ (∀ p, IsNumber p → p <+: c.rest → p <+: text) ∧
      ∃ x t, Numeral.binary64? text = some x ∧ c.readToken.1 = .ok t ∧ t.number? = some x) := by
  refine ⟨?_, startsNumber_iff, fun h => ?_⟩
  · intro n f after h text hcause
    have henclosure := Cursor.next_fault h
    rw [hcause] at henclosure
    cases henclosure
  · have htext : c.slice c.passNumber = (spanNumber c.rest).1 := by
      rw [Cursor.passNumber_eq]
      exact Cursor.slice_past _ _ (spanNumber_append c.rest).symm
    rw [htext]
    refine ⟨isNumber_spanNumber h, ⟨_, spanNumber_append c.rest⟩, ?_, ?_⟩
    · intro p hp hprefix
      exact hp.prefix_spanNumber hprefix
    · obtain ⟨x, t, hx, ht, hnumber⟩ := exists_numeric h
      refine ⟨x, t, hx, ?_, hnumber⟩
      rw [Cursor.readToken_eq, readToken_of_startsNumber h, Cursor.settle, ht]
      rfl

/-- The second `e` begins a unit, as no digits follow it. A fraction needs no digits in front of its point, but a point
without digits behind it is left alone. -/
theorem numbers_are_read_at_full_length_units :
    let unit := Cursor.start "-.5e+3em"
    let point := Cursor.start "1.e5"
    startsNumber unit.rest = true ∧ unit.slice unit.passNumber = "-.5e+3".toList ∧
      (∃ x t, Numeral.binary64? "-.5e+3".toList = some x ∧ unit.readToken.1 = .ok t ∧ t.number? = some x) ∧
      startsNumber point.rest = true ∧ point.slice point.passNumber = ['1'] ∧
      ∀ p, IsNumber p → p <+: point.rest → p <+: ['1'] := by
  intro unit point
  have hunit : startsNumber unit.rest = true := by decide
  have hpoint : startsNumber point.rest = true := by decide
  have hspan : unit.slice unit.passNumber = "-.5e+3".toList := by decide +kernel
  have hcut : point.slice point.passNumber = ['1'] := by decide +kernel
  obtain ⟨-, -, hread⟩ := numbers_are_read_at_full_length unit
  obtain ⟨-, -, hlongest⟩ := numbers_are_read_at_full_length point
  obtain ⟨-, -, -, hvalue⟩ := hread hunit
  obtain ⟨-, -, hmax, -⟩ := hlongest hpoint
  rw [hspan] at hvalue
  rw [hcut] at hmax
  exact ⟨hunit, hspan, hvalue, hpoint, hcut, hmax⟩

end Lexer

end Stylebook
