import Stylebook.Proofs.LexerExtension

/-! Text in which runs of blanks and comments have been condensed to one space, or dropped at the end, and text cut
off in front of an opening brace or a comma. A token in front of such text is read as it was in front of the text
itself: its look ahead may reach over the next tokens, but it meets a space or the end where it met a blank, a comment
or the mark, and these stop it alike. -/
namespace Stylebook.Lexer
open Text

/-- Whether text may be cut off in front of a character. -/
def isCutMark (c : Char) : Bool := c == '{' || c == ','

/-- The second text is the first with some runs of blanks and comments condensed to one space. At the end they may
be dropped, and so may a mark with all that follows it. -/
inductive Condenses : List Char → List Char → Prop
  | dropped {cs : List Char} {blank : Bool} (h : trivia cs = .run cs blank []) : Condenses cs []
  | spaced {cs taken rest rest' : List Char} {blank : Bool} (h : trivia cs = .run taken blank rest)
      (ht : taken ≠ []) (hr : Condenses rest rest') : Condenses cs (' ' :: rest')
  | char {cs cs' : List Char} (c : Char) (h : Condenses cs cs') : Condenses (c :: cs) (c :: cs')
  | cut {cs taken more : List Char} {blank : Bool} {c : Char} (h : trivia cs = .run taken blank (c :: more))
      (hc : isCutMark c = true) : Condenses cs []

/-- Whether what is condensed or dropped may begin with a character. -/
def isBreak (c : Char) : Bool := isBlank c || c == '/' || isCutMark c

lemma trivia_head {c : Char} {cs taken rest : List Char} {blank : Bool}
    (h : trivia (c :: cs) = .run taken blank rest) (ht : taken ≠ []) : isBreak c = true := by
  by_cases hb : isBlank c = true
  · simp [isBreak, hb]
  · by_cases hs : c = '/'
    · simp [isBreak, hs]
    · have hstop : opensComment (c :: cs) = false := by simp [opensComment, hs]
      rw [trivia_of_stop (by simpa using hb) hstop] at h
      cases h
      exact absurd rfl ht

lemma ne_of_isBreak {c d : Char} (hc : isBreak c = true) (hd : isBreak d = false) : c ≠ d := by
  rintro rfl
  rw [hc] at hd
  cases hd

lemma not_isDigit_of_isBreak {c : Char} (h : isBreak c = true) : c.isDigit = false := by
  by_contra hd
  simp only [Bool.not_eq_false, Char.isDigit, Bool.and_eq_true, decide_eq_true_eq] at hd
  have hlo : 48 ≤ c.toNat := hd.1
  have hhi : c.toNat ≤ 57 := hd.2
  simp only [isBreak, isCutMark, Bool.or_eq_true, beq_iff_eq] at h
  obtain (hb | rfl) | rfl | rfl := h
  · simp only [isBlank, Bool.or_eq_true, Bool.and_eq_true, decide_eq_true_eq, beq_iff_eq] at hb
    omega
  · exact absurd hlo (by decide)
  · exact absurd hhi (by decide)
  · exact absurd hlo (by decide)

/-- How two such texts begin: with the same character, or with a break in the first where the second has a space or
ends. -/
inductive Condenses.Front : List Char → List Char → Prop
  | nil : Front [] []
  | char {c : Char} {cs cs' : List Char} (h : Condenses cs cs') : Front (c :: cs) (c :: cs')
  | dropped {c : Char} {cs : List Char} (h : isBreak c = true) : Front (c :: cs) []
  | spaced {c : Char} {cs cs' : List Char} (h : isBreak c = true) : Front (c :: cs) (' ' :: cs')

section Condenses
variable {cs cs' : List Char}

lemma Condenses.front (h : Condenses cs cs') : Condenses.Front cs cs' := by
  cases h with
  | dropped h =>
    cases cs with
    | nil => exact .nil
    | cons c cs => exact .dropped (trivia_head h (List.cons_ne_nil c cs))
  | spaced h ht hr =>
    cases cs with
    | nil =>
      rw [trivia_nil] at h
      cases h
      exact absurd rfl ht
    | cons c cs => exact .spaced (trivia_head h ht)
  | char c h => exact .char h
  | @cut _ taken more _ c h hc =>
    have hmark : isBreak c = true := by simp [isBreak, hc]
    cases cs with
    | nil =>
      rw [trivia_nil] at h
      cases h
    | cons d cs =>
      cases taken with
      | nil =>
        have hcs := trivia_append (d :: cs)
        rw [h] at hcs
        obtain ⟨rfl, -⟩ := List.cons.inj hcs
        exact .dropped hmark
      | cons e taken => exact .dropped (trivia_head h (List.cons_ne_nil e taken))

lemma Condenses.append (h : Condenses cs cs') (text : List Char) : Condenses (text ++ cs) (text ++ cs') := by
  induction text with
  | nil => exact h
  | cons c text ih => exact .char c ih

/-- What cannot go on with a piece of text in the first, cannot in the second. -/
lemma Condenses.head_ends {p : Char → Bool} (h : Condenses cs cs') (hp : p ' ' = false)
    (hcs : ∀ c ∈ cs.head?, p c = false) : ∀ c ∈ cs'.head?, p c = false := by
  cases h.front with
  | nil => simp
  | char h => simpa using hcs
  | dropped h => simp
  | spaced h => simpa using hp

lemma head_ne {d : Char} (h : ¬ ∃ tail, cs = d :: tail) : ∀ c ∈ cs.head?, (c == d) = false := by
  intro c hc
  obtain ⟨tail, rfl⟩ := List.head?_eq_some_iff.1 (Option.mem_def.1 hc)
  by_contra hd
  simp only [Bool.not_eq_false, beq_iff_eq] at hd
  exact h ⟨tail, by rw [hd]⟩

/-! ## Look ahead -/

lemma startsDigit_condenses (h : Condenses cs cs') : startsDigit cs' = startsDigit cs := by
  cases h.front with
  | nil => rfl
  | char h => rfl
  | dropped hc => exact (not_isDigit_of_isBreak hc).symm
  | spaced hc => exact (not_isDigit_of_isBreak hc).symm

lemma startsFraction_condenses (h : Condenses cs cs') : startsFraction cs' = startsFraction cs := by
  cases h.front with
  | nil => rfl
  | @char c _ _ ht =>
    by_cases hc : c = '.'
    · subst hc
      exact startsDigit_condenses ht
    · simp [startsFraction, hc]
  | dropped hc => simp [startsFraction, ne_of_isBreak hc (by decide : isBreak '.' = false)]
  | spaced hc => simp [startsFraction, ne_of_isBreak hc (by decide : isBreak '.' = false)]

/-- Two cuts with the same front. -/
def SpansAlike (s s' : List Char × List Char) : Prop := s'.1 = s.1 ∧ Condenses s.2 s'.2

/-- A span that takes nothing where a break begins is settled by the characters the texts share. -/
lemma Condenses.span (f : List Char → List Char × List Char) (h : Condenses cs cs') (hnil : f [] = ([], []))
    (hbreak : ∀ {c tail}, isBreak c = true → f (c :: tail) = ([], c :: tail))
    (hchar : ∀ {c tail tail'}, cs = c :: tail → cs' = c :: tail' → Condenses tail tail' →
      SpansAlike (f cs) (f cs')) : SpansAlike (f cs) (f cs') := by
  cases h.front with
  | nil =>
    rw [hnil]
    exact ⟨rfl, h⟩
  | char ht => exact hchar rfl rfl ht
  | dropped hc =>
    rw [hbreak hc, hnil]
    exact ⟨rfl, h⟩
  | spaced hc =>
    rw [hbreak hc, hbreak (by decide)]
    exact ⟨rfl, h⟩

lemma spanSign_condenses (h : Condenses cs cs') : SpansAlike (spanSign cs) (spanSign cs') := by
  apply h.span spanSign rfl
  · intro c tail hc
    have hplus : c ≠ '+' := ne_of_isBreak hc (by decide)
    have hminus : c ≠ '-' := ne_of_isBreak hc (by decide)
    simp [spanSign, hplus, hminus]
  · rintro c tail tail' rfl rfl ht
    by_cases hplus : c = '+'
    · subst hplus
      exact ⟨rfl, ht⟩
    · by_cases hminus : c = '-'
      · subst hminus
        exact ⟨rfl, ht⟩
      · simpa [SpansAlike, spanSign, hplus, hminus] using h

lemma startsNumber_condenses (h : Condenses cs cs') : startsNumber cs' = startsNumber cs := by
  obtain ⟨-, hrest⟩ := spanSign_condenses h
  simp only [startsNumber, startsDigit_condenses hrest, startsFraction_condenses hrest]

/-- Where no name begins, none begins in the condensed text. The other direction fails: some blanks begin names. -/
lemma startsName_condenses (h : Condenses cs cs') (hn : startsName cs = false) : startsName cs' = false := by
  cases h.front with
  | nil => rfl
  | @char c tail tail' ht =>
    by_cases hc : c = '-'
    · subst hc
      have hhead : ∀ d ∈ tail.head?, (isNameStart d || d == '-') = false := by
        cases tail with
        | nil => simp
        | cons d tail => simpa [startsName] using hn
      have hhead' := ht.head_ends (by decide) hhead
      cases tail' with
      | nil => rfl
      | cons d tail' => simpa [startsName] using hhead'
    · simpa [startsName, hc] using hn
  | dropped hc => rfl
  | spaced hc => rfl

lemma opensComment_condenses {c : Char} (h : Condenses cs cs') (ho : opensComment (c :: cs) = false) :
    opensComment (c :: cs') = false := by
  by_cases hc : c = '/'
  · subst hc
    have hhead : ∀ d ∈ cs.head?, (d == '*') = false := by
      apply head_ne
      rintro ⟨tail, rfl⟩
      cases ho
    have hhead' := h.head_ends (by decide) hhead
    cases cs' with
    | nil => rfl
    | cons d cs' =>
      have hd : d ≠ '*' := by simpa using hhead'
      simp [opensComment, hd]
  · simp [opensComment, hc]

/-! ## Numbers -/

lemma spanDigits_condenses (h : Condenses cs cs') :
    SpansAlike (spanWhile Char.isDigit cs) (spanWhile Char.isDigit cs') := by
  induction cs generalizing cs' with
  | nil =>
    cases h.front with
    | nil => exact ⟨rfl, h⟩
  | cons c cs ih =>
    apply h.span (spanWhile Char.isDigit) rfl
    · intro d tail hd
      simp [spanWhile, not_isDigit_of_isBreak hd]
    · intro d tail tail' he he' ht
      cases he
      subst he'
      obtain ⟨hdigits, hrest⟩ := ih ht
      by_cases hd : c.isDigit = true
      · simp only [spanWhile] at hdigits hrest
        simpa [SpansAlike, spanWhile, hd, hdigits] using hrest
      · simpa [SpansAlike, spanWhile, hd] using h

lemma spanFraction_condenses (h : Condenses cs cs') : SpansAlike (spanFraction cs) (spanFraction cs') := by
  apply h.span spanFraction rfl
  · intro c tail hc
    simp [spanFraction, ne_of_isBreak hc (by decide : isBreak '.' = false)]
  · rintro c tail tail' rfl rfl ht
    by_cases hc : c = '.'
    · subst hc
      rw [spanFraction_point, spanFraction_point, startsDigit_condenses ht]
      split_ifs
      · obtain ⟨hdigits, hrest⟩ := spanDigits_condenses ht
        exact ⟨by rw [hdigits], hrest⟩
      · exact ⟨rfl, h⟩
    · simpa [SpansAlike, spanFraction, hc] using h

lemma spanExponent_condenses (h : Condenses cs cs') : SpansAlike (spanExponent cs) (spanExponent cs') := by
  apply h.span spanExponent rfl
  · intro c tail hc
    have hlower : c ≠ 'e' := ne_of_isBreak hc (by decide)
    have hupper : c ≠ 'E' := ne_of_isBreak hc (by decide)
    simp [spanExponent, hlower, hupper]
  · rintro c tail tail' rfl rfl ht
    obtain ⟨hsign, htail⟩ := spanSign_condenses ht
    simp only [spanExponent, startsDigit_condenses htail]
    split_ifs
    · obtain ⟨hdigits, hrest⟩ := spanDigits_condenses htail
      exact ⟨by rw [hsign, hdigits], hrest⟩
    · exact ⟨rfl, h⟩

/-- A number is the same in front of condensed text, whichever of its parts meets the break. -/
lemma spanNumber_condenses (h : Condenses cs cs') : SpansAlike (spanNumber cs) (spanNumber cs') := by
  obtain ⟨hsign, h₁⟩ := spanSign_condenses h
  obtain ⟨hwhole, h₂⟩ := spanDigits_condenses h₁
  obtain ⟨hfraction, h₃⟩ := spanFraction_condenses h₂
  obtain ⟨hexponent, h₄⟩ := spanExponent_condenses h₃
  simp only [spanNumber]
  exact ⟨by rw [hsign, hwhole, hfraction, hexponent], h₄⟩

end Condenses

/-! ## Tokens -/

section Tokens
variable {t : Token} {cs rest' : List Char}

lemma head_spanWhile (p : Char → Bool) (cs : List Char) : ∀ c ∈ (spanWhile p cs).2.head?, p c = false := by
  intro c hc
  have hhead := List.head?_dropWhile_not p cs
  rw [show (cs.dropWhile p).head? = some c from hc] at hhead
  simpa using hhead

/-- Whether a name could stand alone shows in its own characters. -/
lemma startsName_append {name rest : List Char} (hne : name ≠ [])
    (hr : ∀ c ∈ rest.head?, isNameChar c = false) : startsName (name ++ rest) = startsName name := by
  obtain ⟨c, name, rfl⟩ := List.exists_cons_of_ne_nil hne
  by_cases hc : c = '-'
  · subst hc
    cases name with
    | cons d name => rfl
    | nil =>
      cases rest with
      | nil => rfl
      | cons d rest =>
        have hd : isNameChar d = false := hr d rfl
        simp only [isNameChar, Bool.or_eq_false_iff] at hd
        simp [startsName, hd.1.1, hd.2]
  · simp [startsName, hc]

lemma startsName_spanName (hne : (spanWhile isNameChar cs).1 ≠ []) :
    startsName (spanWhile isNameChar cs).1 = startsName cs := by
  rw [← startsName_append hne (head_spanWhile isNameChar cs), spanWhile_append]

section Name
variable (hr : Condenses (spanWhile isNameChar cs).2 rest')
include hr

/-- A name in front of condensed text goes no further. -/
lemma spanName_condenses :
    spanWhile isNameChar ((spanWhile isNameChar cs).1 ++ rest') = ((spanWhile isNameChar cs).1, rest') := by
  apply spanWhile_of_ends
  · intro c hc
    exact spanWhile_all hc
  · exact hr.head_ends (by decide) (head_spanWhile isNameChar cs)

lemma startsName_span (hne : (spanWhile isNameChar cs).1 ≠ []) :
    startsName ((spanWhile isNameChar cs).1 ++ rest') = startsName cs := by
  rw [startsName_append hne (hr.head_ends (by decide) (head_spanWhile isNameChar cs)), startsName_spanName hne]

end Name

lemma spanName_ne_nil (h : startsName cs = true) : (spanWhile isNameChar cs).1 ≠ [] := by
  cases cs with
  | nil => cases h
  | cons c cs => simp [spanWhile, isNameChar_of_startsName h]

lemma string_condenses {quote : Char} (h : (string quote cs).value = .ok t) :
    string quote ((quoted quote cs).taken ++ rest') = { string quote cs with rest := rest' } := by
  have hsome : (quoted quote cs).value.isSome = true := by
    unfold string at h
    cases hv : (quoted quote cs).value with
    | none => simp [hv] at h
    | some v => rfl
  unfold string
  rw [quoted_taken rest' hsome]

lemma hash_condenses (hr : Condenses (hash cs).rest rest') :
    hash ((spanWhile isNameChar cs).1 ++ rest') = { hash cs with rest := rest' } := by
  unfold hash
  rw [spanName_condenses hr]
  by_cases hne : (spanWhile isNameChar cs).1 = []
  · simp [hne]
  · simp only [startsName_span hr hne]

lemma atKeyword_condenses {text : List Char} (ht : (atKeyword cs).taken = '@' :: text)
    (hr : Condenses (atKeyword cs).rest rest') :
    atKeyword (text ++ rest') = { atKeyword cs with rest := rest' } := by
  cases cs with
  | nil =>
    cases ht
    cases hr.front
    rfl
  | cons c cs =>
    rw [atKeyword_cons] at ht hr ⊢
    split_ifs at ht hr ⊢ with hc
    · have htext : (spanWhile isNameChar (c :: cs)).1 = text := (List.cons.inj ht).2
      have hname : text = c :: (spanWhile isNameChar cs).1 := by
        rw [← htext]
        simp [spanWhile, isNameChar, hc]
      have hspan := spanName_condenses hr
      rw [htext] at hspan
      rw [hname, List.cons_append] at hspan ⊢
      rw [atKeyword_cons, if_pos hc, hspan, ← hname, htext]
    · cases ht
      have hends := hr.head_ends (by decide) (show ∀ d ∈ (c :: cs).head?, isNameStart d = false by simpa using hc)
      cases rest' with
      | nil => rfl
      | cons d rest' =>
        rw [List.nil_append, atKeyword_cons, if_neg]
        simpa using hends

/-- A number ends where it ended, with the characters up to the condensed text behind it. -/
lemma spanNumber_front {number unit rest : List Char} (h : spanNumber cs = (number, unit ++ rest))
    (hr : Condenses rest rest') : spanNumber (number ++ (unit ++ rest')) = (number, unit ++ rest') := by
  have htiles := spanNumber_append cs
  rw [h] at htiles
  have hcs : Condenses cs (number ++ (unit ++ rest')) := by
    rw [← htiles]
    exact (hr.append unit).append number
  obtain ⟨hnumber, -⟩ := spanNumber_condenses hcs
  rw [h] at hnumber
  have hrest := spanNumber_append (number ++ (unit ++ rest'))
  rw [hnumber] at hrest
  exact Prod.ext hnumber (List.append_cancel_left hrest)

lemma numeric_of_percent {number rest : List Char} {v : Binary64} (hspan : spanNumber cs = (number, '%' :: rest))
    (hv : Numeral.binary64? number = some v) : numeric cs = ⟨.ok (.percentage v), number ++ ['%'], rest⟩ := by
  simp only [numeric, hspan, hv]

lemma numeric_of_unit {number rest : List Char} {v : Binary64} (hspan : spanNumber cs = (number, rest))
    (hv : Numeral.binary64? number = some v) (hp : ∀ c ∈ rest.head?, (c == '%') = false) :
    numeric cs =
      if startsName rest then
        ⟨.ok (.dimension v (String.ofList (spanWhile isNameChar rest).1)),
          number ++ (spanWhile isNameChar rest).1, (spanWhile isNameChar rest).2⟩
      else ⟨.ok (.number v), number, rest⟩ := by
  simp only [numeric, hspan, hv]
  split
  · exact absurd (hp '%' rfl) (by decide)
  · rfl

lemma numeric_condenses (h : (numeric cs).value = .ok t) (hr : Condenses (numeric cs).rest rest') :
    numeric ((numeric cs).taken ++ rest') = { numeric cs with rest := rest' } := by
  obtain ⟨number, tail, hspan⟩ : ∃ number tail, spanNumber cs = (number, tail) := ⟨_, _, rfl⟩
  cases hv : Numeral.binary64? number with
  | none => simp [numeric, hspan, hv] at h
  | some v =>
    by_cases hp : ∃ rest, tail = '%' :: rest
    · -- The look ahead of the number ran over the percent sign, so it stands in both texts.
      obtain ⟨rest, rfl⟩ := hp
      rw [numeric_of_percent hspan hv] at hr ⊢
      have hfront := spanNumber_front (show spanNumber cs = (number, ['%'] ++ rest) from hspan) hr
      rw [List.append_assoc]
      exact numeric_of_percent hfront hv
    · have hpercent := head_ne hp
      rw [numeric_of_unit hspan hv hpercent] at hr ⊢
      split_ifs at hr ⊢ with hname
      · have hne := spanName_ne_nil hname
        have hfront := spanNumber_front (by rw [hspan, spanWhile_append]) hr
        have hhead : ((spanWhile isNameChar tail).1 ++ rest').head? = tail.head? := by
          conv_rhs => rw [← spanWhile_append isNameChar tail]
          rw [List.head?_append_of_ne_nil _ hne, List.head?_append_of_ne_nil _ hne]
        rw [← hhead] at hpercent
        rw [List.append_assoc, numeric_of_unit hfront hv hpercent, if_pos ((startsName_span hr hne).trans hname),
          spanName_condenses hr]
      · have hfront := spanNumber_front (show spanNumber cs = (number, [] ++ tail) from hspan) hr
        have hstarts : startsName rest' = false := startsName_condenses hr (by simpa using hname)
        rw [List.nil_append] at hfront
        rw [numeric_of_unit hfront hv (hr.head_ends (by decide) hpercent), if_neg (by simp [hstarts])]

/-! ### Functions and urls -/

lemma trivia_of_spanBlank {c : Char} {tail : List Char} (hc : isBreak c = false)
    (h : (spanWhile isBlank cs).2 = c :: tail) : ∃ taken blank, trivia cs = .run taken blank (c :: tail) := by
  induction cs with
  | nil => cases h
  | cons d cs ih =>
    by_cases hd : isBlank d = true
    · obtain ⟨taken, blank, ht⟩ := ih (by simpa [spanWhile, hd] using h)
      rw [trivia_of_isBlank hd, ht]
      exact ⟨_, _, rfl⟩
    · have hcs : d :: cs = c :: tail := by simpa [spanWhile, hd] using h
      have hslash : c ≠ '/' := by
        rintro rfl
        cases hc
      rw [hcs, trivia_of_stop]
      · exact ⟨_, _, rfl⟩
      · simpa [(List.cons.inj hcs).1] using hd
      · simp [opensComment, hslash]

/-- What stands behind blanks, stands behind blanks in the condensed text. -/
lemma head_condenses {cs' tail : List Char} {c : Char} (h : Condenses cs cs') (hc : isBreak c = false)
    (hcs : (spanWhile isBlank cs).2 = c :: tail) : ∃ tail', (spanWhile isBlank cs').2 = c :: tail' := by
  have hblank : isBlank c = false := by
    simp only [isBreak, Bool.or_eq_false_iff] at hc
    exact hc.1.1
  induction h with
  | dropped h =>
    obtain ⟨taken, blank, ht⟩ := trivia_of_spanBlank hc hcs
    cases h.symm.trans ht
  | spaced h ht hr ih =>
    obtain ⟨taken, blank, ht⟩ := trivia_of_spanBlank hc hcs
    cases h.symm.trans ht
    obtain ⟨tail', hrest⟩ := ih (by simp [spanWhile, hblank])
    exact ⟨tail', by simpa [spanWhile, (by decide : isBlank ' ' = true)] using hrest⟩
  | char d h ih =>
    by_cases hd : isBlank d = true
    · obtain ⟨tail', ht⟩ := ih (by simpa [spanWhile, hd] using hcs)
      exact ⟨tail', by simpa [spanWhile, hd] using ht⟩
    · have hdc : d = c := by
        simp only [spanWhile, List.dropWhile_cons, hd] at hcs
        exact (List.cons.inj hcs).1
      exact ⟨_, by simp [spanWhile, hdc, hblank]; rfl⟩
  | cut h hmark =>
    obtain ⟨taken, blank, ht⟩ := trivia_of_spanBlank hc hcs
    cases h.symm.trans ht
    simp [isBreak, hmark] at hc

/-- The first character of a url is part of it. -/
lemma urlBody_head {c : Char} {body : List Char} : (urlBody (c :: body)).taken.head? = some c := by
  by_cases hc : c = '\\'
  · subst hc
    cases body <;> rfl
  · rw [urlBody_cons hc]
    split_ifs <;> rfl

def isQuote (c : Char) : Bool := c == '"' || c == '\''

lemma urlOrFunction_of_quote {c : Char} {tail : List Char} (name : List Char) (hc : isQuote c = true)
    (h : (spanWhile isBlank cs).2 = c :: tail) :
    urlOrFunction name cs = ⟨.ok (.function (String.ofList name)), name ++ ['('], cs⟩ := by
  simp only [isQuote, Bool.or_eq_true, beq_iff_eq] at hc
  obtain rfl | rfl := hc <;> simp only [urlOrFunction, h]

lemma urlOrFunction_of_body {blanks body : List Char} (name : List Char)
    (h : spanWhile isBlank cs = (blanks, body)) (hb : ∀ c ∈ body.head?, isQuote c = false) :
    urlOrFunction name cs =
      ⟨match (urlBody body).value with
        | .ok value => .ok (.url (String.ofList value))
        | .error problem => .error (name ++ ['('] ++ blanks, .url problem),
        name ++ ['('] ++ blanks ++ (urlBody body).taken, (urlBody body).rest⟩ := by
  simp only [urlOrFunction, h]
  split
  · exact absurd (hb '"' rfl) (by decide)
  · exact absurd (hb '\'' rfl) (by decide)
  · rfl

lemma urlOrFunction_condenses {name text : List Char} (h : (urlOrFunction name cs).value = .ok t)
    (ht : (urlOrFunction name cs).taken = name ++ '(' :: text) (hr : Condenses (urlOrFunction name cs).rest rest') :
    urlOrFunction name (text ++ rest') = { urlOrFunction name cs with rest := rest' } := by
  by_cases hq : ∃ c tail, isQuote c = true ∧ (spanWhile isBlank cs).2 = c :: tail
  · -- Only here does a token look beyond blanks that it leaves unread.
    obtain ⟨c, tail, hc, hcs⟩ := hq
    rw [urlOrFunction_of_quote name hc hcs] at ht hr ⊢
    have htext : text = [] := by simpa using ht
    have hbreak : isBreak c = false := by
      simp only [isQuote, Bool.or_eq_true, beq_iff_eq] at hc
      obtain rfl | rfl := hc <;> rfl
    obtain ⟨tail', hcs'⟩ := head_condenses hr hbreak hcs
    rw [htext, List.nil_append, urlOrFunction_of_quote name hc hcs']
  · obtain ⟨blanks, body, hspan⟩ : ∃ blanks body, spanWhile isBlank cs = (blanks, body) := ⟨_, _, rfl⟩
    have hends := head_spanWhile isBlank cs
    have hall (c : Char) (hc : c ∈ (spanWhile isBlank cs).1) : isBlank c = true := spanWhile_all hc
    rw [hspan] at hq hends hall
    have hb : ∀ c ∈ body.head?, isQuote c = false := by
      intro c hc
      obtain ⟨tail, rfl⟩ := List.head?_eq_some_iff.1 (Option.mem_def.1 hc)
      by_contra hquote
      exact hq ⟨c, tail, by simpa using hquote, rfl⟩
    rw [urlOrFunction_of_body name hspan hb] at h ht hr ⊢
    have hok : ∃ value, (urlBody body).value = .ok value := by
      cases hv : (urlBody body).value with
      | error e => simp [hv] at h
      | ok v => exact ⟨v, rfl⟩
    have htext : text = blanks ++ (urlBody body).taken := by simpa using ht.symm
    have hhead : ((urlBody body).taken ++ rest').head? = body.head? := by
      cases body with
      | nil => simp [urlBody] at hok
      | cons c body => simp [List.head?_append, urlBody_head]
    have hspan' : spanWhile isBlank (blanks ++ ((urlBody body).taken ++ rest')) =
        (blanks, (urlBody body).taken ++ rest') := spanWhile_of_ends hall (by rwa [hhead])
    rw [htext, List.append_assoc, urlOrFunction_of_body name hspan' (by rwa [hhead]), urlBody_taken rest' hok]

lemma nameLike_of_paren {name rest : List Char} (h : spanWhile isNameChar cs = (name, '(' :: rest)) :
    nameLike cs =
      if name.map Char.toLower = ['u', 'r', 'l'] then urlOrFunction name rest
      else ⟨.ok (.function (String.ofList name)), name ++ ['('], rest⟩ := by
  simp only [nameLike, h]

lemma nameLike_of_ident {name rest : List Char} (h : spanWhile isNameChar cs = (name, rest))
    (hp : ∀ c ∈ rest.head?, (c == '(') = false) :
    nameLike cs = ⟨.ok (.ident (String.ofList name)), name, rest⟩ := by
  simp only [nameLike, h]
  split
  · exact absurd (hp '(' rfl) (by decide)
  · rfl

lemma urlOrFunction_opens (name cs : List Char) : ∃ text, (urlOrFunction name cs).taken = name ++ '(' :: text := by
  unfold urlOrFunction
  simp only
  split
  · exact ⟨[], rfl⟩
  · exact ⟨[], rfl⟩
  · exact ⟨(spanWhile isBlank cs).1 ++ (urlBody (spanWhile isBlank cs).2).taken, by simp⟩

lemma nameLike_condenses (h : (nameLike cs).value = .ok t) (hr : Condenses (nameLike cs).rest rest') :
    nameLike ((nameLike cs).taken ++ rest') = { nameLike cs with rest := rest' } ∧
      (spanWhile isNameChar ((nameLike cs).taken ++ rest')).1 = (spanWhile isNameChar cs).1 := by
  obtain ⟨name, tail, hspan⟩ : ∃ name tail, spanWhile isNameChar cs = (name, tail) := ⟨_, _, rfl⟩
  have hall (c : Char) (hc : c ∈ (spanWhile isNameChar cs).1) : isNameChar c = true := spanWhile_all hc
  rw [hspan] at hall ⊢
  by_cases hp : ∃ rest, tail = '(' :: rest
  · obtain ⟨rest, rfl⟩ := hp
    have hopen (more : List Char) : spanWhile isNameChar (name ++ '(' :: more) = (name, '(' :: more) := by
      apply spanWhile_of_ends hall
      intro c hc
      cases hc
      rfl
    rw [nameLike_of_paren hspan] at h hr ⊢
    split_ifs at h hr ⊢ with hurl
    · obtain ⟨text, htext⟩ := urlOrFunction_opens name rest
      rw [htext, List.append_assoc, List.cons_append, hopen]
      refine ⟨?_, rfl⟩
      rw [nameLike_of_paren (hopen _), if_pos hurl]
      exact urlOrFunction_condenses h htext hr
    · rw [List.append_assoc, List.singleton_append, hopen]
      refine ⟨?_, rfl⟩
      rw [nameLike_of_paren (hopen _), if_neg hurl]
  · have hparen := head_ne hp
    rw [nameLike_of_ident hspan hparen] at hr ⊢
    have hname : spanWhile isNameChar (name ++ rest') = (name, rest') := by
      have hcut := spanName_condenses (show Condenses (spanWhile isNameChar cs).2 rest' by rwa [hspan])
      rwa [hspan] at hcut
    rw [hname]
    exact ⟨nameLike_of_ident hname (hr.head_ends (by decide) hparen), rfl⟩

/-- A token in front of condensed text is read from the characters it was read from, and from no others. -/
lemma readToken_condenses (h : (readToken cs).value = .ok t) (hr : Condenses (readToken cs).rest rest') :
    readToken ((readToken cs).taken ++ rest') = { readToken cs with rest := rest' } := by
  cases cs with
  | nil =>
    cases hr.front
    rfl
  | cons c cs =>
    have htiles : (readToken (c :: cs)).taken ++ (readToken (c :: cs)).rest = c :: cs := readToken_tiles (c :: cs)
    obtain ⟨text, htext⟩ : ∃ text, (readToken (c :: cs)).taken = c :: text := by
      obtain ⟨d, text, htext⟩ := List.exists_cons_of_ne_nil (readToken_taken_ne_nil c cs)
      rw [htext] at htiles
      exact ⟨text, by rw [htext, (List.cons.inj htiles).1]⟩
    have hcs : Condenses (c :: cs) (c :: (text ++ rest')) := by
      rw [← htiles, htext]
      exact hr.append (c :: text)
    rw [htext, List.cons_append]
    cases hp : Token.punctuation? c with
    | some token =>
      rw [readToken_of_mark hp] at htext
      cases htext
      rw [List.nil_append, readToken_of_mark hp, readToken_of_mark hp]
    | none =>
      rw [readToken_of_word hp] at h hr htext ⊢
      rw [readToken_of_word hp, startsNumber_condenses hcs]
      split_ifs at h hr htext ⊢ with hquote hhash hat hnumber hname' hname hname
      · cases htext
        exact string_condenses h
      · cases htext
        exact hash_condenses hr
      · exact atKeyword_condenses (hat ▸ htext) hr
      · have hread := numeric_condenses h hr
        rwa [htext] at hread
      · have hread := (nameLike_condenses h hr).1
        rwa [htext] at hread
      · exact absurd hname' (by simp [startsName_condenses hcs (by simpa using hname)])
      · -- A name that begins in the text begins in front of the condensed rest too: it is the same name.
        have hspan := (nameLike_condenses h hr).2
        have hne := spanName_ne_nil hname
        rw [← startsName_spanName hne, ← hspan, htext] at hname
        rw [← hspan, htext] at hne
        exact absurd ((startsName_spanName hne).symm.trans hname) hname'
      · cases htext
        rfl

/-- A word in front of condensed text is read as before, and has neither blanks nor comments in front. -/
lemma step_condenses {text rest : List Char}
    (hstop : trivia (text ++ rest) = .run [] false (text ++ rest)) (htext : text ≠ [])
    (hread : readToken (text ++ rest) = ⟨.ok t, text, rest⟩) (hr : Condenses rest rest') :
    trivia (text ++ rest') = .run [] false (text ++ rest') ∧ step (text ++ rest') = .token [] t text rest' := by
  have hstop' : trivia (text ++ rest') = .run [] false (text ++ rest') := by
    obtain ⟨c, text, rfl⟩ := List.exists_cons_of_ne_nil htext
    obtain ⟨hblank, hopens⟩ := trivia_eq_stop hstop
    exact trivia_of_stop hblank (opensComment_condenses (hr.append text) hopens)
  have hread' := readToken_condenses (by rw [hread])
    (show Condenses (readToken (text ++ rest)).rest rest' by rwa [hread])
  rw [hread] at hread'
  exact ⟨hstop', step_eq_token_iff.2 (Or.inr ⟨_, hstop', hread'⟩)⟩

end Tokens

end Stylebook.Lexer
