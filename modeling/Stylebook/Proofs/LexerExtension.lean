import Stylebook.Proofs.Relocation

/-! Text written behind a text that has been read. A token stays what it is when more text follows, as long as
a mark that ends a statement stands behind it: no token goes on over such a mark, and no look ahead either. -/
namespace Stylebook

/-- The marks that end statements and blocks. -/
def Token.isStop (t : Token) : Bool := t = .semicolon || t = .rightBrace

namespace Lexer
open Text

/-- The characters of these marks. -/
def isStop (c : Char) : Bool := c = ';' || c = '}'

/-- A text with such a character in it. -/
def Stopped (cs : List Char) : Prop := ∃ c ∈ cs, isStop c = true

section Stopped
variable {c : Char} {cs ds : List Char}

lemma Stopped.ne_nil (h : Stopped cs) : cs ≠ [] := by
  rintro rfl
  obtain ⟨c, hc, -⟩ := h
  cases hc

lemma Stopped.append (h : Stopped cs) : Stopped (ds ++ cs) := by
  obtain ⟨c, hc, hs⟩ := h
  exact ⟨c, List.mem_append_right ds hc, hs⟩

lemma Stopped.of_cons (h : Stopped (c :: cs)) (hc : isStop c = false) : Stopped cs := by
  obtain ⟨d, hd, hs⟩ := h
  obtain rfl | hd := List.mem_cons.1 hd
  · rw [hc] at hs
    cases hs
  · exact ⟨d, hd, hs⟩

end Stopped

/-- The same piece with more text behind it. -/
def Cut.before {α : Type} (cut : Cut α) (more : List Char) : Cut α := { cut with rest := cut.rest ++ more }

section More
variable {cs : List Char} (more : List Char)

/-! ## Blanks and comments -/

lemma closeComment_more {body rest : List Char} (h : closeComment cs = some (body, rest)) :
    closeComment (cs ++ more) = some (body, rest ++ more) := by
  fun_induction closeComment cs generalizing body rest with
  | case1 => cases h
  | case2 tail =>
    cases h
    rfl
  | case3 c tail hc ih =>
    obtain ⟨⟨b, r⟩, hb, he⟩ := Option.map_eq_some_iff.1 h
    cases he
    rw [List.cons_append, closeComment]
    · simp [ih hb]
    · intro tail' hc' ht
      cases tail with
      | nil => cases hb
      | cons d tail =>
        obtain ⟨rfl, -⟩ := List.cons.inj ht
        exact hc tail hc' rfl

lemma comment?_more {comment rest : List Char} (h : comment? cs = some (comment, rest)) :
    comment? (cs ++ more) = some (comment, rest ++ more) := by
  unfold comment? at h
  split at h
  · next body =>
    obtain ⟨⟨b, r⟩, hb, he⟩ := Option.map_eq_some_iff.1 h
    cases he
    simp [comment?, closeComment_more more hb]
  · cases h

@[simp] lemma Trivia.push_nil (t : Trivia) : t.push [] false = t := by
  cases t <;> simp [Trivia.push]

@[simp] lemma Trivia.push_push (t : Trivia) (cs ds : List Char) (b b' : Bool) :
    (t.push cs b).push ds b' = t.push (ds ++ cs) (b' || b) := by
  cases t <;> simp [Trivia.push, Bool.or_assoc]

/-- Blanks and comments at the end of a text run on into the text behind it. -/
lemma trivia_more {taken rest : List Char} {blank : Bool} (h : trivia cs = .run taken blank rest) :
    trivia (cs ++ more) = (trivia (rest ++ more)).push taken blank := by
  fun_induction trivia cs generalizing taken blank rest with
  | case1 =>
    cases h
    simp
  | case2 c tail hc ih =>
    cases ht : trivia tail with
    | run taken' blank' rest' =>
      simp only [ht, Trivia.push, Trivia.run.injEq] at h
      obtain ⟨rfl, rfl, rfl⟩ := h
      rw [List.cons_append, trivia_of_isBlank hc, ih ht, Trivia.push_push]
    | unclosed before comment => simp [ht, Trivia.push] at h
  | case3 c tail hc comment after hcomment ih =>
    cases ht : trivia after with
    | run taken' blank' rest' =>
      simp only [ht, Trivia.push, Trivia.run.injEq] at h
      obtain ⟨rfl, rfl, rfl⟩ := h
      have hmore := comment?_more more hcomment
      rw [List.cons_append] at hmore ⊢
      rw [trivia_of_comment (by simpa using hc) hmore, ih ht, Trivia.push_push]
    | unclosed before comment => simp [ht, Trivia.push] at h
  | case4 => cases h
  | case5 =>
    cases h
    simp

lemma isStop_of_singleton {c : Char} (h : Stopped [c]) : c = ';' ∨ c = '}' := by
  obtain ⟨d, hd, hs⟩ := h
  obtain rfl := List.mem_singleton.1 hd
  simpa [isStop] using hs

lemma opensComment_more (h : Stopped cs) : opensComment (cs ++ more) = opensComment cs := by
  cases cs with
  | nil => exact absurd rfl h.ne_nil
  | cons c cs =>
    cases cs with
    | nil => obtain rfl | rfl := isStop_of_singleton h <;> rfl
    | cons d cs =>
      by_cases hc : c = '/'
      · by_cases hd : d = '*' <;> simp [opensComment, hc, hd]
      · simp [opensComment, hc]

lemma trivia_eq_stop {c : Char} (h : trivia (c :: cs) = .run [] false (c :: cs)) :
    isBlank c = false ∧ opensComment (c :: cs) = false := by
  rw [trivia.eq_def] at h
  dsimp only at h
  split_ifs at h with hb ho
  · cases ht : trivia cs <;> simp [ht, Trivia.push] at h
  · split at h
    · next comment after hc =>
      have hne := comment?_ne_nil hc
      cases ht : trivia after <;> simp [ht, Trivia.push] at h
      exact absurd h.1.1 hne
    · cases h
  · exact ⟨by simpa using hb, by simpa using ho⟩

/-- What begins neither blanks nor a comment still does not when more text follows. -/
lemma trivia_of_stopped (h : trivia cs = .run [] false cs) (hs : Stopped cs) :
    trivia (cs ++ more) = .run [] false (cs ++ more) := by
  cases cs with
  | nil => exact absurd rfl hs.ne_nil
  | cons c cs =>
    obtain ⟨hb, ho⟩ := trivia_eq_stop h
    rw [← opensComment_more more hs] at ho
    exact trivia_of_stop hb ho

/-! ## Look ahead -/

lemma startsDigit_more (h : cs ≠ []) : startsDigit (cs ++ more) = startsDigit cs := by
  cases cs with
  | nil => exact absurd rfl h
  | cons c cs => rfl

lemma startsFraction_more (h : Stopped cs) : startsFraction (cs ++ more) = startsFraction cs := by
  cases cs with
  | nil => exact absurd rfl h.ne_nil
  | cons c cs =>
    by_cases hc : c = '.'
    · subst hc
      exact startsDigit_more more (h.of_cons (by decide)).ne_nil
    · simp [startsFraction, hc]

lemma startsName_more (h : Stopped cs) : startsName (cs ++ more) = startsName cs := by
  cases cs with
  | nil => exact absurd rfl h.ne_nil
  | cons c cs =>
    cases cs with
    | nil => obtain rfl | rfl := isStop_of_singleton h <;> rfl
    | cons d cs => by_cases hc : c = '-' <;> simp [startsName, hc]

lemma spanSign_more (h : Stopped cs) :
    spanSign (cs ++ more) = ((spanSign cs).1, (spanSign cs).2 ++ more) ∧ Stopped (spanSign cs).2 := by
  cases cs with
  | nil => exact absurd rfl h.ne_nil
  | cons c cs =>
    by_cases hplus : c = '+'
    · subst hplus
      exact ⟨rfl, h.of_cons (by decide)⟩
    · by_cases hminus : c = '-'
      · subst hminus
        exact ⟨rfl, h.of_cons (by decide)⟩
      · simpa [spanSign, hplus, hminus] using h

lemma startsNumber_more (h : Stopped cs) : startsNumber (cs ++ more) = startsNumber cs := by
  obtain ⟨hsign, hrest⟩ := spanSign_more more h
  unfold startsNumber
  rw [hsign]
  simp only [startsDigit_more more hrest.ne_nil, startsFraction_more more hrest]

lemma spanWhile_more {p : Char → Bool} (h : (spanWhile p cs).2 ≠ []) :
    spanWhile p (cs ++ more) = ((spanWhile p cs).1, (spanWhile p cs).2 ++ more) := by
  have hlen : (cs.takeWhile p).length ≠ cs.length := by
    intro he
    apply h
    have := congrArg List.length (spanWhile_append p cs)
    simp only [spanWhile, List.length_append] at this
    exact List.length_eq_zero_iff.1 (show (cs.dropWhile p).length = 0 by omega)
  simp only [spanWhile, ne_eq] at h
  simp [spanWhile, List.takeWhile_append, List.dropWhile_append, hlen, h]

/-! ## Tokens -/

lemma quoted_cons {quote c : Char} {rest : List Char} (hc : c ≠ '\\') :
    quoted quote (c :: rest) =
      if c = quote then ⟨some [], [c], rest⟩
      else if c = '\n' then ⟨none, [c], rest⟩
      else ⟨(quoted quote rest).value.map (c :: ·), c :: (quoted quote rest).taken, (quoted quote rest).rest⟩ := by
  rw [quoted]
  · rintro rfl
    exact absurd rfl hc
  · rintro d rest rfl
    exact absurd rfl hc

/-- A character that is not read as an escape is none. -/
lemma ne_backslash {c : Char} {rest : List Char} (h₁ : c = '\\' → rest = [] → False)
    (h₂ : ∀ d tail, c = '\\' → rest = d :: tail → False) : c ≠ '\\' := by
  intro hc
  cases rest with
  | nil => exact h₁ hc rfl
  | cons d tail => exact h₂ d tail hc rfl

/-- A string that is closed is read from its own characters, whatever stands behind it. -/
lemma quoted_taken {quote : Char} (h : (quoted quote cs).value.isSome = true) :
    quoted quote ((quoted quote cs).taken ++ more) = { quoted quote cs with rest := more } := by
  fun_induction quoted quote cs with
  | case1 => cases h
  | case2 => cases h
  | case3 c rest cut ih =>
    have hcut : cut.value.isSome = true := by
      simp only at h
      split_ifs at h
      · exact h
      · simpa using h
    rw [List.cons_append, List.cons_append, quoted, ih hcut]
  | case4 rest h₁ h₂ =>
    rw [List.cons_append, quoted_cons (ne_backslash h₁ h₂), if_pos rfl]
    rfl
  | case5 => cases h
  | case6 c rest h₁ h₂ hq hn cut ih =>
    have hcut : cut.value.isSome = true := by simpa using h
    rw [List.cons_append, quoted_cons (ne_backslash h₁ h₂), if_neg hq, if_neg hn, ih hcut]

lemma quoted_more {quote : Char} (h : (quoted quote cs).value.isSome = true) :
    quoted quote (cs ++ more) = (quoted quote cs).before more := by
  have htiles : (quoted quote cs).taken ++ (quoted quote cs).rest = cs := quoted_tiles quote cs
  have hread := quoted_taken ((quoted quote cs).rest ++ more) h
  rw [← List.append_assoc, htiles] at hread
  exact hread

lemma spanWhile_of_ends {p : Char → Bool} {front rest : List Char} (hf : ∀ c ∈ front, p c = true)
    (hr : ∀ c ∈ rest.head?, p c = false) : spanWhile p (front ++ rest) = (front, rest) := by
  unfold spanWhile
  rw [List.takeWhile_append_of_pos hf, List.dropWhile_append_of_pos hf]
  cases rest with
  | nil => simp
  | cons c rest => simp [hr c rfl]

lemma spanWhile_all {p : Char → Bool} {c : Char} (h : c ∈ (spanWhile p cs).1) : p c = true :=
  List.all_eq_true.1 List.all_takeWhile c h

lemma closeUrl_taken {value : List Char} (h : (closeUrl cs).value = .ok value) :
    closeUrl ((closeUrl cs).taken ++ more) = { closeUrl cs with rest := more } := by
  unfold closeUrl at h ⊢
  simp only at h ⊢
  split at h
  · next rest hrest =>
    have hspan : spanWhile isBlank ((spanWhile isBlank cs).1 ++ ')' :: more) =
        ((spanWhile isBlank cs).1, ')' :: more) := by
      apply spanWhile_of_ends
      · intro c hc
        exact spanWhile_all hc
      · intro c hc
        cases hc
        rfl
    rw [List.append_assoc, List.singleton_append, hspan]
    rfl
  · cases h
  · cases h

lemma urlBody_cons {c : Char} {rest : List Char} (hc : c ≠ '\\') :
    urlBody (c :: rest) =
      if c = ')' then ⟨.ok [], [c], rest⟩
      else if isBlank c then ⟨(closeUrl rest).value, c :: (closeUrl rest).taken, (closeUrl rest).rest⟩
      else if c = '"' ∨ c = '\'' ∨ c = '(' then ⟨.error .character, [c], rest⟩
      else ⟨(urlBody rest).value.map (c :: ·), c :: (urlBody rest).taken, (urlBody rest).rest⟩ := by
  rw [urlBody]
  · rintro rfl
    exact absurd rfl hc
  · rintro d rest rfl
    exact absurd rfl hc

lemma map_eq_ok {ε α β : Type} {x : Except ε α} {f : α → β} {b : β} (h : x.map f = .ok b) :
    ∃ a, x = .ok a := by
  cases x with
  | error e => cases h
  | ok a => exact ⟨a, rfl⟩

lemma urlBody_taken (h : ∃ value, (urlBody cs).value = .ok value) :
    urlBody ((urlBody cs).taken ++ more) = { urlBody cs with rest := more } := by
  fun_induction urlBody cs with
  | case1 => simp at h
  | case2 => simp at h
  | case3 c rest cut ih =>
    obtain ⟨v, h⟩ := h
    rw [List.cons_append, List.cons_append, urlBody, ih (map_eq_ok h)]
  | case4 rest h₁ h₂ =>
    rw [List.cons_append, urlBody_cons (by decide), if_pos rfl]
    rfl
  | case5 c rest h₁ h₂ hp hb cut =>
    obtain ⟨v, h⟩ := h
    rw [List.cons_append, urlBody_cons (ne_backslash h₁ h₂), if_neg hp, if_pos hb, closeUrl_taken more h]
  | case6 => simp at h
  | case7 c rest h₁ h₂ hp hb hq cut ih =>
    obtain ⟨v, h⟩ := h
    rw [List.cons_append, urlBody_cons (ne_backslash h₁ h₂), if_neg hp, if_neg hb, if_neg hq, ih (map_eq_ok h)]

lemma urlBody_more (h : ∃ value, (urlBody cs).value = .ok value) :
    urlBody (cs ++ more) = (urlBody cs).before more := by
  have htiles : (urlBody cs).taken ++ (urlBody cs).rest = cs := urlBody_tiles cs
  have hread := urlBody_taken ((urlBody cs).rest ++ more) h
  rw [← List.append_assoc, htiles] at hread
  exact hread

lemma spanFraction_point (rest : List Char) :
    spanFraction ('.' :: rest) =
      if startsDigit rest then ('.' :: (spanWhile Char.isDigit rest).1, (spanWhile Char.isDigit rest).2)
      else ([], '.' :: rest) := rfl

lemma spanFraction_more (h : Stopped (spanFraction cs).2) :
    spanFraction (cs ++ more) = ((spanFraction cs).1, (spanFraction cs).2 ++ more) := by
  cases cs with
  | nil => exact absurd rfl h.ne_nil
  | cons c cs =>
    by_cases hc : c = '.'
    · subst hc
      have hne : cs ≠ [] := by
        rintro rfl
        exact absurd (isStop_of_singleton h) (by decide)
      rw [spanFraction_point] at h
      rw [List.cons_append, spanFraction_point, spanFraction_point, startsDigit_more more hne]
      split_ifs at h ⊢
      · rw [spanWhile_more more h.ne_nil]
      · rfl
    · simp [spanFraction, hc]

lemma spanExponent_more (h : Stopped (spanExponent cs).2) :
    spanExponent (cs ++ more) = ((spanExponent cs).1, (spanExponent cs).2 ++ more) := by
  cases cs with
  | nil => exact absurd rfl h.ne_nil
  | cons e rest =>
    have hcs : Stopped (e :: rest) := by
      rw [← spanExponent_append (e :: rest)]
      exact h.append
    by_cases he : isStop e = true
    · have hne : (e == 'e' || e == 'E') = false := by
        simp only [isStop, Bool.or_eq_true, decide_eq_true_eq] at he
        obtain rfl | rfl := he <;> rfl
      simp [spanExponent, hne]
    · obtain ⟨hsign, htail⟩ := spanSign_more more (hcs.of_cons (by simpa using he))
      simp only [spanExponent, List.cons_append, hsign, startsDigit_more more htail.ne_nil] at h ⊢
      split_ifs at h ⊢ with hc
      · rw [spanWhile_more more h.ne_nil]
      · rfl

/-- A number goes no further when text is written behind the mark that follows it. -/
lemma spanNumber_more (h : Stopped (spanNumber cs).2) :
    spanNumber (cs ++ more) = ((spanNumber cs).1, (spanNumber cs).2 ++ more) := by
  simp only [spanNumber] at h ⊢
  have h₃ : Stopped (spanFraction (spanWhile Char.isDigit (spanSign cs).2).2).2 := by
    rw [← spanExponent_append (spanFraction _).2]
    exact h.append
  have h₂ : Stopped (spanWhile Char.isDigit (spanSign cs).2).2 := by
    rw [← spanFraction_append (spanWhile _ _).2]
    exact h₃.append
  have h₁ : Stopped (spanSign cs).2 := by
    rw [← spanWhile_append Char.isDigit (spanSign cs).2]
    exact h₂.append
  have h₀ : Stopped cs := by
    rw [← spanSign_append cs]
    exact h₁.append
  rw [(spanSign_more more h₀).1]
  simp only [spanWhile_more more h₂.ne_nil, spanFraction_more more h₃, spanExponent_more more h]

lemma string_more {quote : Char} {t : Token} (h : (string quote cs).value = .ok t) :
    string quote (cs ++ more) = (string quote cs).before more := by
  have hsome : (quoted quote cs).value.isSome = true := by
    unfold string at h
    cases hv : (quoted quote cs).value with
    | none => simp [hv] at h
    | some v => rfl
  unfold string
  rw [quoted_more more hsome]
  rfl

lemma hash_more (h : (hash cs).rest ≠ []) : hash (cs ++ more) = (hash cs).before more := by
  have hspan : (spanWhile isNameChar cs).2 ≠ [] := h
  have hname : startsName (cs ++ more) = startsName cs := by
    cases cs with
    | nil => exact absurd rfl hspan
    | cons c cs =>
      cases cs with
      | nil =>
        by_cases hc : c = '-'
        · subst hc
          exact absurd rfl hspan
        · simp [startsName, hc]
      | cons d cs => by_cases hc : c = '-' <;> simp [startsName, hc]
  unfold hash
  rw [spanWhile_more more hspan]
  simp only [hname, Cut.before]

lemma atKeyword_cons (c : Char) (rest : List Char) :
    atKeyword (c :: rest) =
      if isNameStart c then
        ⟨.ok (.atKeyword (String.ofList (spanWhile isNameChar (c :: rest)).1)),
          '@' :: (spanWhile isNameChar (c :: rest)).1, (spanWhile isNameChar (c :: rest)).2⟩
      else ⟨.ok (.delim '@'), ['@'], c :: rest⟩ := rfl

lemma atKeyword_more (h : (atKeyword cs).rest ≠ []) : atKeyword (cs ++ more) = (atKeyword cs).before more := by
  cases cs with
  | nil => exact absurd rfl h
  | cons c cs =>
    rw [atKeyword_cons] at h
    rw [List.cons_append, atKeyword_cons, atKeyword_cons, ← List.cons_append]
    split_ifs at h ⊢
    · rw [spanWhile_more more h]
      rfl
    · rfl

lemma urlOrFunction_more {name : List Char} {t : Token} (h : (urlOrFunction name cs).value = .ok t) :
    urlOrFunction name (cs ++ more) = (urlOrFunction name cs).before more := by
  unfold urlOrFunction at h ⊢
  simp only at h ⊢
  split at h
  · next hb =>
    rw [spanWhile_more more (by simp [hb])]
    simp [hb, Cut.before]
  · next hb =>
    rw [spanWhile_more more (by simp [hb])]
    simp [hb, Cut.before]
  · next hd hq =>
    simp only at h
    have hok : ∃ value, (urlBody (spanWhile isBlank cs).2).value = .ok value := by
      cases hv : (urlBody (spanWhile isBlank cs).2).value with
      | error e => simp [hv] at h
      | ok v => exact ⟨v, rfl⟩
    have hne : (spanWhile isBlank cs).2 ≠ [] := by
      intro he
      rw [he] at hok
      simp [urlBody] at hok
    obtain ⟨c, body, hbody⟩ := List.exists_cons_of_ne_nil hne
    rw [spanWhile_more more hne]
    simp only
    split
    · next tail hb =>
      rw [hbody, List.cons_append, List.cons.injEq] at hb
      exact absurd (by rw [hbody, hb.1]) (hd body)
    · next tail hb =>
      rw [hbody, List.cons_append, List.cons.injEq] at hb
      exact absurd (by rw [hbody, hb.1]) (hq body)
    · rw [urlBody_more more hok]
      rfl

lemma nameLike_more {t : Token} (h : (nameLike cs).value = .ok t) (hr : (nameLike cs).rest ≠ []) :
    nameLike (cs ++ more) = (nameLike cs).before more := by
  unfold nameLike at h hr ⊢
  simp only at h hr ⊢
  split at h
  · next rest hrest =>
    rw [spanWhile_more more (by simp [hrest])]
    simp only [hrest, List.cons_append]
    split_ifs at h ⊢
    · exact urlOrFunction_more more h
    · rfl
  · next hparen =>
    simp only at hr
    obtain ⟨c, rest, hrest⟩ := List.exists_cons_of_ne_nil hr
    rw [spanWhile_more more hr]
    simp only
    split
    · next tail hb =>
      rw [hrest, List.cons_append, List.cons.injEq] at hb
      exact absurd (by rw [hrest, hb.1]) (hparen rest)
    · rfl

/-- A percent sign or a unit lies between a number and what follows. -/
lemma stopped_spanNumber (h : Stopped (numeric cs).rest) : Stopped (spanNumber cs).2 := by
  unfold numeric at h
  simp only at h
  split at h
  · exact h
  · split at h
    · next rest hrest =>
      rw [hrest]
      exact (h.append : Stopped (['%'] ++ rest))
    · split_ifs at h
      · rw [← spanWhile_append isNameChar (spanNumber cs).2]
        exact h.append
      · exact h

lemma numeric_more {t : Token} (h : (numeric cs).value = .ok t) (hr : Stopped (numeric cs).rest) :
    numeric (cs ++ more) = (numeric cs).before more := by
  have hnumber := stopped_spanNumber hr
  unfold numeric at h hr ⊢
  rw [spanNumber_more more hnumber]
  simp only at h hr ⊢
  cases hv : Numeral.binary64? (spanNumber cs).1 with
  | none => simp [hv] at h
  | some v =>
    simp only [hv] at hr ⊢
    obtain ⟨c, rest, hrest⟩ := List.exists_cons_of_ne_nil hnumber.ne_nil
    by_cases hc : c = '%'
    · subst hc
      simp [hrest, Cut.before]
    · have hname := startsName_more more hnumber
      rw [hrest] at hr hname
      simp only [hrest, List.cons_append] at hname ⊢
      split
      · next he => exact absurd (List.cons.inj he).1 hc
      · split at hr
        · next he => exact absurd (List.cons.inj he).1 hc
        · rw [hname]
          split_ifs at hr ⊢
          · rw [← List.cons_append, spanWhile_more more hr.ne_nil]
            rfl
          · rfl

lemma readToken_of_mark {c : Char} {t : Token} (hp : Token.punctuation? c = some t) (rest : List Char) :
    readToken (c :: rest) = ⟨.ok t, [c], rest⟩ := by
  simp only [readToken, hp]

lemma readToken_of_word {c : Char} (hp : Token.punctuation? c = none) (rest : List Char) :
    readToken (c :: rest) =
      if c = '"' ∨ c = '\'' then string c rest
      else if c = '#' then hash rest
      else if c = '@' then atKeyword rest
      else if startsNumber (c :: rest) then numeric (c :: rest)
      else if startsName (c :: rest) then nameLike (c :: rest)
      else ⟨.ok (.delim c), [c], rest⟩ := by
  simp only [readToken, hp]

/-- A token with a mark somewhere behind it is read as before. -/
lemma readToken_more {t : Token} (h : (readToken cs).value = .ok t) (hr : Stopped (readToken cs).rest) :
    readToken (cs ++ more) = (readToken cs).before more := by
  have hcs : Stopped cs := by
    rw [← show (readToken cs).taken ++ (readToken cs).rest = cs from readToken_tiles cs]
    exact hr.append
  cases cs with
  | nil => exact absurd rfl hcs.ne_nil
  | cons c rest =>
    cases hp : Token.punctuation? c with
    | some token =>
      rw [List.cons_append, readToken_of_mark hp, readToken_of_mark hp]
      rfl
    | none =>
      rw [readToken_of_word hp] at h hr ⊢
      rw [List.cons_append, readToken_of_word hp, ← List.cons_append, startsNumber_more more hcs,
        startsName_more more hcs]
      split_ifs at h hr ⊢
      · exact string_more more h
      · exact hash_more more hr.ne_nil
      · exact atKeyword_more more hr.ne_nil
      · exact numeric_more more h hr
      · exact nameLike_more more h hr.ne_nil
      · rfl

lemma isStop_of_punctuation {c : Char} {t : Token} (hp : Token.punctuation? c = some t)
    (ht : t.isStop = true) : isStop c = true := by
  simp only [Token.isStop, Bool.or_eq_true, decide_eq_true_eq] at ht
  unfold Token.punctuation? at hp
  obtain rfl | rfl := ht <;> split at hp <;> simp_all [isStop]

/-- The marks that end statements and blocks are read from their own characters. -/
lemma readToken_stop {t : Token} {text rest : List Char} (h : readToken cs = ⟨.ok t, text, rest⟩)
    (ht : t.isStop = true) : ∃ c, cs = c :: rest ∧ Token.punctuation? c = some t ∧ isStop c = true := by
  cases cs with
  | nil =>
    simp only [readToken, Cut.mk.injEq, Except.ok.injEq] at h
    rw [← h.1] at ht
    cases ht
  | cons c cs =>
    obtain hp | hw := readToken_cons (by rw [h] : (readToken (c :: cs)).value = .ok t)
    · rw [readToken_of_mark hp] at h
      cases h
      exact ⟨c, rfl, hp, isStop_of_punctuation hp ht⟩
    · simp only [Token.isStop, Bool.or_eq_true, decide_eq_true_eq] at ht
      obtain rfl | rfl := ht <;> cases hw

/-- One step is the same when text is written behind a mark that it reads or leaves unread. -/
lemma step_more {gap text rest : List Char} {t : Token} (h : step cs = .token gap t text rest)
    (hs : Stopped rest ∨ t.isStop = true) : step (cs ++ more) = .token gap t text (rest ++ more) := by
  obtain ⟨rfl, rfl, hb⟩ | ⟨cs', ht, hr⟩ := step_eq_token_iff.1 h
  · obtain hs | hs := hs
    · apply step_eq_token_iff.2
      left
      refine ⟨rfl, rfl, ?_⟩
      rw [trivia_more more hb, trivia_of_stopped more (trivia_rest hb) hs]
      simp [Trivia.push]
    · cases hs
  · have htiles : text ++ rest = cs' := by
      have := readToken_tiles cs'
      rwa [hr] at this
    have hmore : Stopped cs' ∧ readToken (cs' ++ more) = ⟨.ok t, text, rest ++ more⟩ := by
      obtain hs | hs := hs
      · refine ⟨htiles ▸ hs.append, ?_⟩
        rw [readToken_more more (by rw [hr]) (by rwa [hr]), hr]
        rfl
      · obtain ⟨c, rfl, hp, hc⟩ := readToken_stop hr hs
        refine ⟨⟨c, List.mem_cons_self, hc⟩, ?_⟩
        rw [readToken_of_mark hp] at hr
        cases hr
        exact readToken_of_mark hp _
    apply step_eq_token_iff.2
    right
    refine ⟨cs' ++ more, ?_, hmore.2⟩
    rw [trivia_more more ht, trivia_of_stopped more (trivia_rest ht) hmore.1]
    simp [Trivia.push]

end More

/-! ## Whole texts -/

section Reads
variable {p : Location} {cs : List Char}

lemma stopped_of_step {gap text rest : List Char} {t : Token} (h : step cs = .token gap t text rest)
    (ht : t.isStop = true) : Stopped cs := by
  obtain ⟨rfl, -, -⟩ | ⟨cs', htrivia, hr⟩ := step_eq_token_iff.1 h
  · cases ht
  · obtain ⟨c, rfl, -, hc⟩ := readToken_stop hr ht
    have hcs := trivia_append cs
    rw [htrivia] at hcs
    rw [← hcs]
    exact Stopped.append ⟨c, List.mem_cons_self, hc⟩

/-- A text in which such a mark is read holds its character. -/
lemma Reads.stopped {ls : List Lexeme} {stop : Option Fault} (h : Reads p cs ls stop) {l : Lexeme}
    (hl : l ∈ ls) (ht : l.token.isStop = true) : Stopped cs := by
  induction ls generalizing p cs with
  | nil => cases hl
  | cons m ls ih =>
    obtain ⟨-, rest, hs, hrest⟩ := h.step
    obtain rfl | hl := List.mem_cons.1 hl
    · exact stopped_of_step hs ht
    · split_ifs at hrest
      · rw [hrest.1] at hl
        cases hl
      · have hcs := step_append cs
        rw [hs] at hcs
        rw [← hcs]
        exact (ih hrest hl).append

/-- What is read up to a mark is read when text is written behind, and reading goes on from there. -/
lemma Reads.more {body tail : List Lexeme} (h : Reads p cs (body ++ tail) none)
    (hbody : ∀ l ∈ body.getLast?, l.token.isStop = true) :
    ∃ q rest, Reads q rest tail none ∧
      ∀ more ms, Reads q (rest ++ more) ms none → Reads p (cs ++ more) (body ++ ms) none := by
  induction body generalizing p cs with
  | nil => exact ⟨p, cs, h, fun more ms hms => hms⟩
  | cons l body ih =>
    obtain ⟨hplace, rest, hs, hrest⟩ := h.step
    have hstop : ∃ z ∈ l :: body, z.token.isStop = true := by
      refine ⟨(l :: body).getLast (by simp), List.getLast_mem _, hbody _ ?_⟩
      exact List.getLast?_eq_some_getLast _
    have hne : l.token ≠ .eof := by
      intro he
      rw [if_pos he] at hrest
      obtain ⟨z, hz, ht⟩ := hstop
      obtain rfl : z = l := by simpa [(List.append_eq_nil_iff.1 hrest.1).1] using hz
      rw [he] at ht
      cases ht
    rw [if_neg hne] at hrest
    have hmark : Stopped rest ∨ l.token.isStop = true := by
      obtain ⟨z, hz, ht⟩ := hstop
      obtain rfl | hz := List.mem_cons.1 hz
      · exact Or.inr ht
      · exact Or.inl (hrest.stopped (List.mem_append_left tail hz) ht)
    have hlast : ∀ z ∈ body.getLast?, z.token.isStop = true := by
      intro z hz
      apply hbody
      cases body with
      | nil => cases hz
      | cons m body => simpa using hz
    obtain ⟨q, rest', htail, hread⟩ := ih hrest hlast
    refine ⟨q, rest', htail, ?_⟩
    intro more ms hms
    subst hplace
    exact reads_of_step (step_more more hs hmark) hne (hread more ms hms)

/-- At the end of a text, blanks in front of it included, there are only blanks and comments left. -/
lemma Reads.trivia_eq {blanks : List Lexeme} {e : Lexeme} (h : Reads p cs (blanks ++ [e]) none)
    (hb : ∀ l ∈ blanks, l.token = .whitespace) (he : e.token = .eof) : ∃ blank, trivia cs = .run cs blank [] := by
  have hend {p : Location} {cs : List Char} (h : Reads p cs [e] none) : trivia cs = .run e.gap false [] := by
    obtain ⟨-, rest, hs, -⟩ := h.step
    rw [he] at hs
    exact trivia_of_step_eof hs
  have hwhole {taken : List Char} {blank : Bool} (ht : trivia cs = .run taken blank []) : taken = cs := by
    have := trivia_append cs
    rw [ht] at this
    simpa [Trivia.taken, Trivia.rest] using this
  cases blanks with
  | nil =>
    have ht := hend h
    exact ⟨false, hwhole ht ▸ ht⟩
  | cons w blanks =>
    obtain ⟨hw, hblanks⟩ := List.forall_mem_cons.1 hb
    have hrow := Lexeme.row_of_ne_eof h.row (by simp [hw])
    obtain ⟨-, rest, hs, hrest⟩ := h.step
    rw [if_neg (by simp [hw])] at hrest
    rw [hw] at hs
    obtain rfl : blanks = [] := by
      cases blanks with
      | nil => rfl
      | cons v blanks => exact absurd (hblanks v List.mem_cons_self) (hrow.2.1 hw v rfl)
    have hblank := trivia_of_step_whitespace hs
    have ht := hend hrest
    rw [trivia_rest hblank] at ht
    obtain ⟨-, -, rfl⟩ := Trivia.run.inj ht
    exact ⟨true, hwhole hblank ▸ hblank⟩

/-- What becomes of the lexemes of a text when blanks or comments are written in front of it. -/
inductive Resumes : List Lexeme → List Lexeme → Prop
  | mk {w ls ms : List Lexeme} {l m : Lexeme} (hw : Lexeme.Blank w) (ht : m.token = l.token)
      (hx : l.token ≠ .whitespace → m.text = l.text) (h : Lexeme.Alike ls ms) : Resumes (l :: ls) (w ++ m :: ms)

/-- A first lexeme read with other comments in front of it, or at another place, leads to the same others. -/
lemma reads_of_first {q : Location} {l : Lexeme} {ls : List Lexeme} {gap text rest : List Char}
    (hs : step cs = .token gap l.token text rest)
    (hrest : if l.token = .eof then ls = [] ∧ (none : Option Fault) = none else Reads l.after rest ls none) :
    ∃ ms, Reads q cs (⟨l.token, gap, text, q⟩ :: ms) none ∧ Lexeme.Alike ls ms := by
  split_ifs at hrest with he
  · obtain ⟨rfl, -⟩ := hrest
    rw [he] at hs ⊢
    exact ⟨[], reads_of_step_eof hs, rfl⟩
  · obtain ⟨ms, hms, hlike⟩ := hrest.relocate (Lexeme.after ⟨l.token, gap, text, q⟩)
    exact ⟨ms, reads_of_step hs he hms, hlike⟩

lemma Reads.resume {ds : List Char} {blank : Bool} {ls : List Lexeme} (hcs : trivia cs = .run cs blank [])
    (h : Reads p ds ls none) (q : Location) : ∃ ms, Reads q (cs ++ ds) ms none ∧ Resumes ls ms := by
  have htrivia : trivia (cs ++ ds) = (trivia ds).push cs blank := trivia_more ds hcs
  obtain ⟨l, ls, rfl⟩ := List.exists_cons_of_ne_nil (show ls ≠ [] by rintro rfl; cases h.stop_isSome)
  obtain ⟨-, rest, hs, hrest⟩ := h.step
  obtain ⟨hw, -, hb⟩ | ⟨ds', ht, hr⟩ := step_eq_token_iff.1 hs
  · rw [hb] at htrivia
    have hstep : Lexer.step (cs ++ ds) = .token [] l.token (cs ++ l.text) rest :=
      step_eq_token_iff.2 (Or.inl ⟨hw, rfl, by simp [htrivia, Trivia.push]⟩)
    obtain ⟨ms, hms, hlike⟩ := reads_of_first hstep hrest
    exact ⟨_, hms, .mk .none rfl (fun hne => absurd hw hne) hlike⟩
  · rw [ht] at htrivia
    cases blank with
    | false =>
      have hstep : Lexer.step (cs ++ ds) = .token (cs ++ l.gap) l.token l.text rest :=
        step_eq_token_iff.2 (Or.inr ⟨ds', by simp [htrivia, Trivia.push], hr⟩)
      obtain ⟨ms, hms, hlike⟩ := reads_of_first hstep hrest
      exact ⟨_, hms, .mk .none rfl (fun _ => rfl) hlike⟩
    | true =>
      have hblank : Lexer.step (cs ++ ds) = .token [] .whitespace (cs ++ l.gap) ds' :=
        step_eq_token_iff.2 (Or.inl ⟨rfl, rfl, by simp [htrivia, Trivia.push]⟩)
      have hstep : Lexer.step ds' = .token [] l.token l.text rest :=
        step_eq_token_iff.2 (Or.inr ⟨ds', trivia_rest ht, hr⟩)
      obtain ⟨ms, hms, hlike⟩ := reads_of_first hstep hrest
      refine ⟨_, reads_of_step hblank (by simp) hms, ?_⟩
      exact .mk (.run rfl) rfl (fun _ => rfl) hlike

end Reads

end Lexer

end Stylebook
