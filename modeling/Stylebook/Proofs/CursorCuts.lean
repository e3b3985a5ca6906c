import Mathlib.Tactic.SplitIfs
import Stylebook.Proofs.Cuts

/-! The readers pass exactly what they take from the text. With the position, line and column that a cursor counts
put aside, what it reads depends on the characters left only, and places on the place it stands at. -/
namespace Stylebook.Lexer
open Text

namespace Cursor

section Fronts
variable {c d : Cursor} {x : Char} {front rest : List Char}

lemma rest_past_of_append (h : front ++ rest = c.rest) : (c.past front).rest = rest := by
  rw [rest_past, ← h, List.drop_left]

lemma advance_eq_some_iff : c.advance = (some x, d) ↔ c.rest = x :: d.rest ∧ d = c.pass x := by
  constructor
  · intro h
    have hrest := rest_of_advance h
    rw [advance_of_cons hrest, Prod.mk.injEq] at h
    exact ⟨hrest, h.2.symm⟩
  · rintro ⟨hrest, rfl⟩
    exact advance_of_cons hrest

lemma advance_eq_none_iff : c.advance = (none, d) ↔ c.rest = [] ∧ d = c := by
  constructor
  · intro h
    cases hc : c.rest with
    | nil =>
      rw [advance_of_nil hc, Prod.mk.injEq] at h
      exact ⟨rfl, h.2.symm⟩
    | cons x cs =>
      rw [advance_of_cons hc] at h
      cases h
  · rintro ⟨hrest, rfl⟩
    exact advance_of_nil hrest

lemma peek_eq_some_iff : c.peek = some x ↔ ∃ rest, c.rest = x :: rest := List.head?_eq_some_iff

lemma peek_eq_none_iff : c.peek = none ↔ c.rest = [] := List.head?_eq_none_iff

lemma advanceWhile_eq (p : Char → Bool) (c : Cursor) : c.advanceWhile p = c.past (c.rest.takeWhile p) := by
  fun_induction advanceWhile p c with
  | case1 c x hx hp ih =>
    obtain ⟨cs, hc⟩ := peek_eq_some_iff.mp hx
    have hrest : (c.pass x).rest = cs := rest_pass hc
    rw [advance_of_cons hc] at ih ⊢
    rw [ih, hrest, hc, List.takeWhile_cons_of_pos hp, past_cons]
  | case2 c x hx hp =>
    obtain ⟨cs, hc⟩ := peek_eq_some_iff.mp hx
    rw [hc, List.takeWhile_cons_of_neg hp, past_nil]
  | case3 c hnone =>
    rw [peek_eq_none_iff.mp hnone]
    rfl

lemma slice_advanceWhile (p : Char → Bool) (c : Cursor) : c.slice (c.advanceWhile p) = c.rest.takeWhile p := by
  rw [advanceWhile_eq]
  exact slice_past _ _ List.takeWhile_append_dropWhile.symm

lemma rest_advanceWhile (p : Char → Bool) (c : Cursor) : (c.advanceWhile p).rest = c.rest.dropWhile p := by
  rw [advanceWhile_eq]
  exact rest_past_of_append List.takeWhile_append_dropWhile

end Fronts

/-! ## Blanks and comments -/

lemma closeComment_eq (c : Cursor) : c.closeComment =
    match Lexer.closeComment c.rest with
    | some (body, _) => (true, c.past body)
    | none => (false, c.past c.rest) := by
  fun_induction closeComment c with
  | case1 c d h =>
    obtain ⟨hc, rfl⟩ := advance_eq_none_iff.mp h
    rw [hc]
    rfl
  | case2 c x d h hclose =>
    obtain ⟨rfl, hslash⟩ := hclose
    obtain ⟨hc, rfl⟩ := advance_eq_some_iff.mp h
    obtain ⟨cs, hcs⟩ := peek_eq_some_iff.mp hslash
    rw [hc, hcs, advance_of_cons hcs]
    rfl
  | case3 c x d h hopen ih =>
    obtain ⟨hc, rfl⟩ := advance_eq_some_iff.mp h
    have hnot : ∀ cs, x = '*' → (c.pass x).rest = '/' :: cs → False :=
      fun cs hx hcs => hopen ⟨hx, peek_of_cons hcs⟩
    rw [ih, hc, Lexer.closeComment.eq_3 _ _ hnot]
    cases Lexer.closeComment (c.pass x).rest <;> rfl

/-- What a run of blanks and comments means for a cursor in front of it. -/
def found (blank : Bool) (c : Cursor) : Trivia → Except Fault Bool × Cursor
  | .run taken more _ => (.ok (blank || more), c.past taken)
  | .unclosed before comment =>
    (.error ⟨.unterminatedComment, c.place.past before⟩, c.past (before ++ comment))

lemma found_push (blank more : Bool) (c : Cursor) (cs : List Char) (t : Trivia) :
    c.found blank (t.push cs more) = (c.past cs).found (blank || more) t := by
  cases t <;> simp [found, Trivia.push, past_append, place_past, Bool.or_assoc]

lemma found_blanks (c : Cursor) (cs : List Char) :
    c.found true (Lexer.trivia cs) = (c.past (cs.takeWhile isBlank)).found true (Lexer.trivia (cs.dropWhile isBlank)) := by
  induction cs generalizing c with
  | nil => rfl
  | cons x cs ih =>
    by_cases hx : isBlank x = true
    · rw [trivia_of_isBlank hx, found_push, Bool.or_true, ih, List.takeWhile_cons_of_pos hx,
        List.dropWhile_cons_of_pos hx]
      rfl
    · rw [List.takeWhile_cons_of_neg hx, List.dropWhile_cons_of_neg hx, past_nil]

lemma opens_comment {c : Cursor} (h : c.peek = some '/') (h' : c.peekNth 1 = some '*') :
    ∃ body, c.rest = '/' :: '*' :: body := by
  obtain ⟨cs, hc⟩ := peek_eq_some_iff.mp h
  rw [peekNth, hc, List.getElem?_cons_succ, ← List.head?_eq_getElem?, List.head?_eq_some_iff] at h'
  obtain ⟨body, rfl⟩ := h'
  exact ⟨body, hc⟩

lemma comment_eq {c : Cursor} {body : List Char} (h : c.rest = '/' :: '*' :: body) :
    c.advance.2.advance.2.closeComment =
      match comment? c.rest with
      | some (comment, _) => (true, c.past comment)
      | none => (false, c.past c.rest) := by
  have hslash : (c.pass '/').rest = '*' :: body := rest_pass h
  have hstar : ((c.pass '/').pass '*').rest = body := rest_pass hslash
  rw [advance_of_cons h, advance_of_cons hslash, closeComment_eq, hstar, h, comment?]
  cases Lexer.closeComment body <;> rfl

lemma trivia_eq (blank : Bool) (c : Cursor) : c.trivia blank = c.found blank (Lexer.trivia c.rest) := by
  fun_induction trivia blank c with
  | case1 blank c hnone =>
    rw [peek_eq_none_iff.mp hnone, trivia_nil]
    simp [found]
  | case2 blank c x hx hblank ih =>
    obtain ⟨cs, hc⟩ := peek_eq_some_iff.mp hx
    rw [ih, rest_advanceWhile, advanceWhile_eq, hc, List.takeWhile_cons_of_pos hblank,
      List.dropWhile_cons_of_pos hblank, past_cons, ← found_blanks]
    rw [trivia_of_isBlank hblank, found_push, Bool.or_true]
    rfl
  | case3 blank c x hx hblank hopen d hd ih =>
    obtain ⟨rfl, hstar⟩ := hopen
    obtain ⟨body, hc⟩ := opens_comment hx hstar
    rw [comment_eq hc] at hd
    cases hcomment : comment? c.rest with
    | none => simp [hcomment] at hd
    | some found =>
      rw [hcomment, Prod.mk.injEq] at hd
      obtain ⟨-, rfl⟩ := hd
      have hafter := rest_past_of_append (comment?_append hcomment)
      rw [hc] at hcomment
      rw [ih, hafter, hc, trivia_of_comment (by simpa using hblank) hcomment, found_push, Bool.or_false]
  | case4 blank c x hx hblank hopen d hd =>
    obtain ⟨rfl, hstar⟩ := hopen
    obtain ⟨body, hc⟩ := opens_comment hx hstar
    rw [comment_eq hc] at hd
    cases hcomment : comment? c.rest with
    | some found => simp [hcomment] at hd
    | none =>
      rw [hcomment, Prod.mk.injEq] at hd
      obtain ⟨-, rfl⟩ := hd
      rw [hc] at hcomment ⊢
      rw [trivia_of_unclosed (by simpa using hblank) rfl hcomment]
      rfl
  | case5 blank c x hx hblank hopen =>
    obtain ⟨cs, hc⟩ := peek_eq_some_iff.mp hx
    have hstop : opensComment (x :: cs) = false := by
      unfold opensComment
      split
      · next he =>
        cases he
        exact absurd ⟨rfl, by rw [peekNth, hc]; rfl⟩ hopen
      · rfl
    rw [hc, trivia_of_stop (by simpa using hblank) hstop]
    simp [found]

/-! ## Strings and urls -/

lemma foldl_push (value : String) (cs : List Char) : cs.foldl String.push value = value ++ String.ofList cs := by
  induction cs generalizing value with
  | nil => simp
  | cons x cs ih =>
    rw [List.foldl_cons, ih]
    apply String.toList_injective
    simp

lemma stringBody_eq {quote : Char} (hquote : quote ≠ '\\') (value : String) (c : Cursor) :
    c.stringBody quote value =
      ((quoted quote c.rest).value.map (·.foldl String.push value), c.past (quoted quote c.rest).taken) := by
  fun_induction stringBody quote value c with
  | case1 value c d h =>
    obtain ⟨hc, rfl⟩ := advance_eq_none_iff.mp h
    rw [hc]
    rfl
  | case2 value c d h =>
    obtain ⟨hc, rfl⟩ := advance_eq_some_iff.mp h
    rw [hc]
    simp [quoted, hquote]
  | case3 value c d e h' h =>
    obtain ⟨hc, rfl⟩ := advance_eq_some_iff.mp h
    obtain ⟨hd, rfl⟩ := advance_eq_none_iff.mp h'
    rw [hc, hd]
    rfl
  | case4 value c d e h _ h' ih =>
    obtain ⟨hc, rfl⟩ := advance_eq_some_iff.mp h
    obtain ⟨hd, rfl⟩ := advance_eq_some_iff.mp h'
    rw [ih, hc, hd, quoted]
    rfl
  | case5 value c d y e h' hy h _ ih =>
    obtain ⟨hc, rfl⟩ := advance_eq_some_iff.mp h
    obtain ⟨hd, rfl⟩ := advance_eq_some_iff.mp h'
    rw [ih, hc, hd, quoted, if_neg hy, Option.map_map]
    rfl
  | case6 value c d h hq =>
    obtain ⟨hc, rfl⟩ := advance_eq_some_iff.mp h
    rw [hc]
    simp [quoted, hq]
  | case7 value c x d h hq hb hn ih =>
    obtain ⟨hc, rfl⟩ := advance_eq_some_iff.mp h
    rw [ih, hc]
    simp [quoted, hq, hb, hn, Function.comp_def]

lemma closeUrl_eq {c d : Cursor} {close : Option Char} (h : (c.advanceWhile isBlank).advance = (close, d))
    (value : String) :
    ((if close = some ')' then .ok value else .error .trailing : Except UrlProblem String), d) =
      ((closeUrl c.rest).value.map (·.foldl String.push value), c.past (closeUrl c.rest).taken) := by
  have hrest := rest_advanceWhile isBlank c
  unfold closeUrl spanWhile
  dsimp only
  cases hb : c.rest.dropWhile isBlank with
  | nil =>
    rw [hb] at hrest
    rw [advance_of_nil hrest, advanceWhile_eq, Prod.mk.injEq] at h
    obtain ⟨rfl, rfl⟩ := h
    simp [Except.map]
  | cons x cs =>
    rw [hb] at hrest
    rw [advance_of_cons hrest, advanceWhile_eq, Prod.mk.injEq] at h
    obtain ⟨rfl, rfl⟩ := h
    by_cases hx : x = ')'
    · simp [hx, Except.map, past_append]
    · simp [hx, Except.map, past_append]

lemma urlBody_eq (value : String) (c : Cursor) :
    c.urlBody value =
      ((Lexer.urlBody c.rest).value.map (·.foldl String.push value), c.past (Lexer.urlBody c.rest).taken) := by
  fun_induction urlBody value c with
  | case1 value c d h =>
    obtain ⟨hc, rfl⟩ := advance_eq_none_iff.mp h
    rw [hc]
    rfl
  | case2 value c d h =>
    obtain ⟨hc, rfl⟩ := advance_eq_some_iff.mp h
    rw [hc]
    simp [Lexer.urlBody, Except.map]
  | case3 value c x d h hx hblank close e hclose =>
    obtain ⟨hc, rfl⟩ := advance_eq_some_iff.mp h
    have hslash : x ≠ '\\' := by
      rintro rfl
      exact absurd hblank (by decide)
    rw [closeUrl_eq hclose, hc]
    simp [Lexer.urlBody, hx, hblank, hslash]
  | case4 value c d e h' h _ _ ih =>
    obtain ⟨hc, rfl⟩ := advance_eq_some_iff.mp h
    obtain ⟨hd, rfl⟩ := advance_eq_none_iff.mp h'
    rw [ih, hc, hd]
    rfl
  | case5 value c d y e h' h _ _ ih =>
    obtain ⟨hc, rfl⟩ := advance_eq_some_iff.mp h
    obtain ⟨hd, rfl⟩ := advance_eq_some_iff.mp h'
    rw [ih, hc, hd, Lexer.urlBody]
    cases (Lexer.urlBody ((c.pass '\\').pass y).rest).value <;> rfl
  | case6 value c x d h hx hblank hslash hstop =>
    obtain ⟨hc, rfl⟩ := advance_eq_some_iff.mp h
    rw [hc]
    simp [Lexer.urlBody, hx, hblank, hslash, hstop, Except.map]
  | case7 value c x d h hx hblank hslash hstop ih =>
    obtain ⟨hc, rfl⟩ := advance_eq_some_iff.mp h
    rw [ih, hc]
    cases hv : (Lexer.urlBody (c.pass x).rest).value <;>
      simp [Lexer.urlBody, hx, hblank, hslash, hstop, hv, Except.map]

/-! ## Tokens -/

/-- What a cut off the characters left means for a cursor. -/
def settle (c : Cursor) (cut : Cut Outcome) : Except Fault Token × Cursor :=
  (cut.value.mapError fun e => ⟨e.2, c.place.past e.1⟩, c.past cut.taken)

@[simp] lemma settle_ok (c : Cursor) (token : Token) (taken rest : List Char) :
    c.settle ⟨.ok token, taken, rest⟩ = (.ok token, c.past taken) := rfl

lemma string_eq {c : Cursor} {quote : Char} {rest : List Char} (h : c.rest = quote :: rest) (hquote : quote ≠ '\\') :
    c.string = c.settle (Lexer.string quote rest) := by
  have hpass : (c.pass quote).rest = rest := rest_pass h
  simp only [string, advance_of_cons h, stringBody_eq hquote, hpass, settle, Lexer.string, foldl_push]
  cases (quoted quote rest).value <;> simp [Except.mapError]

lemma name_eq (c : Cursor) : c.name = (String.ofList (c.rest.takeWhile isNameChar), c.past (c.rest.takeWhile isNameChar)) := by
  rw [name, slice_advanceWhile, advanceWhile_eq]

lemma hash_eq {c : Cursor} {rest : List Char} (h : c.rest = '#' :: rest) :
    (.ok c.hash.1, c.hash.2) = c.settle (Lexer.hash rest) := by
  have hpass : (c.pass '#').rest = rest := rest_pass h
  simp [hash, advance_of_cons h, name_eq, hpass, settle, Lexer.hash, spanWhile, Except.mapError]

lemma url_eq (c : Cursor) : c.url =
    ((Lexer.urlBody c.rest).value.mapError (fun problem => ⟨.url problem, c.place⟩) |>.map
      (fun v => .url (String.ofList v)), c.past (Lexer.urlBody c.rest).taken) := by
  simp only [url, urlBody_eq, foldl_push]
  cases (Lexer.urlBody c.rest).value <;> simp [Except.mapError, Except.map]

lemma urlOrFunction_of_quote {name rest : List Char} {quote : Char} (h : (rest.dropWhile isBlank).head? = some quote)
    (hquote : quote = '"' ∨ quote = '\'') :
    urlOrFunction name rest = ⟨.ok (.function (String.ofList name)), name ++ ['('], rest⟩ := by
  obtain ⟨tail, htail⟩ := List.head?_eq_some_iff.mp h
  unfold urlOrFunction spanWhile
  rw [htail]
  rcases hquote with rfl | rfl <;> rfl

/-- Blanks are passed to look for a quote, and taken back when there is one. -/
lemma urlOrFunction_eq {c d : Cursor} {name rest : List Char} (h : c.rest = name ++ '(' :: rest)
    (hd : d = c.past (name ++ ['('])) :
    (let e := d.advanceWhile isBlank
      if e.peek = some '"' ∨ e.peek = some '\'' then (.ok (.function (String.ofList name)), e.rewind d.mark)
      else e.url) = c.settle (urlOrFunction name rest) := by
  have hrest : d.rest = rest := by
    rw [hd]
    exact rest_past_of_append (by simp [h])
  have hpeek : (d.advanceWhile isBlank).peek = (rest.dropWhile isBlank).head? := by
    rw [peek, rest_advanceWhile, hrest]
  dsimp only
  rw [hpeek]
  split_ifs with hquote
  · have hcut : urlOrFunction name rest = ⟨.ok (.function (String.ofList name)), name ++ ['('], rest⟩ := by
      rcases hquote with hq | hq <;> exact urlOrFunction_of_quote hq (by simp)
    rw [(reaches_advanceWhile isBlank d).rewind_mark, hcut, hd]
    rfl
  · unfold urlOrFunction spanWhile
    dsimp only
    split
    · next hb => simp [hb] at hquote
    · next hb => simp [hb] at hquote
    · rw [url_eq, rest_advanceWhile, advanceWhile_eq, hrest, place_past, hd, place_past]
      cases (Lexer.urlBody (rest.dropWhile isBlank)).value <;>
        simp [settle, Except.mapError, Except.map, past_append]

lemma nameLike_eq (c : Cursor) : c.nameLike = c.settle (Lexer.nameLike c.rest) := by
  have hname : c.rest.takeWhile isNameChar ++ c.rest.dropWhile isNameChar = c.rest := List.takeWhile_append_dropWhile
  have hrest := rest_past_of_append hname
  unfold nameLike Lexer.nameLike spanWhile
  rw [name_eq]
  generalize c.rest.takeWhile isNameChar = name, c.rest.dropWhile isNameChar = after at hname hrest ⊢
  dsimp only
  by_cases hopen : (c.past name).peek = some '('
  · obtain ⟨rest, hd⟩ := peek_eq_some_iff.mp hopen
    obtain rfl : after = '(' :: rest := hrest.symm.trans hd
    have hpass : (c.past name).advance.2 = c.past (name ++ ['(']) := by
      rw [advance_of_cons hd, past_append]
      rfl
    rw [if_pos hopen, hpass, String.toList_ofList]
    by_cases hurl : name.map Char.toLower = ['u', 'r', 'l']
    · simp only [if_pos hurl]
      exact urlOrFunction_eq hname.symm rfl
    · simp only [if_neg hurl]
      rfl
  · rw [if_neg hopen]
    split
    · exact absurd (peek_of_cons hrest) hopen
    · rfl

/-! ## Numbers -/

lemma passSign_eq (c : Cursor) : c.passSign = c.past (spanSign c.rest).1 := by
  unfold passSign
  split_ifs with hsign
  · rcases hsign with hsign | hsign <;> obtain ⟨cs, hc⟩ := peek_eq_some_iff.mp hsign <;>
      rw [advance_of_cons hc, hc] <;> rfl
  · unfold spanSign
    split
    · next hc => simp [peek, hc] at hsign
    · next hc => simp [peek, hc] at hsign
    · rfl

lemma passFraction_eq (c : Cursor) : c.passFraction = c.past (spanFraction c.rest).1 := by
  unfold passFraction
  cases hc : c.rest with
  | nil => rfl
  | cons x rest =>
    have hpass : (c.pass x).rest = rest := rest_pass hc
    by_cases hx : x = '.'
    · subst hx
      rw [advance_of_cons hc, advanceWhile_eq, hpass]
      simp only [startsFraction, spanFraction]
      split_ifs <;> rfl
    · simp [startsFraction, spanFraction, hx]

lemma passExponent_eq (c : Cursor) : c.passExponent = c.past (spanExponent c.rest).1 := by
  unfold passExponent
  cases hc : c.rest with
  | nil => simp [peek, hc, spanExponent]
  | cons e rest =>
    have hpass : (c.pass e).rest = rest := rest_pass hc
    have hsign : ((c.pass e).past (spanSign rest).1).rest = (spanSign rest).2 :=
      rest_past_of_append (by rw [hpass, spanSign_append])
    simp only [peek_of_cons hc, Option.some.injEq, List.tail_cons, spanExponent, Bool.and_eq_true, Bool.or_eq_true,
      beq_iff_eq]
    split_ifs
    · rw [advance_of_cons hc, passSign_eq, advanceWhile_eq, hpass, hsign, spanWhile, List.cons_append, past_cons,
        past_append]
    · rfl

lemma passNumber_eq (c : Cursor) : c.passNumber = c.past (spanNumber c.rest).1 := by
  have hsign := rest_past_of_append (spanSign_append c.rest)
  have hwhole := rest_past_of_append ((spanWhile_append Char.isDigit (spanSign c.rest).2).trans hsign.symm)
  have hfraction := rest_past_of_append
    ((spanFraction_append (spanWhile Char.isDigit (spanSign c.rest).2).2).trans hwhole.symm)
  have htake : (spanSign c.rest).2.takeWhile Char.isDigit = (spanWhile Char.isDigit (spanSign c.rest).2).1 := rfl
  unfold passNumber spanNumber
  dsimp only
  rw [passSign_eq, advanceWhile_eq, hsign, htake, passFraction_eq, hwhole, passExponent_eq, hfraction, past_append,
    past_append, past_append]

lemma numeric_eq (c : Cursor) : c.numeric = c.settle (Lexer.numeric c.rest) := by
  have hrest := rest_past_of_append (spanNumber_append c.rest)
  have hslice : c.slice (c.past (spanNumber c.rest).1) = (spanNumber c.rest).1 :=
    slice_past _ _ (spanNumber_append c.rest).symm
  unfold numeric Lexer.numeric
  rw [passNumber_eq]
  dsimp only
  rw [hslice]
  generalize spanNumber c.rest = s at hrest ⊢
  obtain ⟨text, rest⟩ := s
  dsimp only at hrest ⊢
  cases Numeral.binary64? text with
  | none => rfl
  | some value =>
    dsimp only
    by_cases hpercent : (c.past text).peek = some '%'
    · obtain ⟨cs, hc⟩ := peek_eq_some_iff.mp hpercent
      obtain rfl : rest = '%' :: cs := hrest.symm.trans hc
      simp [hpercent, advance_of_cons hc, past_append]
    · have hnot : ∀ cs, rest = '%' :: cs → False := fun cs hcs => hpercent (peek_of_cons (hrest.trans hcs))
      rw [if_neg hpercent, hrest]
      split
      · split
        · exact (hnot _ rfl).elim
        · simp [*, name_eq, spanWhile, past_append]
      · split
        · exact (hnot _ rfl).elim
        · simp [*]

lemma atKeyword_eq {c : Cursor} {rest : List Char} (h : c.rest = '@' :: rest) :
    c.settle (Lexer.atKeyword rest) =
      if (c.peekNth 1).any isNameStart then (.ok (.atKeyword c.advance.2.name.1), c.advance.2.name.2)
      else (.ok (.delim '@'), c.advance.2) := by
  have hpass : (c.pass '@').rest = rest := rest_pass h
  cases rest with
  | nil => simp [peekNth, h, Lexer.atKeyword, advance_of_cons h]
  | cons x rest =>
    simp only [peekNth, h, Lexer.atKeyword, advance_of_cons h, name_eq, hpass, spanWhile]
    by_cases hx : isNameStart x = true
    · simp [hx]
    · simp [hx]

lemma readToken_eq (c : Cursor) : c.readToken = c.settle (Lexer.readToken c.rest) := by
  unfold readToken Lexer.readToken
  cases hc : c.rest with
  | nil =>
    rw [peek, hc]
    rfl
  | cons x rest =>
    rw [peek_of_cons hc]
    dsimp only
    cases Token.punctuation? x with
    | some token => simp [advance_of_cons hc]
    | none =>
      dsimp only
      by_cases hquote : x = '"' ∨ x = '\''
      · rw [if_pos hquote, if_pos hquote]
        apply string_eq hc
        rcases hquote with rfl | rfl <;> decide
      rw [if_neg hquote, if_neg hquote]
      by_cases hhash : x = '#'
      · subst hhash
        rw [if_pos rfl, if_pos rfl, ← hash_eq hc]
      rw [if_neg hhash, if_neg hhash]
      by_cases hat : x = '@'
      · subst hat
        have hnumber : startsNumber ('@' :: rest) = false := rfl
        have hname : startsName ('@' :: rest) = false := rfl
        rw [if_pos rfl, atKeyword_eq hc, hnumber, hname]
        simp
      · simp only [hat, false_and, if_false]
        split_ifs
        · rw [numeric_eq, hc]
        · rw [nameLike_eq, hc]
        · simp [advance_of_cons hc]

/-- What a step through the characters left means for a cursor. -/
def report (c : Cursor) : Step → Reading × Cursor
  | .token gap token text _ => (.lexeme ⟨token, gap, text, c.place⟩, c.past (gap ++ text))
  | .defect lead cause taken _ => (.fault ⟨cause, c.place.past lead⟩ (c.place.past taken), c.past taken)

lemma next_eq (c : Cursor) : c.next = c.report (step c.rest) := by
  have hcs := trivia_append c.rest
  unfold next step
  rw [trivia_eq]
  cases ht : Lexer.trivia c.rest with
  | unclosed before comment => simp [found, report, place_past]
  | run taken blank rest =>
    rw [ht, Trivia.taken, Trivia.rest] at hcs
    have hslice := slice_past taken rest hcs.symm
    have hrest := rest_past_of_append hcs
    cases blank with
    | true => simp [found, report, hslice]
    | false =>
      have htiles : (Lexer.readToken rest).taken ++ (Lexer.readToken rest).rest = (c.past taken).rest :=
        (readToken_tiles rest).trans hrest.symm
      have hread := slice_past _ _ htiles.symm
      simp only [found, Bool.or_false, readToken_eq, hrest, settle]
      cases hv : (Lexer.readToken rest).value with
      | ok token => simp [Except.mapError, report, hslice, hread, past_append]
      | error e => simp [Except.mapError, report, place_past, past_append]

/-! ## Calls up to the end -/

lemma readings_eq (c : Cursor) : c.readings = c.next.1 :: if c.next.1.isEnd then [] else c.next.2.readings := by
  rw [readings]
  split
  next he =>
    rw [he]
    split_ifs <;> rfl

/-- Calls from the same place on, with the same characters left, read the same and leave off alike. -/
lemma next_congr {c d : Cursor} (hplace : c.place = d.place) (hrest : c.rest = d.rest) :
    c.next.1 = d.next.1 ∧ c.next.2.place = d.next.2.place ∧ c.next.2.rest = d.next.2.rest := by
  rw [next_eq, next_eq, hrest]
  cases step d.rest <;> simp [report, place_past, rest_past, hplace, hrest]

lemma readings_congr {c d : Cursor} (hplace : c.place = d.place) (hrest : c.rest = d.rest) :
    c.readings = d.readings := by
  fun_induction readings c generalizing d with
  | case1 c r c' hnext hend =>
    obtain ⟨hread, -⟩ := next_congr hplace hrest
    rw [readings_eq d, ← hread, hnext, if_pos hend]
  | case2 c r c' hnext hend ih =>
    obtain ⟨hread, hplace', hrest'⟩ := next_congr hplace hrest
    rw [hnext] at hread hplace' hrest'
    rw [readings_eq d, ← hread, if_neg hend, ih hplace' hrest']

end Cursor

/-! ## Something is taken -/

lemma spanNumber_ne_nil {cs : List Char} (h : startsNumber cs = true) : (spanNumber cs).1 ≠ [] := by
  intro hnil
  have hlt := Cursor.length_passNumber (c := .withOrigin .start cs) h
  rw [Cursor.passNumber_eq, Cursor.rest_withOrigin, hnil] at hlt
  exact Nat.lt_irrefl _ hlt

/-- In front of the end, a token takes at least one character. -/
lemma readToken_taken_ne_nil (c : Char) (rest : List Char) : (readToken (c :: rest)).taken ≠ [] := by
  intro hnil
  have hlt := Cursor.length_readToken (c := .withOrigin .start (c :: rest)) (List.cons_ne_nil _ _)
  rw [Cursor.readToken_eq, Cursor.rest_withOrigin, Cursor.settle, hnil] at hlt
  exact Nat.lt_irrefl _ hlt

/-! ## Readings -/

/-- The readings step by step. -/
lemma readings_eq (place : Location) (cs : List Char) : readings place cs =
    match step cs with
    | .token gap token text rest =>
      let l : Lexeme := ⟨token, gap, text, place⟩
      if token = .eof then [.lexeme l] else .lexeme l :: readings l.after rest
    | .defect lead cause taken rest =>
      .fault ⟨cause, place.past lead⟩ (place.past taken) :: readings (place.past taken) rest := by
  have hcs := step_append cs
  rw [readings, Cursor.readings_eq, Cursor.next_eq, Cursor.rest_withOrigin]
  cases hs : step cs with
  | token gap token text rest =>
    rw [hs] at hcs
    have hon : ((Cursor.withOrigin place cs).past (gap ++ text)).readings =
        readings (Lexeme.after ⟨token, gap, text, place⟩) rest :=
      Cursor.readings_congr (by simp [Cursor.place_past, Lexeme.after, Lexeme.start])
        (Cursor.rest_past_of_append hcs)
    simp only [Cursor.report, Reading.isEnd, decide_eq_true_eq, hon, Cursor.place_withOrigin]
    split_ifs <;> rfl
  | defect lead cause taken rest =>
    rw [hs] at hcs
    have hon : ((Cursor.withOrigin place cs).past taken).readings = readings (place.past taken) rest :=
      Cursor.readings_congr (by simp [Cursor.place_past]) (Cursor.rest_past_of_append hcs)
    simp [Cursor.report, Reading.isEnd, hon]

end Stylebook.Lexer
