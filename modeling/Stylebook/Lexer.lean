import Stylebook.Cursor
import Stylebook.Lexeme
import Stylebook.Number.Numeral
import Stylebook.Text.Blank

/-! Reading stylesheet text token by token. Every reader passes on from a cursor to a later one, also when it meets
a defect, and each call in front of the end passes at least one character. -/
namespace Stylebook
namespace Lexer
open Text

/-! ## Looking ahead -/

def isNameStart (c : Char) : Bool := c.isAlpha || c == '_' || 0x7f < c.toNat

def isNameChar (c : Char) : Bool := isNameStart c || c.isDigit || c == '-'

/-- Whether a name that could stand alone begins here. -/
def startsName : List Char → Bool
  | '-' :: c :: _ => isNameStart c || c == '-'
  | '-' :: [] => false
  | c :: _ => isNameStart c
  | [] => false

def startsDigit : List Char → Bool
  | c :: _ => c.isDigit
  | [] => false

/-- A point with a digit behind it. -/
def startsFraction : List Char → Bool
  | '.' :: rest => startsDigit rest
  | _ => false

/-- A sign, if one stands in front, and the rest. -/
def spanSign : List Char → List Char × List Char
  | '+' :: rest => (['+'], rest)
  | '-' :: rest => (['-'], rest)
  | cs => ([], cs)

/-- Whether a number begins here: digits, or a point and digits, behind an optional sign. -/
def startsNumber (cs : List Char) : Bool :=
  let (_, rest) := spanSign cs
  startsDigit rest || startsFraction rest

theorem isNameChar_of_startsName {c : Char} {rest : List Char} (h : startsName (c :: rest) = true) :
    isNameChar c = true := by
  unfold startsName at h
  split at h
  · next he => simp_all [isNameChar]
  · simp at h
  · next he => simp_all [isNameChar]
  · simp at h

namespace Cursor

/-! ## Blanks and comments -/

/-- Behind the comment of which the opening has been passed; at the end when it is never closed. -/
def closeComment (c : Cursor) : Bool × Cursor :=
  match _h : c.advance with
  | (none, d) => (false, d)
  | (some x, d) => if x = '*' ∧ d.peek = some '/' then (true, d.advance.2) else closeComment d
termination_by c.rest.length
decreasing_by exact length_of_advance _h

theorem reaches_closeComment (c : Cursor) : c.Reaches c.closeComment.2 := by
  fun_induction closeComment c with
  | case1 c d h => exact reaches_of_advance h
  | case2 c x d h _ => exact (reaches_of_advance h).trans (reaches_advance d)
  | case3 c x d h _ ih => exact (reaches_of_advance h).trans ih

theorem reaches_comment (c : Cursor) : c.Reaches c.advance.2.advance.2.closeComment.2 :=
  ((reaches_advance c).trans (reaches_advance _)).trans (reaches_closeComment _)

theorem length_comment {c : Cursor} {x : Char} (h : c.peek = some x) :
    c.advance.2.advance.2.closeComment.2.rest.length < c.rest.length :=
  Nat.lt_of_le_of_lt ((reaches_advance _).trans (reaches_closeComment _)).length_le (length_advance h)

/-- Passes blanks and comments and tells whether there are blanks among them, or have been before. -/
def trivia (blank : Bool) (c : Cursor) : Except Fault Bool × Cursor :=
  match _h : c.peek with
  | none => (.ok blank, c)
  | some x =>
    if _hx : isBlank x then (c.advanceWhile isBlank).trivia true
    else if x = '/' ∧ c.peekNth 1 = some '*' then
      match _hc : c.advance.2.advance.2.closeComment with
      | (true, d) => d.trivia blank
      | (false, d) => (.error ⟨.unterminatedComment, c.place⟩, d)
    else (.ok blank, c)
termination_by c.rest.length
decreasing_by
  · exact length_advanceWhile _h _hx
  · have hlt := length_comment _h
    rwa [_hc] at hlt

theorem reaches_trivia (blank : Bool) (c : Cursor) : c.Reaches (c.trivia blank).2 := by
  fun_induction trivia blank c with
  | case1 => exact .refl _
  | case2 blank c x _ _ ih => exact (reaches_advanceWhile _ c).trans ih
  | case3 blank c x _ _ _ d hd ih => exact (hd ▸ reaches_comment c).trans ih
  | case4 blank c x _ _ _ d hd =>
    have hcomment := reaches_comment c
    rwa [hd] at hcomment
  | case5 => exact .refl _

/-- Where nothing is passed, nothing is found. -/
theorem trivia_cases (blank : Bool) (c : Cursor) :
    c.trivia blank = (.ok blank, c) ∨ (c.trivia blank).2.rest.length < c.rest.length := by
  rw [trivia]
  split
  · exact .inl rfl
  · next x hpeek =>
    split
    · next hx =>
      exact .inr (Nat.lt_of_le_of_lt (reaches_trivia _ _).length_le (length_advanceWhile hpeek hx))
    · split
      · have hlt := length_comment hpeek
        split
        · next d hd =>
          rw [hd] at hlt
          exact .inr (Nat.lt_of_le_of_lt (reaches_trivia _ _).length_le hlt)
        · next d hd =>
          rw [hd] at hlt
          exact .inr hlt
      · exact .inl rfl

/-! ## Strings and names -/

/-- The text of a string up to its closing quote, behind what has been read of it. A line feed or the end leaves it
open, unless the line feed is escaped, which drops it. -/
def stringBody (quote : Char) (value : String) (c : Cursor) : Option String × Cursor :=
  match _h : c.advance with
  | (none, d) => (none, d)
  | (some x, d) =>
    if x = quote then (some value, d)
    else if x = '\\' then
      match _h' : d.advance with
      | (none, e) => (none, e)
      | (some y, e) => if y = '\n' then e.stringBody quote value else e.stringBody quote (value.push y)
    else if x = '\n' then (none, d)
    else d.stringBody quote (value.push x)
termination_by c.rest.length
decreasing_by
  · exact Nat.lt_trans (length_of_advance _h') (length_of_advance _h)
  · exact Nat.lt_trans (length_of_advance _h') (length_of_advance _h)
  · exact length_of_advance _h

theorem reaches_stringBody (quote : Char) (value : String) (c : Cursor) :
    c.Reaches (c.stringBody quote value).2 := by
  fun_induction stringBody quote value c with
  | case1 value c d h => exact reaches_of_advance h
  | case2 value c d h => exact reaches_of_advance h
  | case3 value c d e h' h => exact (reaches_of_advance h).trans (reaches_of_advance h')
  | case4 value c d e h _ h' ih => exact ((reaches_of_advance h).trans (reaches_of_advance h')).trans ih
  | case5 value c d y e h' _ h _ ih => exact ((reaches_of_advance h).trans (reaches_of_advance h')).trans ih
  | case6 value c d h => exact reaches_of_advance h
  | case7 value c x d h _ _ _ ih => exact (reaches_of_advance h).trans ih

def string (c : Cursor) : Except Fault Token × Cursor :=
  match c.advance with
  | (none, d) => (.error ⟨.unexpectedEnd, c.place⟩, d)
  | (some quote, d) =>
    match d.stringBody quote "" with
    | (some value, e) => (.ok (.string value), e)
    | (none, e) => (.error ⟨.unterminatedString, c.place⟩, e)

def name (c : Cursor) : String × Cursor :=
  let d := c.advanceWhile isNameChar
  (String.ofList (c.slice d), d)

/-- A hash with the name behind it; without a name, the bare character. -/
def hash (c : Cursor) : Token × Cursor :=
  let d := c.advance.2
  let (name, e) := d.name
  (if name.isEmpty then .delim '#' else .hash name (startsName d.rest), e)

/-! ## Urls -/

/-- The text of an unquoted url up to its closing parenthesis, behind what has been read of it. Only blanks may
stand between the two. -/
def urlBody (value : String) (c : Cursor) : Except UrlProblem String × Cursor :=
  match _h : c.advance with
  | (none, d) => (.error .unterminated, d)
  | (some x, d) =>
    if x = ')' then (.ok value, d)
    else if isBlank x then
      let (close, e) := (d.advanceWhile isBlank).advance
      (if close = some ')' then .ok value else .error .trailing, e)
    else if x = '\\' then
      match _h' : d.advance with
      | (none, e) => e.urlBody value
      | (some y, e) => e.urlBody (value.push y)
    else if x = '"' ∨ x = '\'' ∨ x = '(' then (.error .character, d)
    else d.urlBody (value.push x)
termination_by c.rest.length
decreasing_by
  · exact Nat.lt_of_le_of_lt (reaches_of_advance _h').length_le (length_of_advance _h)
  · exact Nat.lt_trans (length_of_advance _h') (length_of_advance _h)
  · exact length_of_advance _h

theorem reaches_urlBody (value : String) (c : Cursor) : c.Reaches (c.urlBody value).2 := by
  fun_induction urlBody value c with
  | case1 value c d h => exact reaches_of_advance h
  | case2 value c d h => exact reaches_of_advance h
  | case3 value c x d h _ _ close e hclose =>
    exact ((reaches_of_advance h).trans (reaches_advanceWhile _ d)).trans (reaches_of_advance hclose)
  | case4 value c d e h' h _ _ ih => exact ((reaches_of_advance h).trans (reaches_of_advance h')).trans ih
  | case5 value c d y e h' h _ _ ih => exact ((reaches_of_advance h).trans (reaches_of_advance h')).trans ih
  | case6 value c x d h => exact reaches_of_advance h
  | case7 value c x d h _ _ _ _ ih => exact (reaches_of_advance h).trans ih

def url (c : Cursor) : Except Fault Token × Cursor :=
  match c.urlBody "" with
  | (.ok value, d) => (.ok (.url value), d)
  | (.error problem, d) => (.error ⟨.url problem, c.place⟩, d)

/-- A name, a function when a parenthesis follows, or an unquoted url. A quoted one is a function of its string,
which is looked for behind blanks that are not part of the token. -/
def nameLike (c : Cursor) : Except Fault Token × Cursor :=
  let (name, d) := c.name
  if d.peek = some '(' then
    let e := d.advance.2
    if name.toList.map Char.toLower = ['u', 'r', 'l'] then
      let m := e.mark
      let f := e.advanceWhile isBlank
      if f.peek = some '"' ∨ f.peek = some '\'' then (.ok (.function name), f.rewind m) else f.url
    else (.ok (.function name), e)
  else (.ok (.ident name), d)

/-! ## Numbers -/

def passSign (c : Cursor) : Cursor :=
  if c.peek = some '+' ∨ c.peek = some '-' then c.advance.2 else c

/-- A point without digits is left alone. -/
def passFraction (c : Cursor) : Cursor :=
  if startsFraction c.rest then c.advance.2.advanceWhile Char.isDigit else c

/-- Without digits, the `e` begins a unit and is left alone. -/
def passExponent (c : Cursor) : Cursor :=
  if (c.peek = some 'e' ∨ c.peek = some 'E') ∧ startsDigit (spanSign c.rest.tail).2 then
    c.advance.2.passSign.advanceWhile Char.isDigit
  else c

def passNumber (c : Cursor) : Cursor := (c.passSign.advanceWhile Char.isDigit).passFraction.passExponent

/-- A number, with a percent sign or a unit when one follows. -/
def numeric (c : Cursor) : Except Fault Token × Cursor :=
  let d := c.passNumber
  let text := c.slice d
  match Numeral.binary64? text with
  | none => (.error ⟨.invalidNumber (String.ofList text), c.place⟩, d)
  | some value =>
    if d.peek = some '%' then (.ok (.percentage value), d.advance.2)
    else if startsName d.rest then
      let (unit, e) := d.name
      (.ok (.dimension value unit), e)
    else (.ok (.number value), d)

/-! ## Tokens -/

/-- The token at a cursor without blanks or comments in front. -/
def readToken (c : Cursor) : Except Fault Token × Cursor :=
  match c.peek with
  | none => (.ok .eof, c)
  | some x =>
    match Token.punctuation? x with
    | some token => (.ok token, c.advance.2)
    | none =>
      if x = '"' ∨ x = '\'' then c.string
      else if x = '#' then
        let (token, d) := c.hash
        (.ok token, d)
      else if x = '@' ∧ (c.peekNth 1).any isNameStart then
        let (name, d) := c.advance.2.name
        (.ok (.atKeyword name), d)
      else if startsNumber c.rest then c.numeric
      else if startsName c.rest then c.nameLike
      else (.ok (.delim x), c.advance.2)

/-- What the next call reads, and where it leaves off. Blanks with the comments among them are one token; comments
alone separate nothing and belong to none. -/
def next (c : Cursor) : Reading × Cursor :=
  match c.trivia false with
  | (.error fault, d) => (.fault fault d.place, d)
  | (.ok true, d) => (.lexeme ⟨.whitespace, [], c.slice d, c.place⟩, d)
  | (.ok false, d) =>
    match d.readToken with
    | (.error fault, e) => (.fault fault e.place, e)
    | (.ok token, e) => (.lexeme ⟨token, c.slice d, d.slice e, c.place⟩, e)

/-! ## Every reader passes on -/

theorem reaches_string (c : Cursor) : c.Reaches c.string.2 := by
  unfold string
  split
  · next h => exact reaches_of_advance h
  · next quote d h =>
    have hbody := (reaches_of_advance h).trans (reaches_stringBody quote "" d)
    split <;> next he => rwa [he] at hbody

theorem reaches_name (c : Cursor) : c.Reaches c.name.2 := reaches_advanceWhile _ c

theorem reaches_hash (c : Cursor) : c.Reaches c.hash.2 := (reaches_advance c).trans (reaches_name _)

theorem reaches_url (c : Cursor) : c.Reaches c.url.2 := by
  have hbody := reaches_urlBody "" c
  unfold url
  split <;> next he => rwa [he] at hbody

theorem reaches_nameLike (c : Cursor) : c.name.2.Reaches c.nameLike.2 := by
  have hopen := reaches_advance c.name.2
  unfold nameLike
  dsimp only
  split
  · split
    · have hblank := reaches_advanceWhile isBlank c.name.2.advance.2
      split
      · rwa [hblank.rewind_mark]
      · exact (hopen.trans hblank).trans (reaches_url _)
    · exact hopen
  · exact .refl _

theorem reaches_passSign (c : Cursor) : c.Reaches c.passSign := by
  unfold passSign
  split
  · exact reaches_advance c
  · exact .refl c

theorem reaches_passFraction (c : Cursor) : c.Reaches c.passFraction := by
  unfold passFraction
  split
  · exact (reaches_advance c).trans (reaches_advanceWhile _ _)
  · exact .refl c

theorem reaches_passExponent (c : Cursor) : c.Reaches c.passExponent := by
  unfold passExponent
  split
  · exact ((reaches_advance c).trans (reaches_passSign _)).trans (reaches_advanceWhile _ _)
  · exact .refl c

theorem reaches_passNumber (c : Cursor) : c.Reaches c.passNumber :=
  (((reaches_passSign c).trans (reaches_advanceWhile _ _)).trans (reaches_passFraction _)).trans
    (reaches_passExponent _)

theorem reaches_numeric (c : Cursor) : c.passNumber.Reaches c.numeric.2 := by
  unfold numeric
  dsimp only
  split
  · exact .refl _
  · split
    · exact reaches_advance _
    · split
      · exact reaches_name _
      · exact .refl _

theorem reaches_readToken (c : Cursor) : c.Reaches c.readToken.2 := by
  unfold readToken
  split
  · exact .refl c
  · split
    · exact reaches_advance c
    · split
      · exact reaches_string c
      · split
        · exact reaches_hash c
        · split
          · exact (reaches_advance c).trans (reaches_name _)
          · split
            · exact (reaches_passNumber c).trans (reaches_numeric c)
            · split
              · exact (reaches_name c).trans (reaches_nameLike c)
              · exact reaches_advance c

theorem reaches_next (c : Cursor) : c.Reaches c.next.2 := by
  have htrivia := reaches_trivia false c
  unfold next
  split
  · next he => rwa [he] at htrivia
  · next he => rwa [he] at htrivia
  · next d he =>
    rw [he] at htrivia
    have hread := htrivia.trans (reaches_readToken d)
    split <;> next he => rwa [he] at hread

/-! ## A call in front of the end moves on -/

theorem length_string {c : Cursor} {x : Char} (h : c.peek = some x) : c.string.2.rest.length < c.rest.length := by
  have hadvance := length_advance h
  unfold string
  split
  · next d hd => rwa [hd] at hadvance
  · next quote d hd =>
    have hbody := (reaches_stringBody quote "" d).length_le
    rw [hd] at hadvance
    split <;> next he =>
      rw [he] at hbody
      exact Nat.lt_of_le_of_lt hbody hadvance

theorem length_passNumber {c : Cursor} (h : startsNumber c.rest = true) :
    c.passNumber.rest.length < c.rest.length := by
  have hwhole := (reaches_advanceWhile Char.isDigit c.passSign).length_le
  have hfraction := (reaches_passFraction (c.passSign.advanceWhile Char.isDigit)).length_le
  have hexponent := (reaches_passExponent (c.passSign.advanceWhile Char.isDigit).passFraction).length_le
  unfold passNumber
  cases hc : c.rest with
  | nil => simp [hc, startsNumber, spanSign, startsDigit, startsFraction] at h
  | cons x cs =>
    have hpeek := peek_of_cons hc
    rw [← hc]
    by_cases hsign : x = '+' ∨ x = '-'
    · have hpass : c.passSign = c.advance.2 := if_pos (by simpa [hpeek] using hsign)
      have hadvance := length_advance hpeek
      rw [← hpass] at hadvance
      omega
    · have hpass : c.passSign = c := if_neg (by simpa [hpeek] using hsign)
      rw [hpass] at hwhole hfraction hexponent ⊢
      by_cases hdigit : x.isDigit = true
      · have hadvance := length_advanceWhile hpeek hdigit
        omega
      · -- Nothing but a point is left, and the digits behind it are the fraction.
        have hfront : startsFraction c.rest = true := by
          simp only [not_or] at hsign
          simpa [startsNumber, hc, spanSign, hsign, startsDigit, hdigit] using h
        have hnone : c.advanceWhile Char.isDigit = c := by
          rw [advanceWhile, hpeek]
          exact if_neg hdigit
        have hadvance := length_advance hpeek
        have hdigits := (reaches_advanceWhile Char.isDigit c.advance.2).length_le
        rw [hnone] at hfraction hexponent ⊢
        have hpoint : c.passFraction = c.advance.2.advanceWhile Char.isDigit := if_pos hfront
        rw [hpoint] at hexponent ⊢
        omega

/-- In front of the end, a token takes at least one character. -/
theorem length_readToken {c : Cursor} (h : c.rest ≠ []) : c.readToken.2.rest.length < c.rest.length := by
  obtain ⟨x, cs, hc⟩ := List.exists_cons_of_ne_nil h
  have hpeek := peek_of_cons hc
  have hadvance := length_advance hpeek
  unfold readToken
  rw [hpeek]
  dsimp only
  split
  · exact hadvance
  · split
    · exact length_string hpeek
    · split
      · exact Nat.lt_of_le_of_lt (reaches_name _).length_le hadvance
      · split
        · exact Nat.lt_of_le_of_lt (reaches_name _).length_le hadvance
        · split
          · next hstart => exact Nat.lt_of_le_of_lt (reaches_numeric c).length_le (length_passNumber hstart)
          · split
            · next hstart =>
              have hname := length_advanceWhile hpeek (isNameChar_of_startsName (hc ▸ hstart))
              exact Nat.lt_of_le_of_lt (reaches_nameLike c).length_le hname
            · exact hadvance

theorem length_next {c : Cursor} (h : c.rest ≠ []) : c.next.2.rest.length < c.rest.length := by
  unfold next
  rcases trivia_cases false c with hnone | hlt
  · have hread := length_readToken h
    rw [hnone]
    dsimp only
    split <;> next he => rwa [he] at hread
  · split
    · next he => rwa [he] at hlt
    · next he => rwa [he] at hlt
    · next d he =>
      rw [he] at hlt
      have hread := Nat.lt_of_le_of_lt (reaches_readToken d).length_le hlt
      split <;> next he => rwa [he] at hread

/-- At the end, a call reads the end and stays. -/
theorem next_of_nil {c : Cursor} (h : c.rest = []) : c.next = (.lexeme ⟨.eof, [], [], c.place⟩, c) := by
  have hpeek : c.peek = none := by rw [peek, h, List.head?_nil]
  have htrivia : c.trivia false = (.ok false, c) := by rw [trivia, hpeek]
  have hread : c.readToken = (.ok .eof, c) := by rw [readToken, hpeek]
  have hslice : c.slice c = [] := slice_past [] c.rest rfl
  simp only [next, htrivia, hread, hslice]

/-- All readings up to the end, defects included. -/
def readings (c : Cursor) : List Reading :=
  match _h : c.next with
  | (r, d) => if _hend : r.isEnd then [r] else r :: d.readings
termination_by c.rest.length
decreasing_by
  have hne : c.rest ≠ [] := by
    intro hnil
    rw [next_of_nil hnil] at _h
    cases _h
    exact _hend rfl
  have hlt := length_next hne
  rwa [_h] at hlt

end Cursor

/-- All readings of a text that begins at a given place. -/
def readings (place : Location) (text : List Char) : List Reading := (Cursor.withOrigin place text).readings

end Lexer

/-- The tokens of a whole text without the end, or its first fault. -/
def tokens (place : Location) (text : String) : Except Fault (List Token) :=
  match Reading.untilFault (Lexer.readings place text.toList) with
  | (ls, none) => .ok ((ls.map Lexeme.token).filter (· ≠ .eof))
  | (_, some fault) => .error fault

end Stylebook
