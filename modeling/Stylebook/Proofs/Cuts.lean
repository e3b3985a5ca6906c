import Mathlib.Data.List.Basic
import Stylebook.Lexer

/-! What the readers take from a text, apart from how far they have come in it. Each takes a front part and leaves
the rest, so that nothing is lost, whether it gives a token or a defect. -/
namespace Stylebook.Lexer
open Text

/-- A value read off the front of a text, with the characters it was read from. -/
structure Cut (α : Type) where
  value : α
  taken : List Char
  rest : List Char

/-- Nothing is lost between the characters taken and the rest. -/
def Cut.Tiles {α : Type} (cut : Cut α) (cs : List Char) : Prop := cut.taken ++ cut.rest = cs

/-- The longest front part of which every character passes the test. -/
def spanWhile (p : Char → Bool) (cs : List Char) : List Char × List Char :=
  (cs.takeWhile p, cs.dropWhile p)

@[simp] lemma spanWhile_append (p : Char → Bool) (cs : List Char) :
    (spanWhile p cs).1 ++ (spanWhile p cs).2 = cs := by
  simp [spanWhile]

/-- The rest of a comment behind its opening, up to and with its closing. -/
def closeComment : List Char → Option (List Char × List Char)
  | [] => none
  | '*' :: '/' :: rest => some (['*', '/'], rest)
  | c :: rest => (closeComment rest).map fun (body, after) => (c :: body, after)

lemma closeComment_append {cs body rest : List Char} (h : closeComment cs = some (body, rest)) :
    body ++ rest = cs := by
  fun_induction closeComment cs generalizing body rest with
  | case1 => simp at h
  | case2 => simp at h; simp [← h.1, ← h.2]
  | case3 c cs _ ih =>
    obtain ⟨⟨b, r⟩, hb, he⟩ := Option.map_eq_some_iff.1 h
    simp only [Prod.mk.injEq] at he
    simp [← he.1, ← he.2, ih hb]

def opensComment : List Char → Bool
  | '/' :: '*' :: _ => true
  | _ => false

/-- The complete comment at the front of a text, if there is one. -/
def comment? : List Char → Option (List Char × List Char)
  | '/' :: '*' :: body => (closeComment body).map fun (text, rest) => ('/' :: '*' :: text, rest)
  | _ => none

lemma comment?_append {cs comment rest : List Char} (h : comment? cs = some (comment, rest)) :
    comment ++ rest = cs := by
  unfold comment? at h
  split at h
  · obtain ⟨⟨b, r⟩, hb, he⟩ := Option.map_eq_some_iff.1 h
    simp only [Prod.mk.injEq] at he
    simp [← he.1, ← he.2, closeComment_append hb]
  · simp at h

lemma comment?_ne_nil {cs comment rest : List Char} (h : comment? cs = some (comment, rest)) :
    comment ≠ [] := by
  unfold comment? at h
  split at h
  · obtain ⟨⟨b, r⟩, hb, he⟩ := Option.map_eq_some_iff.1 h
    simp only [Prod.mk.injEq] at he
    simp [← he.1]
  · simp at h

lemma comment?_length {cs comment rest : List Char} (h : comment? cs = some (comment, rest)) :
    rest.length < cs.length := by
  have := List.length_pos_iff.2 (comment?_ne_nil h)
  simp only [← comment?_append h, List.length_append]
  omega

/-- Blanks and comments in front of a token. -/
inductive Trivia
  /-- A run of them; `blank` when it holds more than comments. -/
  | run (taken : List Char) (blank : Bool) (rest : List Char)
  /-- A comment that is never closed takes all the rest. -/
  | unclosed (before comment : List Char)

namespace Trivia

def push (cs : List Char) (blank : Bool) : Trivia → Trivia
  | run taken more rest => run (cs ++ taken) (blank || more) rest
  | unclosed before comment => unclosed (cs ++ before) comment

def taken : Trivia → List Char
  | run taken _ _ => taken
  | unclosed before comment => before ++ comment

def rest : Trivia → List Char
  | run _ _ rest => rest
  | unclosed _ _ => []

@[simp] lemma taken_push (cs : List Char) (blank : Bool) (t : Trivia) :
    (t.push cs blank).taken = cs ++ t.taken := by
  cases t <;> simp [push, taken]

@[simp] lemma rest_push (cs : List Char) (blank : Bool) (t : Trivia) :
    (t.push cs blank).rest = t.rest := by
  cases t <;> rfl

end Trivia

def trivia (cs : List Char) : Trivia :=
  match cs with
  | [] => .run [] false []
  | c :: rest =>
    if isBlank c then (trivia rest).push [c] true
    else match _h : comment? (c :: rest) with
      | some (comment, after) => (trivia after).push comment false
      | none => if opensComment (c :: rest) then .unclosed [] (c :: rest) else .run [] false (c :: rest)
termination_by cs.length
decreasing_by
  · simp
  · exact comment?_length _h

lemma trivia_nil : trivia [] = .run [] false [] := by
  unfold trivia
  rfl

section Trivia
variable {c : Char} {rest : List Char}

lemma trivia_of_isBlank (h : isBlank c = true) : trivia (c :: rest) = (trivia rest).push [c] true := by
  rw [trivia.eq_def]
  simp [h]

lemma trivia_of_comment {comment after : List Char} (h : isBlank c = false)
    (hc : comment? (c :: rest) = some (comment, after)) :
    trivia (c :: rest) = (trivia after).push comment false := by
  rw [trivia.eq_def]
  simp only [h, Bool.false_eq_true, if_false]
  split
  · next he => simp_all
  · next he => simp_all

/-- A character that begins neither blanks nor a comment ends them. -/
lemma trivia_of_stop (h : isBlank c = false) (ho : opensComment (c :: rest) = false) :
    trivia (c :: rest) = .run [] false (c :: rest) := by
  have hc : comment? (c :: rest) = none := by
    unfold comment?
    split
    · next he => simp [he, opensComment] at ho
    · rfl
  rw [trivia.eq_def]
  simp only [h, Bool.false_eq_true, if_false, ho]
  split
  · next he => simp_all
  · rfl

lemma trivia_of_unclosed (h : isBlank c = false) (ho : opensComment (c :: rest) = true)
    (hc : comment? (c :: rest) = none) : trivia (c :: rest) = .unclosed [] (c :: rest) := by
  rw [trivia.eq_def]
  simp only [h, Bool.false_eq_true, if_false, ho, if_true]
  split
  · next he => cases hc.symm.trans he
  · rfl

lemma trivia_of_blanks {cs : List Char} (h : ∀ c ∈ cs, isBlank c = true) :
    trivia cs = .run cs (!cs.isEmpty) [] := by
  induction cs with
  | nil => exact trivia_nil
  | cons c cs ih =>
    obtain ⟨hc, hcs⟩ := List.forall_mem_cons.1 h
    rw [trivia_of_isBlank hc, ih hcs]
    rfl

end Trivia

lemma trivia_append (cs : List Char) : (trivia cs).taken ++ (trivia cs).rest = cs := by
  fun_induction trivia cs with
  | case1 => rfl
  | case2 c rest _ ih => simp [ih]
  | case3 c rest _ comment after h ih => simp [ih, comment?_append h]
  | case4 => simp [Trivia.taken, Trivia.rest]
  | case5 => simp [Trivia.taken, Trivia.rest]

/-- The text of a string up to its closing quote. A line feed or the end leaves it open, unless the
line feed is escaped, which drops it. -/
def quoted (quote : Char) : List Char → Cut (Option (List Char))
  | [] => ⟨none, [], []⟩
  | '\\' :: [] => ⟨none, ['\\'], []⟩
  | '\\' :: c :: rest =>
    let cut := quoted quote rest
    ⟨if c = '\n' then cut.value else cut.value.map (c :: ·), '\\' :: c :: cut.taken, cut.rest⟩
  | c :: rest =>
    if c = quote then ⟨some [], [c], rest⟩
    else if c = '\n' then ⟨none, [c], rest⟩
    else
      let cut := quoted quote rest
      ⟨cut.value.map (c :: ·), c :: cut.taken, cut.rest⟩

lemma quoted_tiles (quote : Char) (cs : List Char) : (quoted quote cs).Tiles cs := by
  fun_induction quoted quote cs with
  | case3 c rest cut ih => simpa [Cut.Tiles] using ih
  | case6 c rest cut _ _ _ _ ih => simpa [Cut.Tiles] using ih
  | _ => simp [Cut.Tiles]

/-- What follows blanks inside a url must be its closing parenthesis. -/
def closeUrl (cs : List Char) : Cut (Except UrlProblem (List Char)) :=
  let (blanks, rest) := spanWhile isBlank cs
  match rest with
  | ')' :: rest => ⟨.ok [], blanks ++ [')'], rest⟩
  | c :: rest => ⟨.error .trailing, blanks ++ [c], rest⟩
  | [] => ⟨.error .trailing, blanks, []⟩

lemma closeUrl_tiles (cs : List Char) : (closeUrl cs).Tiles cs := by
  have h := spanWhile_append isBlank cs
  unfold closeUrl Cut.Tiles
  generalize spanWhile isBlank cs = s at h
  obtain ⟨blanks, rest⟩ := s
  simp only at h ⊢
  split <;> simp_all

/-- The text of an unquoted url up to its closing parenthesis. -/
def urlBody : List Char → Cut (Except UrlProblem (List Char))
  | [] => ⟨.error .unterminated, [], []⟩
  | '\\' :: [] => ⟨.error .unterminated, ['\\'], []⟩
  | '\\' :: c :: rest =>
    let cut := urlBody rest
    ⟨cut.value.map (c :: ·), '\\' :: c :: cut.taken, cut.rest⟩
  | c :: rest =>
    if c = ')' then ⟨.ok [], [c], rest⟩
    else if isBlank c then
      let cut := closeUrl rest
      ⟨cut.value, c :: cut.taken, cut.rest⟩
    else if c = '"' ∨ c = '\'' ∨ c = '(' then ⟨.error .character, [c], rest⟩
    else
      let cut := urlBody rest
      ⟨cut.value.map (c :: ·), c :: cut.taken, cut.rest⟩

lemma urlBody_tiles (cs : List Char) : (urlBody cs).Tiles cs := by
  fun_induction urlBody cs with
  | case3 c rest cut ih => simpa [Cut.Tiles] using ih
  | case5 c rest => simpa [Cut.Tiles] using closeUrl_tiles rest
  | case7 c rest cut _ _ _ _ _ ih => simpa [Cut.Tiles] using ih
  | _ => simp [Cut.Tiles]

/-- A point and the digits behind it; a point without digits is left alone. -/
def spanFraction : List Char → List Char × List Char
  | '.' :: rest =>
    if startsDigit rest then
      let (ds, after) := spanWhile Char.isDigit rest
      ('.' :: ds, after)
    else ([], '.' :: rest)
  | cs => ([], cs)

/-- An exponent; without digits the `e` begins a unit and is left alone. -/
def spanExponent : List Char → List Char × List Char
  | e :: rest =>
    let (sign, tail) := spanSign rest
    if (e == 'e' || e == 'E') && startsDigit tail then
      let (ds, after) := spanWhile Char.isDigit tail
      (e :: sign ++ ds, after)
    else ([], e :: rest)
  | [] => ([], [])

/-- The text of a number: sign, digits, fraction and exponent, each as far as it goes. -/
def spanNumber (cs : List Char) : List Char × List Char :=
  let (sign, r₁) := spanSign cs
  let (whole, r₂) := spanWhile Char.isDigit r₁
  let (fraction, r₃) := spanFraction r₂
  let (exponent, r₄) := spanExponent r₃
  (sign ++ whole ++ fraction ++ exponent, r₄)

@[simp] lemma spanSign_append (cs : List Char) : (spanSign cs).1 ++ (spanSign cs).2 = cs := by
  unfold spanSign; split <;> simp

@[simp] lemma spanFraction_append (cs : List Char) :
    (spanFraction cs).1 ++ (spanFraction cs).2 = cs := by
  unfold spanFraction
  split
  · split <;> simp [spanWhile]
  · simp

@[simp] lemma spanExponent_append (cs : List Char) :
    (spanExponent cs).1 ++ (spanExponent cs).2 = cs := by
  unfold spanExponent
  split
  · next e rest =>
    have h := spanSign_append rest
    generalize spanSign rest = s at h
    obtain ⟨sign, tail⟩ := s
    simp only at h ⊢
    split
    · simp [spanWhile, ← h]
    · simp
  · simp

lemma spanNumber_append (cs : List Char) : (spanNumber cs).1 ++ (spanNumber cs).2 = cs := by
  simp [spanNumber, List.append_assoc]

/-- A token, or the reason why there is none with the characters in front of the place it is
reported at. -/
abbrev Outcome := Except (List Char × Cause) Token

def string (quote : Char) (rest : List Char) : Cut Outcome :=
  let cut := quoted quote rest
  ⟨match cut.value with
    | some value => .ok (.string (String.ofList value))
    | none => .error ([], .unterminatedString),
    quote :: cut.taken, cut.rest⟩

/-- A hash with the name behind it; without a name, the bare character. -/
def hash (rest : List Char) : Cut Outcome :=
  let (name, after) := spanWhile isNameChar rest
  let token := if name.isEmpty then .delim '#' else .hash (String.ofList name) (startsName rest)
  ⟨.ok token, '#' :: name, after⟩

/-- An unquoted url behind its name and parenthesis, or, when a string follows, only the function. -/
def urlOrFunction (name rest : List Char) : Cut Outcome :=
  let (blanks, body) := spanWhile isBlank rest
  let opening := name ++ ['(']
  match body with
  | '"' :: _ => ⟨.ok (.function (String.ofList name)), opening, rest⟩
  | '\'' :: _ => ⟨.ok (.function (String.ofList name)), opening, rest⟩
  | _ =>
    let cut := urlBody body
    ⟨match cut.value with
      | .ok value => .ok (.url (String.ofList value))
      | .error problem => .error (opening ++ blanks, .url problem),
      opening ++ blanks ++ cut.taken, cut.rest⟩

/-- A name, a function when a parenthesis follows, or a url. -/
def nameLike (cs : List Char) : Cut Outcome :=
  let (name, rest) := spanWhile isNameChar cs
  match rest with
  | '(' :: rest =>
    if name.map Char.toLower = ['u', 'r', 'l'] then urlOrFunction name rest
    else ⟨.ok (.function (String.ofList name)), name ++ ['('], rest⟩
  | _ => ⟨.ok (.ident (String.ofList name)), name, rest⟩

/-- A number, with a percent sign or a unit when one follows. -/
def numeric (cs : List Char) : Cut Outcome :=
  let (text, rest) := spanNumber cs
  match Numeral.binary64? text with
  | none => ⟨.error ([], .invalidNumber (String.ofList text)), text, rest⟩
  | some value =>
    match rest with
    | '%' :: rest => ⟨.ok (.percentage value), text ++ ['%'], rest⟩
    | rest =>
      if startsName rest then
        let (unit, after) := spanWhile isNameChar rest
        ⟨.ok (.dimension value (String.ofList unit)), text ++ unit, after⟩
      else ⟨.ok (.number value), text, rest⟩

/-- An at sign with the name behind it; without one, the bare character. -/
def atKeyword : List Char → Cut Outcome
  | c :: rest =>
    if isNameStart c then
      let (name, after) := spanWhile isNameChar (c :: rest)
      ⟨.ok (.atKeyword (String.ofList name)), '@' :: name, after⟩
    else ⟨.ok (.delim '@'), ['@'], c :: rest⟩
  | [] => ⟨.ok (.delim '@'), ['@'], []⟩

/-- The token at the front of a text without blanks or comments in front. -/
def readToken : List Char → Cut Outcome
  | [] => ⟨.ok .eof, [], []⟩
  | c :: rest =>
    match Token.punctuation? c with
    | some token => ⟨.ok token, [c], rest⟩
    | none =>
      if c = '"' ∨ c = '\'' then string c rest
      else if c = '#' then hash rest
      else if c = '@' then atKeyword rest
      else if startsNumber (c :: rest) then numeric (c :: rest)
      else if startsName (c :: rest) then nameLike (c :: rest)
      else ⟨.ok (.delim c), [c], rest⟩

lemma string_tiles (quote : Char) (rest : List Char) :
    (string quote rest).Tiles (quote :: rest) := by
  simpa [string, Cut.Tiles] using quoted_tiles quote rest

lemma hash_tiles (rest : List Char) : (hash rest).Tiles ('#' :: rest) := by
  simp [hash, Cut.Tiles, spanWhile]

lemma urlOrFunction_tiles (name rest : List Char) :
    (urlOrFunction name rest).Tiles (name ++ '(' :: rest) := by
  have h := spanWhile_append isBlank rest
  unfold urlOrFunction Cut.Tiles
  generalize spanWhile isBlank rest = s at h
  obtain ⟨blanks, body⟩ := s
  simp only at h ⊢
  split
  · simp
  · simp
  · have hb := urlBody_tiles body
    simp only [Cut.Tiles] at hb
    simp [hb, h]

lemma nameLike_tiles (cs : List Char) : (nameLike cs).Tiles cs := by
  have h := spanWhile_append isNameChar cs
  unfold nameLike
  generalize spanWhile isNameChar cs = s at h
  obtain ⟨name, rest⟩ := s
  simp only at h ⊢
  split
  · split
    · exact h ▸ urlOrFunction_tiles _ _
    · simp [Cut.Tiles, ← h]
  · simpa [Cut.Tiles] using h

lemma numeric_tiles (cs : List Char) : (numeric cs).Tiles cs := by
  have h := spanNumber_append cs
  unfold numeric
  generalize spanNumber cs = s at h
  obtain ⟨text, rest⟩ := s
  simp only at h ⊢
  split
  · simpa [Cut.Tiles] using h
  · split
    · simpa [Cut.Tiles] using h
    · split
      · simpa [Cut.Tiles, spanWhile] using h
      · simpa [Cut.Tiles] using h

lemma atKeyword_tiles (rest : List Char) : (atKeyword rest).Tiles ('@' :: rest) := by
  unfold atKeyword
  split
  · split <;> simp [Cut.Tiles, spanWhile]
  · simp [Cut.Tiles]

lemma readToken_tiles (cs : List Char) : (readToken cs).Tiles cs := by
  unfold readToken
  split
  · simp [Cut.Tiles]
  · split
    · simp [Cut.Tiles]
    · split
      · exact string_tiles _ _
      · split
        · next h => exact h ▸ hash_tiles _
        · split
          · next h => exact h ▸ atKeyword_tiles _
          · split
            · exact numeric_tiles _
            · split
              · exact nameLike_tiles _
              · simp [Cut.Tiles]

/-- One step through a text. -/
inductive Step
  /-- A token, with the comments skipped in front of it. -/
  | token (gap : List Char) (token : Token) (text rest : List Char)
  /-- A defect, reported behind the characters `lead`, the first of those taken. -/
  | defect (lead : List Char) (cause : Cause) (taken rest : List Char)

namespace Step

def taken : Step → List Char
  | token gap _ text _ => gap ++ text
  | defect _ _ taken _ => taken

def rest : Step → List Char
  | token _ _ _ rest => rest
  | defect _ _ _ rest => rest

end Step

/-- The next token. Blanks with the comments among them are one token; comments alone separate
nothing and belong to none. -/
def step (cs : List Char) : Step :=
  match trivia cs with
  | .unclosed before comment => .defect before .unterminatedComment (before ++ comment) []
  | .run blanks true rest => .token [] .whitespace blanks rest
  | .run gap false rest =>
    let cut := readToken rest
    match cut.value with
    | .ok token => .token gap token cut.taken cut.rest
    | .error (lead, cause) => .defect (gap ++ lead) cause (gap ++ cut.taken) cut.rest

lemma step_append (cs : List Char) : (step cs).taken ++ (step cs).rest = cs := by
  have h := trivia_append cs
  unfold step
  split
  · next he => simpa [he, Trivia.taken, Trivia.rest, Step.taken, Step.rest] using h
  · next he => simpa [he, Trivia.taken, Trivia.rest, Step.taken, Step.rest] using h
  · next gap rest he =>
    have hr := readToken_tiles rest
    simp only [he, Trivia.taken, Trivia.rest, Cut.Tiles] at h hr
    simp only
    split <;> simp [Step.taken, Step.rest, hr, h]

/-- A run that holds a blank is not empty. -/
lemma trivia_run_blank {cs taken rest : List Char} (h : trivia cs = .run taken true rest) :
    taken ≠ [] := by
  fun_induction trivia cs generalizing taken rest with
  | case1 => simp at h
  | case2 c tail _ ih =>
    cases ht : trivia tail <;> simp [ht, Trivia.push] at h
    simp [← h.1]
  | case3 c tail _ comment after hc ih =>
    cases ht : trivia after <;> simp [ht, Trivia.push] at h
    simp [← h.1, comment?_ne_nil hc]
  | case4 => simp at h
  | case5 => simp at h

@[simp] lemma step_nil : step [] = .token [] .eof [] [] := by
  simp only [step, trivia_nil]
  rfl

end Stylebook.Lexer
