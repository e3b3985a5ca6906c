import Stylebook.Proofs.CondensedText

/-! How tokens are written. The characters that a token was read from have a form that its kind prescribes; and
characters of this form are read as the token wherever the text behind them does not go on with it. -/
namespace Stylebook

namespace Token

def isNumeric : Token → Bool
  | number _ | percentage _ | dimension _ _ => true
  | _ => false

/-- The name that a token consists of, but for a hash in front of it. -/
def name? : Token → Option String
  | ident name | hash name _ => some name
  | _ => none

end Token

namespace Lexer
open Text

/-- A name that can stand alone. -/
structure IsName (name : List Char) : Prop where
  starts : startsName name = true
  forall_mem : ∀ c ∈ name, isNameChar c = true

/-- What numbers with their units are written with. -/
def isNumberChar (c : Char) : Bool := isNameChar c || c == '+' || c == '.' || c == '%'

/-- The characters that a token is written with. -/
inductive Spelling : Token → List Char → Prop
  | mark {c : Char} {t : Token} (h : Token.punctuation? c = some t) : Spelling t [c]
  | delim (c : Char) : Spelling (.delim c) [c]
  | ident {name : List Char} (h : IsName name) : Spelling (.ident (String.ofList name)) name
  | hash {name : List Char} {isId : Bool} (hne : name ≠ []) (h : ∀ c ∈ name, isNameChar c = true) :
      Spelling (.hash (String.ofList name) isId) ('#' :: name)
  | string {quote : Char} {value body : List Char} (hq : isQuote quote = true)
      (h : quoted quote body = ⟨some value, body, []⟩) : Spelling (.string (String.ofList value)) (quote :: body)
  | numeric {t : Token} {text : List Char} (ht : t.isNumeric = true) (h : ∀ c ∈ text, isNumberChar c = true) :
      Spelling t text
  | function (name : String) (text : List Char) : Spelling (.function name) text
  | url (value : String) (text : List Char) : Spelling (.url value) text
  | atKeyword (name : String) (text : List Char) : Spelling (.atKeyword name) text

section Spelling
variable {cs text rest : List Char} {c : Char} {t : Token}

lemma isNumberChar_of_isNameChar (h : isNameChar c = true) : isNumberChar c = true := by
  simp [isNumberChar, h]

lemma isNumberChar_of_isDigit (h : c.isDigit = true) : isNumberChar c = true := by
  simp [isNumberChar, isNameChar, h]

lemma isNumberChar_spanDigits (cs : List Char) : ∀ c ∈ (spanWhile Char.isDigit cs).1, isNumberChar c = true := by
  intro c hc
  exact isNumberChar_of_isDigit (spanWhile_all hc)

lemma isNumberChar_spanSign (cs : List Char) : ∀ c ∈ (spanSign cs).1, isNumberChar c = true := by
  unfold spanSign
  split <;> simp [isNumberChar, isNameChar]

lemma isNumberChar_spanFraction (cs : List Char) : ∀ c ∈ (spanFraction cs).1, isNumberChar c = true := by
  unfold spanFraction
  split
  · next rest =>
    split_ifs
    · exact List.forall_mem_cons.2 ⟨rfl, isNumberChar_spanDigits rest⟩
    · simp
  · simp

lemma isNumberChar_spanExponent (cs : List Char) : ∀ c ∈ (spanExponent cs).1, isNumberChar c = true := by
  cases cs with
  | nil => simp [spanExponent]
  | cons e rest =>
    simp only [spanExponent]
    split_ifs with he
    · have hletter : isNumberChar e = true := by
        simp only [Bool.and_eq_true, Bool.or_eq_true, beq_iff_eq] at he
        obtain ⟨rfl | rfl, -⟩ := he <;> rfl
      intro c hc
      rw [List.cons_append, List.mem_cons, List.mem_append] at hc
      rcases hc with rfl | hc | hc
      · exact hletter
      · exact isNumberChar_spanSign rest c hc
      · exact isNumberChar_spanDigits _ c hc
    · simp

lemma isNumberChar_spanNumber (cs : List Char) : ∀ c ∈ (spanNumber cs).1, isNumberChar c = true := by
  intro c hc
  simp only [spanNumber, List.mem_append] at hc
  rcases hc with ((hc | hc) | hc) | hc
  · exact isNumberChar_spanSign _ c hc
  · exact isNumberChar_spanDigits _ c hc
  · exact isNumberChar_spanFraction _ c hc
  · exact isNumberChar_spanExponent _ c hc

lemma spelling_of_numeric (h : numeric cs = ⟨.ok t, text, rest⟩) : Spelling t text := by
  have hnumber := isNumberChar_spanNumber cs
  unfold numeric at h
  generalize spanNumber cs = s at h hnumber
  obtain ⟨number, tail⟩ := s
  dsimp only at h hnumber
  split at h
  · cases h
  · split at h
    · cases h
      refine .numeric rfl ?_
      intro c hc
      rcases List.mem_append.1 hc with hc | hc
      · exact hnumber c hc
      · rw [List.mem_singleton.1 hc]
        rfl
    · split_ifs at h
      · cases h
        refine .numeric rfl ?_
        intro c hc
        rcases List.mem_append.1 hc with hc | hc
        · exact hnumber c hc
        · exact isNumberChar_of_isNameChar (spanWhile_all hc)
      · cases h
        exact .numeric rfl hnumber

lemma spelling_of_nameLike (hs : startsName cs = true) (h : nameLike cs = ⟨.ok t, text, rest⟩) : Spelling t text := by
  have hname : IsName (spanWhile isNameChar cs).1 := by
    constructor
    · rwa [startsName_spanName (spanName_ne_nil hs)]
    · intro c hc
      exact spanWhile_all hc
  unfold nameLike at h
  generalize spanWhile isNameChar cs = s at h hname
  obtain ⟨name, tail⟩ := s
  dsimp only at h hname
  split at h
  · split_ifs at h
    · unfold urlOrFunction at h
      dsimp only at h
      split at h
      · cases h
        exact .function _ _
      · cases h
        exact .function _ _
      · split at h
        · cases h
          exact .url _ _
        · cases h
    · cases h
      exact .function _ _
  · cases h
    exact .ident hname

lemma spelling_of_string {quote : Char} (hq : isQuote quote = true) (h : string quote cs = ⟨.ok t, text, rest⟩) :
    Spelling t text := by
  unfold string at h
  dsimp only at h
  split at h
  · next value hvalue =>
    cases h
    refine .string hq ?_
    have htaken := quoted_taken [] (by rw [hvalue]; rfl : (quoted quote cs).value.isSome = true)
    rw [List.append_nil] at htaken
    rw [htaken, ← hvalue]
  · cases h

/-- Every token is written in its own way. -/
lemma spelling_of_readToken (h : readToken cs = ⟨.ok t, text, rest⟩) (ht : t ≠ .eof) : Spelling t text := by
  cases cs with
  | nil =>
    cases h
    exact absurd rfl ht
  | cons c cs =>
    cases hp : Token.punctuation? c with
    | some mark =>
      rw [readToken_of_mark hp] at h
      cases h
      exact .mark hp
    | none =>
      rw [readToken_of_word hp] at h
      split_ifs at h with hquote hhash hat hnumber hname
      · exact spelling_of_string (by simpa [isQuote] using hquote) h
      · unfold hash at h
        cases h
        split_ifs with hnil
        · rw [List.isEmpty_iff.1 hnil]
          exact .delim '#'
        · exact .hash (by simpa using hnil) (fun c hc => spanWhile_all hc)
      · unfold atKeyword at h
        split at h
        · split_ifs at h
          · cases h
            exact .atKeyword _ _
          · cases h
            exact .delim '@'
        · cases h
          exact .delim '@'
      · exact spelling_of_numeric h
      · exact spelling_of_nameLike hname h
      · cases h
        exact .delim c

lemma Spelling.of_name? {name : String} (h : Spelling t text) (hname : t.name? = some name) :
    name.toList ≠ [] ∧ (∀ c ∈ name.toList, isNameChar c = true) ∧
      ((t = .ident name ∧ text = name.toList ∧ startsName text = true) ∨
        (∃ isId, t = .hash name isId) ∧ text = '#' :: name.toList) := by
  cases h with
  | mark h =>
    unfold Token.punctuation? at h
    split at h <;> cases h <;> cases hname
  | ident h =>
    cases hname
    rw [String.toList_ofList]
    refine ⟨?_, h.forall_mem, .inl ⟨rfl, rfl, h.starts⟩⟩
    rintro rfl
    cases h.starts
  | @hash _ isId hne h =>
    cases hname
    rw [String.toList_ofList]
    exact ⟨hne, h, .inr ⟨⟨isId, rfl⟩, rfl⟩⟩
  | numeric ht _ => cases t <;> simp_all [Token.name?, Token.isNumeric]
  | _ => cases hname

lemma Spelling.of_string {value : String} (h : Spelling (.string value) text) :
    ∃ quote body, isQuote quote = true ∧ text = quote :: body ∧ quoted quote body = ⟨some value.toList, body, []⟩ := by
  generalize ht : Token.string value = t at h
  cases h with
  | mark h =>
    subst ht
    unfold Token.punctuation? at h
    split at h <;> cases h
  | @string quote value' body hq h =>
    cases ht
    exact ⟨quote, body, hq, rfl, by rwa [String.toList_ofList]⟩
  | numeric hn _ =>
    subst ht
    cases hn
  | _ => cases ht

lemma Spelling.of_isNumeric (h : Spelling t text) (ht : t.isNumeric = true) : ∀ c ∈ text, isNumberChar c = true := by
  cases h with
  | mark h =>
    unfold Token.punctuation? at h
    split at h <;> cases h <;> cases ht
  | numeric _ h => exact h
  | _ => cases ht

lemma Spelling.of_mark (h : Spelling t text) (ht : t = .delim '*' ∨ t = .rightBracket ∨ t = .rightParen) :
    ∃ c, text = [c] ∧ isBlank c = false ∧ (t = .rightParen → c = ')') := by
  cases h with
  | @mark c _ h =>
    refine ⟨c, rfl, ?_⟩
    unfold Token.punctuation? at h
    split at h <;> cases h <;> simp_all <;> rfl
  | delim c =>
    obtain rfl : c = '*' := by simpa using ht
    exact ⟨'*', rfl, rfl, by simp⟩
  | numeric hn _ => rcases ht with rfl | rfl | rfl <;> cases hn
  | _ => simp at ht

end Spelling

/-! ## Reading what is written -/

section Reading
variable {name rest : List Char} {c : Char}

lemma startsName_cases (h : startsName (c :: name) = true) :
    isNameStart c = true ∨ ∃ d tail, c = '-' ∧ name = d :: tail ∧ (isNameStart d = true ∨ d = '-') := by
  unfold startsName at h
  split at h
  · next d tail he =>
    obtain ⟨rfl, rfl⟩ := List.cons.inj he
    exact .inr ⟨d, tail, rfl, rfl, by simpa using h⟩
  · cases h
  · next he =>
    obtain ⟨rfl, rfl⟩ := List.cons.inj he
    exact .inl h
  · cases h

lemma not_isDigit_of_isNameStart (h : isNameStart c = true) : c.isDigit = false := by
  by_contra hd
  simp only [Bool.not_eq_false, Char.isDigit, Bool.and_eq_true, decide_eq_true_eq] at hd
  have hlo : 48 ≤ c.val.toNat := hd.1
  have hhi : c.val.toNat ≤ 57 := hd.2
  have hval : c.toNat = c.val.toNat := rfl
  have hletter (hc : c.isAlpha = true) : 65 ≤ c.val.toNat := by
    rcases (Bool.or_eq_true ..).mp hc with hupper | hlower
    · exact (of_decide_eq_true hupper).1
    · have hleast : 97 ≤ c.val.toNat := of_decide_eq_true ((Bool.and_eq_true ..).mp hlower).1
      omega
  simp only [isNameStart, Bool.or_eq_true, decide_eq_true_eq, beq_iff_eq] at h
  obtain (h | rfl) | h := h
  · have hleast := hletter h
    omega
  · exact absurd hhi (by decide)
  · omega

lemma startsNumber_of_startsName (h : startsName (c :: name) = true) (rest : List Char) :
    startsNumber (c :: name ++ rest) = false := by
  rcases startsName_cases h with hc | ⟨d, tail, rfl, rfl, hd⟩
  · have hplus : c ≠ '+' := by
      rintro rfl
      exact absurd hc (by decide)
    have hminus : c ≠ '-' := by
      rintro rfl
      exact absurd hc (by decide)
    have hpoint : c ≠ '.' := by
      rintro rfl
      exact absurd hc (by decide)
    simp [startsNumber, spanSign, hplus, hminus, startsDigit, startsFraction, hpoint, not_isDigit_of_isNameStart hc]
  · have hdigit : d.isDigit = false := by
      rcases hd with hd | rfl
      · exact not_isDigit_of_isNameStart hd
      · rfl
    have hpoint : d ≠ '.' := by
      rintro rfl
      exact absurd hd (by decide)
    simp [startsNumber, spanSign, startsDigit, startsFraction, hdigit, hpoint]

/-- What numbers and names are written with begins nothing else but a single character. -/
lemma readToken_of_isNumberChar (h : isNumberChar c = true) (rest : List Char) :
    readToken (c :: rest) =
      if startsNumber (c :: rest) then numeric (c :: rest)
      else if startsName (c :: rest) then nameLike (c :: rest)
      else ⟨.ok (.delim c), [c], rest⟩ := by
  have hne {d : Char} (hd : isNumberChar d = false) : c ≠ d := by
    rintro rfl
    rw [h] at hd
    cases hd
  have hmark : Token.punctuation? c = none := by
    cases hp : Token.punctuation? c with
    | none => rfl
    | some t =>
      unfold Token.punctuation? at hp
      split at hp <;> cases hp <;> exact absurd h (by decide)
  have hquote : ¬ (c = '"' ∨ c = '\'') := by
    rintro (hc | hc)
    · exact hne rfl hc
    · exact hne rfl hc
  rw [readToken_of_word hmark, if_neg hquote, if_neg (hne rfl), if_neg (hne rfl)]

/-- A name is read up to a character that is not one of names. -/
lemma IsName.readToken_eq (h : IsName name) (hr : ∀ c ∈ rest.head?, isNameChar c = false) :
    readToken (name ++ rest) = nameLike (name ++ rest) := by
  obtain ⟨c, name, rfl⟩ : ∃ c tail, name = c :: tail := by
    apply List.exists_cons_of_ne_nil
    rintro rfl
    cases h.starts
  have hc : isNumberChar c = true := isNumberChar_of_isNameChar (isNameChar_of_startsName h.starts)
  have hname : startsName (c :: (name ++ rest)) = true := by
    rw [← List.cons_append, startsName_append (by simp) hr, h.starts]
  have hnumber : startsNumber (c :: (name ++ rest)) = false := startsNumber_of_startsName h.starts rest
  rw [List.cons_append, readToken_of_isNumberChar hc, if_neg (by simp [hnumber]), if_pos hname]

lemma IsName.readToken_ident (h : IsName name) (hr : ∀ c ∈ rest.head?, isNameChar c = false)
    (hparen : ∀ c ∈ rest.head?, (c == '(') = false) :
    readToken (name ++ rest) = ⟨.ok (.ident (String.ofList name)), name, rest⟩ := by
  rw [h.readToken_eq hr]
  exact nameLike_of_ident (spanWhile_of_ends h.forall_mem hr) hparen

lemma readToken_hash (hne : name ≠ []) (hall : ∀ c ∈ name, isNameChar c = true)
    (hr : ∀ c ∈ rest.head?, isNameChar c = false) :
    readToken ('#' :: name ++ rest) = ⟨.ok (.hash (String.ofList name) (startsName name)), '#' :: name, rest⟩ := by
  have hp : Token.punctuation? '#' = none := rfl
  have hempty : name.isEmpty = false := by simpa using hne
  rw [List.cons_append, readToken_of_word hp, if_neg (by decide), if_pos rfl, hash, spanWhile_of_ends hall hr]
  simp only [hempty, startsName_append hne hr]
  rfl

lemma IsName.readToken_function (h : IsName name) (hurl : name.map Char.toLower ≠ ['u', 'r', 'l']) :
    readToken (name ++ '(' :: rest) = ⟨.ok (.function (String.ofList name)), name ++ ['('], rest⟩ := by
  have hr : ∀ c ∈ ('(' :: rest).head?, isNameChar c = false := by
    intro c hc
    cases hc
    rfl
  rw [h.readToken_eq hr, nameLike_of_paren (spanWhile_of_ends h.forall_mem hr), if_neg hurl]

/-- What is left of a name with some characters cut off its end is a shorter name, or no name at all. -/
lemma Spelling.clip {t : Token} {front blanks : List Char} {name : String} (h : Spelling t (front ++ blanks))
    (hname : t.name? = some name) (hfront : front ≠ []) (hblanks : blanks ≠ []) :
    ∃ t', readToken front = ⟨.ok t', front, []⟩ ∧
      ((∃ name', t'.name? = some name' ∧ name'.length < name.length) ∨ ∃ c, t' = .delim c ∧ c ≠ '*') := by
  obtain ⟨-, hall, hcase⟩ := h.of_name? hname
  have hpos : 0 < blanks.length := List.length_pos_iff.2 hblanks
  obtain ⟨c, tail, rfl⟩ := List.exists_cons_of_ne_nil hfront
  rcases hcase with ⟨-, htext, hstarts⟩ | ⟨-, htext⟩
  · have hlength : (c :: tail).length < name.length := by
      rw [← String.length_toList, ← htext, List.length_append]
      omega
    have hchars : ∀ d ∈ c :: tail, isNameChar d = true := by
      intro d hd
      exact hall d (htext ▸ List.mem_append_left _ hd)
    by_cases hs : startsName (c :: tail) = true
    · have hread : readToken (c :: tail ++ []) = _ := IsName.readToken_ident ⟨hs, hchars⟩ (by simp) (by simp)
      rw [List.append_nil] at hread
      exact ⟨_, hread, .inl ⟨_, rfl, by rwa [String.length_ofList]⟩⟩
    · -- The name has lost what makes it more than a dash.
      rcases startsName_cases hstarts with hc | ⟨d, rest, rfl, hrest, hd⟩
      · have hdash : c ≠ '-' := by
          rintro rfl
          exact absurd hc (by decide)
        simp [startsName, hdash, hc] at hs
      · cases tail with
        | nil => exact ⟨.delim '-', rfl, .inr ⟨'-', rfl, by decide⟩⟩
        | cons e tail =>
          obtain ⟨rfl, -⟩ := List.cons.inj hrest
          simp [startsName, hd] at hs
  · obtain ⟨rfl, htail⟩ := List.cons.inj htext
    cases tail with
    | nil => exact ⟨.delim '#', rfl, .inr ⟨'#', rfl, by decide⟩⟩
    | cons d tail =>
      have hchars : ∀ c ∈ d :: tail, isNameChar c = true := by
        intro c hc
        exact hall c (htail ▸ List.mem_append_left _ hc)
      have hread : readToken ('#' :: d :: tail ++ []) = _ := readToken_hash (List.cons_ne_nil d tail) hchars (by simp)
      rw [List.append_nil] at hread
      refine ⟨_, hread, .inl ⟨_, rfl, ?_⟩⟩
      rw [String.length_ofList, ← String.length_toList, ← htail, List.append_eq, List.length_append]
      omega

end Reading

/-! ## Strings -/

section Strings
variable {quote : Char} {cs value body rest : List Char}

lemma quoted_of_plain (hq : quote ≠ '\\') (h : ∀ c ∈ value, c ≠ quote ∧ c ≠ '\\' ∧ c ≠ '\n') :
    quoted quote (value ++ quote :: rest) = ⟨some value, value ++ [quote], rest⟩ := by
  induction value with
  | nil => rw [List.nil_append, quoted_cons hq, if_pos rfl, List.nil_append]
  | cons c value ih =>
    obtain ⟨⟨hquote, hslash, hline⟩, hvalue⟩ := List.forall_mem_cons.1 h
    rw [List.cons_append, quoted_cons hslash, if_neg hquote, if_neg hline, ih hvalue]
    rfl

lemma readToken_string (h : ∀ c ∈ value, c ≠ '"' ∧ c ≠ '\\' ∧ c ≠ '\n') :
    readToken ('"' :: (value ++ '"' :: rest)) =
      ⟨.ok (.string (String.ofList value)), '"' :: (value ++ ['"']), rest⟩ := by
  rw [readToken_of_word rfl, if_pos (.inl rfl), string, quoted_of_plain (by decide) h]

/-- In a string there is no line feed, a backslash is written twice, and without backslashes the string is written
as it is. -/
lemma of_quoted (h : quoted quote cs = ⟨some value, body, rest⟩) :
    '\n' ∉ value ∧ 2 * value.count '\\' ≤ body.count '\\' ∧
      ('\\' ∉ body → body = value ++ [quote] ∧ quote ∉ value) := by
  fun_induction quoted quote cs generalizing value body rest with
  | case1 => cases h
  | case2 => cases h
  | case3 c cs cut =>
    rename_i ih
    rcases hcut : quoted quote cs with ⟨inner, taken, after⟩
    simp only [cut, hcut, Cut.mk.injEq] at h
    obtain ⟨hvalue, rfl, -⟩ := h
    cases inner with
    | none => simp at hvalue
    | some inner =>
      obtain ⟨hline, hcount, -⟩ := ih hcut
      simp only [List.count_cons]
      split_ifs at hvalue with hc
      · cases hvalue
        exact ⟨hline, by simp; omega, by simp⟩
      · cases hvalue
        refine ⟨by simp [hline, Ne.symm hc], ?_, by simp⟩
        simp only [List.count_cons, beq_self_eq_true, if_true]
        split_ifs <;> omega
  | case4 =>
    cases h
    simp
  | case5 => cases h
  | case6 c cs h₁ h₂ hquote hline cut =>
    rename_i ih
    rcases hcut : quoted quote cs with ⟨inner, taken, after⟩
    simp only [cut, hcut, Cut.mk.injEq] at h
    obtain ⟨hvalue, rfl, -⟩ := h
    obtain ⟨inner, rfl, rfl⟩ := Option.map_eq_some_iff.1 hvalue
    obtain ⟨hnone, hcount, hplain⟩ := ih hcut
    have hslash : c ≠ '\\' := ne_backslash h₁ h₂
    refine ⟨by simp [hnone, Ne.symm hline], by simpa [List.count_cons, hslash] using hcount, ?_⟩
    intro hbody
    obtain ⟨rfl, hnot⟩ := hplain (by simp_all)
    exact ⟨rfl, by simp [hnot, Ne.symm hquote]⟩

end Strings

end Lexer

end Stylebook
