import Stylebook.Proofs.CanonicalWeight
import Stylebook.Proofs.NumberForm
import Stylebook.Proofs.Progression
import Stylebook.Proofs.SelectorText

/-! The text of a canonical form, read again. Every predicate is written as a simple selector, and the lexer finds its
tokens again, with one exception: the value of an attribute is put between quotes as it is, so that a quote or a
backslash in it is not read as itself. -/
namespace Stylebook

namespace Lexer
open Text

/-! ## Reading token by token -/

/-- From every place on, the text has lexemes as described, and no fault. -/
def Lexes (cs : List Char) (R : List Lexeme → Prop) : Prop :=
  ∀ place, ∃ ls, Reads place cs ls none ∧ R ls

/-- One lexeme and then more, each as described. -/
def Leads (P : Lexeme → Prop) (R : List Lexeme → Prop) (ls : List Lexeme) : Prop :=
  ∃ l ms, ls = l :: ms ∧ P l ∧ R ms

/-- Some lexemes and then more, each as described. -/
def Follows (Q R : List Lexeme → Prop) (ls : List Lexeme) : Prop := ∃ front ms, ls = front ++ ms ∧ Q front ∧ R ms

/-- The text does not go on with a name in front of it. -/
def Apart (rest : List Char) : Prop := ∀ c ∈ rest.head?, isNameChar c = false ∧ (c == '(') = false

/-- A text at whose beginning there are neither blanks nor comments. -/
def Solid (cs : List Char) : Prop := ∃ c tail, cs = c :: tail ∧ isBlank c = false ∧ c ≠ '/'

/-- A name that is read as such: a blank cannot begin it, though some blanks can be in it. -/
structure IsWord (name : List Char) : Prop extends IsName name where
  solid : Solid name

section Lexes
variable {cs text name value rest : List Char} {c : Char} {t : Token} {R S : List Lexeme → Prop}

lemma Solid.append (h : Solid cs) (rest : List Char) : Solid (cs ++ rest) := by
  obtain ⟨c, tail, rfl, hc⟩ := h
  exact ⟨c, tail ++ rest, rfl, hc⟩

lemma Solid.trivia (h : Solid cs) : trivia cs = .run [] false cs := by
  obtain ⟨c, tail, rfl, hc, hslash⟩ := h
  apply trivia_of_stop hc
  unfold opensComment
  split
  · next he => exact absurd (List.cons.inj he).1 hslash
  · rfl

lemma Lexes.mono (h : Lexes cs R) (hRS : ∀ ls, R ls → S ls) : Lexes cs S := by
  intro place
  obtain ⟨ls, hls, hR⟩ := h place
  exact ⟨ls, hls, hRS ls hR⟩

lemma lexes_nil : Lexes [] (Leads (fun e => e.token = .eof) (· = [])) := by
  intro place
  exact ⟨_, reads_of_step_eof step_nil, _, [], rfl, rfl, rfl⟩

/-- A token, and then the lexemes of the text behind it. -/
lemma Lexes.token (h : Lexes rest R) (hsolid : Solid text) (hread : readToken (text ++ rest) = ⟨.ok t, text, rest⟩) :
    Lexes (text ++ rest) (Leads (fun l => l.token = t ∧ l.gap = [] ∧ l.text = text) R) := by
  intro place
  have ht : t ≠ .eof := by
    rintro rfl
    have hnil := readToken_eq_eof (by rw [hread] : (readToken (text ++ rest)).value = .ok .eof)
    obtain ⟨c, tail, rfl, -⟩ := hsolid
    cases hnil
  have hstep : step (text ++ rest) = .token [] t text rest :=
    step_eq_token_iff.2 (.inr ⟨_, (hsolid.append rest).trivia, hread⟩)
  obtain ⟨ms, hms, hR⟩ := h (Lexeme.after ⟨t, [], text, place⟩)
  exact ⟨_, reads_of_step hstep ht hms, _, ms, rfl, ⟨rfl, rfl, rfl⟩, hR⟩

lemma Lexes.lead (h : Lexes rest R) (hsolid : Solid text) (hread : readToken (text ++ rest) = ⟨.ok t, text, rest⟩) :
    Lexes (text ++ rest) (Leads (fun l => l.token = t) R) := by
  refine (h.token hsolid hread).mono ?_
  rintro _ ⟨l, ms, rfl, hl, hms⟩
  exact ⟨l, ms, rfl, hl.1, hms⟩

lemma Lexes.mark (h : Lexes rest R) (hc : Token.punctuation? c = some t) :
    Lexes (c :: rest) (Leads (fun l => l.token = t) R) := by
  change Lexes ([c] ++ rest) _
  refine h.lead ⟨c, [], rfl, ?_⟩ (readToken_of_mark hc rest)
  unfold Token.punctuation? at hc
  split at hc <;> cases hc <;> exact ⟨rfl, by decide⟩

lemma Lexes.delim (h : Lexes rest R) (hc : c ∈ ['*', '=', '>']) :
    Lexes (c :: rest) (Leads (fun l => l.token = .delim c) R) := by
  simp only [List.mem_cons, List.not_mem_nil, or_false] at hc
  change Lexes ([c] ++ rest) _
  apply h.lead
  · rcases hc with rfl | rfl | rfl <;> exact ⟨_, [], rfl, rfl, by decide⟩
  · rcases hc with rfl | rfl | rfl <;> rfl

lemma Lexes.blank (h : Lexes rest R) (hrest : Solid rest) :
    Lexes (' ' :: rest) (Leads (fun l => l.token = .whitespace) R) := by
  intro place
  have hstep : step (' ' :: rest) = .token [] .whitespace [' '] rest := by
    apply step_eq_token_iff.2
    left
    refine ⟨rfl, rfl, ?_⟩
    rw [trivia_of_isBlank rfl, hrest.trivia]
    rfl
  obtain ⟨ms, hms, hR⟩ := h (Lexeme.after ⟨.whitespace, [], [' '], place⟩)
  exact ⟨_, reads_of_step hstep (by decide) hms, _, ms, rfl, rfl, hR⟩

lemma Lexes.word (h : Lexes rest R) (hname : IsWord name) (hrest : Apart rest) :
    Lexes (name ++ rest) (Leads (fun l => l.token = .ident (String.ofList name)) R) :=
  h.lead hname.solid (hname.readToken_ident (fun c hc => (hrest c hc).1) (fun c hc => (hrest c hc).2))

lemma Lexes.hash (h : Lexes rest R) (hne : name ≠ []) (hname : ∀ c ∈ name, isNameChar c = true) (hrest : Apart rest) :
    Lexes ('#' :: name ++ rest) (Leads (fun l => l.token = .hash (String.ofList name) (startsName name)) R) :=
  h.lead ⟨'#', name, rfl, rfl, by decide⟩ (readToken_hash hne hname (fun c hc => (hrest c hc).1))

/-- A full stop in front of a name begins no number. -/
lemma Lexes.point (h : Lexes (name ++ rest) R) (hname : IsWord name) :
    Lexes ('.' :: (name ++ rest)) (Leads (fun l => l.token = .delim '.') R) := by
  change Lexes (['.'] ++ (name ++ rest)) _
  refine h.lead ⟨'.', [], rfl, rfl, by decide⟩ ?_
  obtain ⟨c, tail, rfl, -⟩ := hname.solid
  have hdigit : c.isDigit = false := by
    rcases startsName_cases hname.starts with hc | ⟨-, -, rfl, -, -⟩
    · exact not_isDigit_of_isNameStart hc
    · rfl
  have hnumber : startsNumber ('.' :: (c :: tail ++ rest)) = false := by
    simp [startsNumber, spanSign, startsDigit, startsFraction, hdigit]
  rw [List.singleton_append, readToken_of_word rfl, if_neg (by decide), if_neg (by decide), if_neg (by decide),
    if_neg (ne_true_of_eq_false hnumber), if_neg (by simp [startsName, isNameStart])]

lemma Lexes.string (h : Lexes rest R) (hvalue : ∀ c ∈ value, c ≠ '"' ∧ c ≠ '\\' ∧ c ≠ '\n') :
    Lexes ('"' :: (value ++ '"' :: rest)) (Leads (fun l => l.token = .string (String.ofList value)) R) := by
  have hread : readToken ('"' :: (value ++ ['"']) ++ rest) =
      ⟨.ok (.string (String.ofList value)), '"' :: (value ++ ['"']), rest⟩ := by
    rw [List.cons_append, List.append_assoc]
    exact readToken_string hvalue
  have hlead := h.lead ⟨'"', value ++ ['"'], rfl, rfl, by decide⟩ hread
  rwa [List.cons_append, List.append_assoc] at hlead

lemma Lexes.function (h : Lexes rest R) (hname : IsWord name) (hurl : name.map Char.toLower ≠ ['u', 'r', 'l']) :
    Lexes (name ++ '(' :: rest) (Leads (fun l => l.token = .function (String.ofList name)) R) := by
  have hread : readToken (name ++ ['('] ++ rest) = ⟨.ok (.function (String.ofList name)), name ++ ['('], rest⟩ := by
    rw [List.append_assoc]
    exact hname.readToken_function hurl
  have hlead := h.lead (hname.solid.append ['(']) hread
  rwa [List.append_assoc] at hlead

end Lexes

/-! ## Reading progressions -/

/-- What progressions are written with. -/
def isStepChar (c : Char) : Bool := Numeral.isIntegerChar c || c == 'n'

/-- Tokens that open and close nothing, and separate nothing. -/
def IsPlainToken (t : Token) : Prop := t.opens = false ∧ t ≠ .rightParen ∧ t ≠ .whitespace

section Progressions
variable {c : Char} {cs ds rest : List Char}

/-- A number without fraction and exponent. -/
lemma spanNumber_of_digits {sign : List Char} (hsign : IsSign sign) (hds : IsDigits ds)
    (hrest : ∀ c ∈ rest.head?, c.isDigit = false ∧ c ≠ '.' ∧ c ≠ 'e' ∧ c ≠ 'E') :
    spanNumber (sign ++ (ds ++ rest)) = (sign ++ ds, rest) := by
  have hwhole : spanWhile Char.isDigit (ds ++ rest) = (ds, rest) :=
    spanWhile_of_ends hds.forall_mem (fun c hc => (hrest c hc).1)
  have hfraction : spanFraction rest = ([], rest) :=
    EndsMantissa.spanFraction fun c hc => ⟨(hrest c hc).1, (hrest c hc).2.1⟩
  have hexponent : spanExponent rest = ([], rest) := by
    cases rest with
    | nil => rfl
    | cons c rest =>
      obtain ⟨-, -, he, hE⟩ := hrest c rfl
      simp [spanExponent, he, hE]
  have hsplit := spanSign_append_of_isSign hsign (hds.startsMantissa_append rest)
  simp [spanNumber, hsplit, hwhole, hfraction, hexponent]

lemma ne_of_isStepChar {d : Char} (hc : isStepChar c = true) (hd : isStepChar d = false) : c ≠ d := by
  rintro rfl
  rw [hc] at hd
  cases hd

lemma isNumberChar_of_isStepChar (h : isStepChar c = true) : isNumberChar c = true := by
  simp only [isStepChar, Numeral.isIntegerChar, Bool.or_eq_true, beq_iff_eq] at h
  obtain ((h | rfl) | rfl) | rfl := h
  · exact isNumberChar_of_isDigit h
  · rfl
  · rfl
  · rfl

lemma not_isBlank_of_isStepChar (h : isStepChar c = true) : isBlank c = false := by
  simp only [isStepChar, Bool.or_eq_true, beq_iff_eq] at h
  rcases h with h | rfl
  · have hc := NthChild.isIntegerChar_spec h
    exact not_isBlank_of_le (by omega) (by omega)
  · rfl

/-- In front of a parenthesis, something ends where it would end by itself. -/
lemma spanWhile_append_stop {p : Char → Bool} (hc : p c = false) (cs rest : List Char) :
    spanWhile p (cs ++ c :: rest) = ((spanWhile p cs).1, (spanWhile p cs).2 ++ c :: rest) := by
  induction cs with
  | nil => simp [spanWhile, hc]
  | cons d cs ih =>
    by_cases hd : p d = true <;> simp_all [spanWhile]

/-- What follows inside a progression, or the parenthesis behind it. -/
lemma head_step {p : Char → Prop} (h : ∀ d ∈ cs, isStepChar d = true) (hp : ∀ d, isStepChar d = true → p d)
    (hparen : p ')') : ∀ d ∈ (cs ++ ')' :: rest).head?, p d := by
  intro d hd
  cases cs with
  | nil =>
    cases hd
    exact hparen
  | cons c cs =>
    cases hd
    exact hp d (h d List.mem_cons_self)

lemma exists_digits (h : ∀ d ∈ cs, isStepChar d = true) (hnumber : startsNumber (cs ++ ')' :: rest) = true) :
    ∃ sign ds more, cs = sign ++ (ds ++ more) ∧ IsSign sign ∧ IsDigits ds ∧ ∀ d ∈ more.head?, d.isDigit = false := by
  obtain ⟨sign, tail, hsign, rfl, hspan⟩ : ∃ sign tail, IsSign sign ∧ cs = sign ++ tail ∧
      spanSign (cs ++ ')' :: rest) = (sign, tail ++ ')' :: rest) := by
    cases cs with
    | nil => exact ⟨[], [], .inl rfl, rfl, rfl⟩
    | cons c cs =>
      by_cases hplus : c = '+'
      · exact ⟨['+'], cs, .inr (.inl rfl), by rw [hplus]; rfl, by rw [hplus]; rfl⟩
      · by_cases hminus : c = '-'
        · exact ⟨['-'], cs, .inr (.inr rfl), by rw [hminus]; rfl, by rw [hminus]; rfl⟩
        · exact ⟨[], c :: cs, .inl rfl, rfl, by simp [spanSign, hplus, hminus]⟩
  refine ⟨sign, tail.takeWhile Char.isDigit, tail.dropWhile Char.isDigit, ?_, hsign, ⟨?_, ?_⟩, ?_⟩
  · rw [List.takeWhile_append_dropWhile]
  · rw [startsNumber, hspan] at hnumber
    cases tail with
    | nil => simp [startsDigit, startsFraction] at hnumber
    | cons d tail =>
      have hpoint : d ≠ '.' := ne_of_isStepChar (h d (by simp)) rfl
      have hd : d.isDigit = true := by simpa [startsDigit, startsFraction, hpoint] using hnumber
      simp [hd]
  · intro d hd
    exact List.all_eq_true.1 List.all_takeWhile d hd
  · intro d hd
    have hhead := List.head?_dropWhile_not Char.isDigit tail
    rw [Option.mem_def.1 hd] at hhead
    simpa using hhead

/-- One token of a progression, read from its own characters only. -/
lemma readToken_step (h : ∀ d ∈ c :: cs, isStepChar d = true) (rest : List Char) :
    ∃ t text more, readToken (c :: cs ++ ')' :: rest) = ⟨.ok t, text, more ++ ')' :: rest⟩ ∧ text ++ more = c :: cs ∧
      text ≠ [] ∧ IsPlainToken t := by
  have hc := h c List.mem_cons_self
  rw [List.cons_append, readToken_of_isNumberChar (isNumberChar_of_isStepChar hc), ← List.cons_append]
  split_ifs with hnumber hname
  · obtain ⟨sign, ds, more, hcs, hsign, hds, hmore⟩ := exists_digits h hnumber
    have hstep : ∀ d ∈ more, isStepChar d = true := by
      intro d hd
      exact h d (by rw [hcs]; simp [hd])
    have hspan : spanNumber (c :: cs ++ ')' :: rest) = (sign ++ ds, more ++ ')' :: rest) := by
      rw [hcs, List.append_assoc, List.append_assoc]
      apply spanNumber_of_digits hsign hds
      intro d hd
      constructor
      · cases more with
        | nil =>
          cases hd
          rfl
        | cons e more => exact hmore d hd
      · refine head_step (p := fun d => d ≠ '.' ∧ d ≠ 'e' ∧ d ≠ 'E') hstep ?_ (by decide) d hd
        intro d hd
        exact ⟨ne_of_isStepChar hd rfl, ne_of_isStepChar hd rfl, ne_of_isStepChar hd rfl⟩
    obtain ⟨x, hx⟩ := (isNumber_of_digits hsign hds).exists_binary64
    have hpercent : ∀ d ∈ (more ++ ')' :: rest).head?, (d == '%') = false :=
      head_step hstep (fun d hd => beq_eq_false_iff_ne.2 (ne_of_isStepChar hd rfl)) rfl
    rw [numeric_of_unit hspan hx hpercent]
    split_ifs with hunit
    · rw [spanWhile_append_stop (by decide)]
      refine ⟨_, _, _, rfl, ?_, by simp [hds.ne_nil], rfl, by simp, by simp⟩
      rw [List.append_assoc, spanWhile_append, hcs, List.append_assoc]
    · exact ⟨_, _, _, rfl, by rw [hcs, List.append_assoc], by simp [hds.ne_nil], rfl, by simp, by simp⟩
  · have hspan := spanWhile_append_stop (p := isNameChar) (c := ')') rfl (c :: cs) rest
    have hstep : ∀ d ∈ (spanWhile isNameChar (c :: cs)).2, isStepChar d = true := by
      intro d hd
      exact h d ((List.dropWhile_sublist _).subset hd)
    have hparen : ∀ d ∈ ((spanWhile isNameChar (c :: cs)).2 ++ ')' :: rest).head?, (d == '(') = false :=
      head_step hstep (fun d hd => beq_eq_false_iff_ne.2 (ne_of_isStepChar hd rfl)) rfl
    have hne := spanName_ne_nil hname
    rw [hspan] at hne
    rw [nameLike_of_ident hspan hparen]
    exact ⟨_, _, _, rfl, spanWhile_append isNameChar (c :: cs), hne, rfl, by simp, by simp⟩
  · exact ⟨_, [c], cs, rfl, rfl, by simp, rfl, by simp, by simp⟩

/-- A progression is read without anything between its tokens. -/
lemma Lexes.progression {R : List Lexeme → Prop} (h : Lexes (')' :: rest) R) (hcs : ∀ d ∈ cs, isStepChar d = true) :
    Lexes (cs ++ ')' :: rest) (Follows
      (fun args => (∀ l ∈ args, IsPlainToken l.token ∧ l.gap = []) ∧ args.flatMap Lexeme.text = cs) R) := by
  induction hlength : cs.length using Nat.strong_induction_on generalizing cs with
  | _ n ih =>
    cases cs with
    | nil => exact h.mono fun ms hms => ⟨[], ms, rfl, ⟨by simp, rfl⟩, hms⟩
    | cons c cs =>
      obtain ⟨t, text, more, hread, htext, hne, hplain⟩ := readToken_step hcs rest
      have hmore : more.length < n := by
        have hpos := List.length_pos_iff.2 hne
        rw [← hlength, ← htext, List.length_append]
        omega
      rw [← htext] at hcs hread ⊢
      rw [List.append_assoc] at hread ⊢
      have hsolid : Solid text := by
        obtain ⟨d, tail, rfl⟩ := List.exists_cons_of_ne_nil hne
        have hd := hcs d (by simp)
        exact ⟨d, tail, rfl, not_isBlank_of_isStepChar hd, ne_of_isStepChar hd rfl⟩
      have htail := ih more.length hmore (fun d hd => hcs d (List.mem_append_right text hd)) rfl
      refine (htail.token hsolid hread).mono ?_
      rintro _ ⟨l, _, rfl, ⟨rfl, hgap, rfl⟩, args, ms, rfl, ⟨hargs, rfl⟩, hms⟩
      exact ⟨l :: args, ms, rfl, ⟨List.forall_mem_cons.2 ⟨⟨hplain, hgap⟩, hargs⟩, rfl⟩, hms⟩

end Progressions

end Lexer

/-- A value that can be put between double quotes as it is. -/
def Text.IsPlain (value : String) : Prop := '"' ∉ value.toList ∧ '\\' ∉ value.toList

instance (value : String) : Decidable (Text.IsPlain value) := inferInstanceAs (Decidable (_ ∧ _))

/-! ## Predicates -/

namespace Lexeme
variable {l : Lexeme} {ls : List Lexeme}

lemma spaced_of_gapless (h : ∀ m ∈ l :: ls, m.token ≠ .whitespace ∧ m.gap = []) :
    Spaced (l :: ls) ((l :: ls).flatMap text) := by
  induction ls generalizing l with
  | nil =>
    rw [List.flatMap_singleton]
    exact .single (h l List.mem_cons_self).1
  | cons m ls ih =>
    obtain ⟨hl, hls⟩ := List.forall_mem_cons.1 h
    exact .touching hl.1 (hls m List.mem_cons_self).2 (ih hls)

/-- Tokens with nothing between them are written one after the other. -/
lemma written_of_gapless (h : ∀ l ∈ ls, l.token ≠ .whitespace ∧ l.gap = []) : Written ls (ls.flatMap text) := by
  have hnone : ∀ b ∈ ([] : List Lexeme), b.token = .whitespace := by simp
  cases ls with
  | nil => exact .blank hnone
  | cons l ls =>
    have hwritten := Written.spaced hnone (spaced_of_gapless h) hnone
    rwa [List.append_nil] at hwritten

end Lexeme

lemma Token.balanced_of_forall {ts : List Token} (h : ∀ t ∈ ts, t.opens = false ∧ t ≠ .rightParen) : Balanced ts := by
  induction ts with
  | nil => exact .nil
  | cons t ts ih =>
    obtain ⟨⟨ho, hc⟩, hts⟩ := List.forall_mem_cons.1 h
    exact .word ho hc (ih hts)

namespace Edge
open Lexer

/-- A pseudo-class as it is written. -/
def pseudoWritten (name : String) : List Char := ':' :: name.toList

/-- A predicate as it is written. -/
def written : Edge → List Char
  | tag name => name.toList
  | id name => '#' :: name.toList
  | className name => '.' :: name.toList
  | attr name value => '[' :: (name.toList ++ '=' :: '"' :: (value.toList ++ ['"', ']']))
  | firstChild => pseudoWritten "first-child"
  | lastChild => pseudoWritten "last-child"
  | nthChild nth => pseudoWritten "nth-child" ++ '(' :: (nth.text.toList ++ [')'])
  | parent | ancestor => []

/-- The simple selector that a predicate is written as. -/
def part : Edge → Part
  | tag name => .typeName name
  | id name => .id name
  | className name => .className name
  | attr name value => .attr name (some (.equals, value))
  | firstChild => .pseudoClass "first-child" none
  | lastChild => .pseudoClass "last-child" none
  | nthChild nth => .pseudoClass "nth-child" (some nth.text)
  | parent => .combinator .child
  | ancestor => .combinator .descendant

/-- A predicate that a simple selector can stand for: the names are names, and no line feed is in the value. -/
def IsSpelled : Edge → Prop
  | tag name | className name => IsWord name.toList
  | id name => name.toList ≠ [] ∧ ∀ c ∈ name.toList, isNameChar c = true
  | attr name value => IsWord name.toList ∧ '\n' ∉ value.toList
  | firstChild | lastChild | nthChild _ => True
  | parent | ancestor => False

def value? : Edge → Option String
  | attr _ value => some value
  | _ => none

variable {e : Edge} {rest : List Char}

lemma solid_written (he : e.IsSpelled) : Solid e.written := by
  cases e with
  | tag name => exact he.solid
  | parent => cases he
  | ancestor => cases he
  | _ => exact ⟨_, _, rfl, rfl, by decide⟩

/-- Only a type begins with a name. -/
lemma apart_written (he : e.IsSpelled) (ht : e.column? ≠ some .types) (rest : List Char) : Apart (e.written ++ rest) := by
  cases e with
  | tag name => exact absurd rfl ht
  | parent => cases he
  | ancestor => cases he
  | _ =>
    intro c hc
    cases hc
    exact ⟨rfl, rfl⟩

/-- The simple selector stands for the predicate again. -/
lemma part_spec (he : e.staysPut = true) :
    e.part.predicate? = some e ∧ e.part.IsSupported ∧ e.part.isCombinator = false := by
  cases e with
  | attr name value => exact ⟨rfl, ⟨value, rfl⟩, rfl⟩
  | firstChild => exact ⟨rfl, .inl ⟨.inl rfl, rfl⟩, rfl⟩
  | lastChild => exact ⟨rfl, .inl ⟨.inr rfl, rfl⟩, rfl⟩
  | nthChild nth =>
    refine ⟨?_, .inr ⟨rfl, nth.text, nth, rfl, nth.parse?_text⟩, rfl⟩
    change (NthChild.parse? nth.text).map nthChild = _
    rw [nth.parse?_text]
    rfl
  | parent => cases he
  | ancestor => cases he
  | _ => exact ⟨rfl, trivial, rfl⟩

/-- The names behind the colons. -/
lemma isWord_of_mem {name : String} (h : name ∈ ["first-child", "last-child", "nth-child"]) : IsWord name.toList := by
  simp only [List.mem_cons, List.not_mem_nil, or_false] at h
  rcases h with rfl | rfl | rfl <;> exact ⟨⟨rfl, List.all_eq_true.1 rfl⟩, _, _, rfl, rfl, by decide⟩

lemma names_of_mem {name : String} (h : name ∈ ["first-child", "last-child", "nth-child"]) (argument : Option String) :
    Selector.Names false name argument (.pseudoClass name argument) := by
  simp only [List.mem_cons, List.not_mem_nil, or_false] at h
  rcases h with rfl | rfl | rfl <;> exact Selector.names_iff.2 rfl

section Lexes
variable {R : List Lexeme → Prop}

lemma lexes_pseudo (name : String) (hname : name ∈ ["first-child", "last-child", "nth-child"]) (h : Lexes rest R)
    (hrest : Apart rest) :
    Lexes (':' :: name.toList ++ rest) (Follows (Selector.Simple · (.pseudoClass name none)) R) := by
  refine ((h.word (isWord_of_mem hname) hrest).mark (c := ':') rfl).mono ?_
  rintro _ ⟨colon, _, rfl, hcolon, l, ms, rfl, hl, hms⟩
  rw [String.ofList_toList] at hl
  exact ⟨[colon, l], ms, rfl, .pseudo (.single hcolon) hl (names_of_mem hname none), hms⟩

lemma lexes_attr {name value : String} (h : Lexes rest R) (hname : IsWord name.toList) (hline : '\n' ∉ value.toList)
    (hvalue : Text.IsPlain value) :
    Lexes ((attr name value).written ++ rest) (Follows (Selector.Simple · (attr name value).part) R) := by
  obtain ⟨hquote, hslash⟩ := hvalue
  have hplain : ∀ c ∈ value.toList, c ≠ '"' ∧ c ≠ '\\' ∧ c ≠ '\n' := by
    intro c hc
    refine ⟨?_, ?_, ?_⟩ <;> (rintro rfl; contradiction)
  have hequals : Lexes ('=' :: '"' :: (value.toList ++ '"' :: ']' :: rest)) _ :=
    ((h.mark (c := ']') rfl).string hplain).delim (by simp)
  have hopen := (hequals.word hname (by simp [Apart, isNameChar, isNameStart])).mark (c := '[') rfl
  have hwritten : (attr name value).written ++ rest =
      '[' :: (name.toList ++ '=' :: '"' :: (value.toList ++ '"' :: ']' :: rest)) := by
    simp [written]
  rw [hwritten]
  refine hopen.mono ?_
  rintro _ ⟨l, _, rfl, hl, n, _, rfl, hn, o, _, rfl, ho, v, _, rfl, hv, r, ms, rfl, hr, hms⟩
  rw [String.ofList_toList] at hn hv
  refine ⟨[l, n, o, v, r], ms, rfl, ?_, hms⟩
  exact .compared hl .none hn .none (.equals ho) .none (.string hv) .none hr

lemma lexes_nthChild (nth : NthChild) (h : Lexes rest R) :
    Lexes ((nthChild nth).written ++ rest) (Follows (Selector.Simple · (nthChild nth).part) R) := by
  have hsteps : ∀ c ∈ nth.text.toList, isStepChar c = true := by
    intro c hc
    simpa [isStepChar] using nth.forall_mem_text c hc
  have hname : IsWord "nth-child".toList := isWord_of_mem (by simp)
  have hcolon := (((h.mark (c := ')') rfl).progression hsteps).function hname (by decide)).mark (c := ':') rfl
  have hwritten : (nthChild nth).written ++ rest =
      ':' :: ("nth-child".toList ++ '(' :: (nth.text.toList ++ ')' :: rest)) := by
    simp [written, pseudoWritten]
  rw [hwritten]
  refine hcolon.mono ?_
  rintro _ ⟨colon, _, rfl, hcolon, f, _, rfl, hf, args, _, rfl, ⟨hargs, htext⟩, r, ms, rfl, hr, hms⟩
  have hbalanced : Token.Balanced (args.map Lexeme.token) := by
    apply Token.balanced_of_forall
    rw [List.forall_mem_map]
    exact fun l hl => ⟨(hargs l hl).1.1, (hargs l hl).1.2.1⟩
  have hspelled : Lexeme.Written args nth.text.toList :=
    htext ▸ Lexeme.written_of_gapless fun l hl => ⟨(hargs l hl).1.2.2, (hargs l hl).2⟩
  refine ⟨[colon] ++ f :: (args ++ [r]), ms, by simp, ?_, hms⟩
  refine .pseudoFunction (.single hcolon) hf hbalanced hspelled hr ?_
  rw [String.ofList_toList, String.ofList_toList]
  exact names_of_mem (by simp) (some nth.text)

/-- In front of a text that does not go on with a name, a predicate is read as its simple selector. -/
lemma lexes_written (h : Lexes rest R) (he : e.IsSpelled) (hvalue : ∀ v ∈ e.value?, Text.IsPlain v)
    (hrest : Apart rest) : Lexes (e.written ++ rest) (Follows (Selector.Simple · e.part) R) := by
  cases e with
  | tag name =>
    refine (h.word he hrest).mono ?_
    rintro _ ⟨l, ms, rfl, hl, hms⟩
    exact ⟨[l], ms, rfl, .typeName (by rw [hl, String.ofList_toList]), hms⟩
  | id name =>
    refine (h.hash he.1 he.2 hrest).mono ?_
    rintro _ ⟨l, ms, rfl, hl, hms⟩
    exact ⟨[l], ms, rfl, .id (by rw [hl, String.ofList_toList]), hms⟩
  | className name =>
    refine ((h.word he hrest).point he).mono ?_
    rintro _ ⟨dot, _, rfl, hdot, l, ms, rfl, hl, hms⟩
    exact ⟨[dot, l], ms, rfl, .className hdot (by rw [hl, String.ofList_toList]), hms⟩
  | attr name value => exact lexes_attr h he.1 he.2 (hvalue value rfl)
  | firstChild => exact lexes_pseudo "first-child" (by simp) h hrest
  | lastChild => exact lexes_pseudo "last-child" (by simp) h hrest
  | nthChild nth => exact lexes_nthChild nth h
  | parent => cases he
  | ancestor => cases he

/-- Predicates in a row, of which only the first may be a type, are read as a compound. -/
lemma lexes_flatMap_written {es : List Edge} (h : Lexes rest R)
    (hes : ∀ d ∈ e :: es, d.IsSpelled ∧ ∀ v ∈ d.value?, Text.IsPlain v) (htype : ∀ d ∈ es, d.column? ≠ some .types)
    (hrest : Apart rest) :
    Lexes ((e :: es).flatMap written ++ rest) (Follows (Selector.Compound · ((e :: es).map part)) R) := by
  induction es generalizing e with
  | nil =>
    obtain ⟨he, hvalue⟩ := hes e List.mem_cons_self
    rw [List.flatMap_singleton]
    refine (lexes_written h he hvalue hrest).mono ?_
    rintro _ ⟨ls, ms, rfl, hls, hms⟩
    exact ⟨ls, ms, rfl, .single hls, hms⟩
  | cons d es ih =>
    obtain ⟨⟨he, hvalue⟩, hes⟩ := List.forall_mem_cons.1 hes
    obtain ⟨hd, htype⟩ := List.forall_mem_cons.1 htype
    have htail : Lexes ((d :: es).flatMap written ++ rest) _ := ih hes htype
    have hapart : Apart ((d :: es).flatMap written ++ rest) := by
      rw [List.flatMap_cons, List.append_assoc]
      exact apart_written (hes d List.mem_cons_self).1 hd _
    rw [List.flatMap_cons, List.append_assoc]
    refine (lexes_written htail he hvalue hapart).mono ?_
    rintro _ ⟨ls, _, rfl, hls, ms, ns, rfl, hms, hns⟩
    exact ⟨ls ++ ms, ns, by rw [List.append_assoc], .more hls hms, hns⟩

end Lexes

end Edge

namespace Compound
open Lexer

/-- The predicates in the order in which they are written. -/
def edges (c : Compound) : List Edge :=
  (c.tag.map Edge.tag).toList ++ (c.ids.map Edge.id ++ (c.classes.map Edge.className ++
    (c.attributes.map (fun a => Edge.attr a.1 a.2) ++ ((if c.firstChild then [Edge.firstChild] else []) ++
      ((if c.lastChild then [Edge.lastChild] else []) ++ c.nths.map Edge.nthChild)))))

/-- The simple selectors that a compound is written as. -/
def parts (c : Compound) : List Part := if c.isUniversal then [.universal] else c.edges.map Edge.part

def written (c : Compound) : List Char := if c.isUniversal then ['*'] else c.edges.flatMap Edge.written

variable {c : Compound}

lemma toList_text (c : Compound) : c.text.toList = c.written := by
  by_cases h : c.isUniversal = true
  · rw [text, written, if_pos h, if_pos h]
    rfl
  · have htag : (c.tag.getD "").toList = (c.tag.map Edge.tag).toList.flatMap Edge.written := by
      cases c.tag with
      | none => rfl
      | some name => simp [Edge.written]
    have hfirst : (if c.firstChild then ":first-child" else "").toList =
        (if c.firstChild then [Edge.firstChild] else []).flatMap Edge.written := by
      split_ifs <;> rfl
    have hlast : (if c.lastChild then ":last-child" else "").toList =
        (if c.lastChild then [Edge.lastChild] else []).flatMap Edge.written := by
      split_ifs <;> rfl
    rw [text, written, if_neg h, if_neg h]
    simp only [edges, String.toList_append, String.toList_join, List.flatMap_append, List.flatMap_map, List.append_assoc,
      htag, hfirst, hlast]
    rfl

lemma mem_edges_iff (c : Compound) (e : Edge) : e ∈ c.edges ↔ c.Has e := by
  cases e <;> simp [edges, Has]

lemma edges_eq_nil_iff (c : Compound) : c.edges = [] ↔ c.isUniversal = true := by
  obtain ⟨ids, classes, tag, attributes, first, last, nths⟩ := c
  simp only [edges, List.append_eq_nil_iff, Option.toList_eq_nil_iff, Option.map_eq_none_iff, List.map_eq_nil_iff,
    isUniversal, universal, mk.injEq, decide_eq_true_eq]
  cases first <;> cases last <;> simp
  tauto

lemma staysPut_of_mem_edges {e : Edge} (h : e ∈ c.edges) : e.staysPut = true := by
  rw [mem_edges_iff] at h
  cases e with
  | parent => cases h
  | ancestor => cases h
  | _ => rfl

lemma predicates_parts (c : Compound) : Part.predicates c.parts = c.edges := by
  unfold parts
  split_ifs with h
  · rw [(edges_eq_nil_iff c).2 h]
    rfl
  · have hpart : ∀ e ∈ c.edges, (Part.predicate? ∘ Edge.part) e = some e :=
      fun e he => (Edge.part_spec (staysPut_of_mem_edges he)).1
    rw [Part.predicates, List.filterMap_map, List.filterMap_congr hpart, List.filterMap_some]

lemma Increasing.gathers_parts (h : c.Increasing) : c.Gathers c.parts where
  increasing := h
  has_iff e := by rw [predicates_parts, mem_edges_iff]

lemma parts_spec (c : Compound) : ∀ p ∈ c.parts, p.IsSupported ∧ p.isCombinator = false := by
  unfold parts
  split_ifs
  · simp [Part.IsSupported, Part.isCombinator]
  · rw [List.forall_mem_map]
    exact fun e he => (Edge.part_spec (staysPut_of_mem_edges he)).2

/-- The names can be read, and the values can be put between quotes. -/
def IsReadable (c : Compound) : Prop := ∀ e ∈ c.edges, e.IsSpelled ∧ ∀ v ∈ e.value?, Text.IsPlain v

/-- Only the first of the predicates is a type. -/
lemma column?_ne_types_of_mem_tail (c : Compound) : ∀ e ∈ c.edges.tail, e.column? ≠ some .types := by
  unfold edges
  generalize hothers : c.ids.map Edge.id ++ _ = others
  have htype : ∀ e ∈ others, e.column? ≠ some .types := by
    intro e he
    rw [← hothers] at he
    cases e with
    | tag name => simp at he
    | _ => simp [Edge.column?]
  cases c.tag with
  | none => exact fun e he => htype e (List.mem_of_mem_tail he)
  | some name => exact htype

lemma solid_written (h : c.IsReadable) : Solid c.written := by
  unfold written
  split_ifs with huniversal
  · exact ⟨'*', [], rfl, rfl, by decide⟩
  · obtain ⟨e, es, hes⟩ := List.exists_cons_of_ne_nil (mt (edges_eq_nil_iff c).1 huniversal)
    rw [hes, List.flatMap_cons]
    exact (Edge.solid_written (h e (by rw [hes]; exact List.mem_cons_self)).1).append _

lemma lexes_written {rest : List Char} {R : List Lexeme → Prop} (hlexes : Lexes rest R) (h : c.IsReadable)
    (hrest : Apart rest) : Lexes (c.written ++ rest) (Follows (Selector.Compound · c.parts) R) := by
  have htype := c.column?_ne_types_of_mem_tail
  unfold written parts
  split_ifs with huniversal
  · refine (hlexes.delim (c := '*') (by simp)).mono ?_
    rintro _ ⟨l, ms, rfl, hl, hms⟩
    exact ⟨[l], ms, rfl, .single (.universal hl), hms⟩
  · obtain ⟨e, es, hes⟩ := List.exists_cons_of_ne_nil (mt (edges_eq_nil_iff c).1 huniversal)
    rw [IsReadable, hes] at h
    rw [hes] at htype ⊢
    exact Edge.lexes_flatMap_written hlexes h htype hrest

end Compound

namespace Link
open Lexer

lemma lexes_text (link : Link) {rest : List Char} {R : List Lexeme → Prop} (h : Lexes rest R) (hrest : Solid rest) :
    Lexes (link.text.toList ++ rest) (Follows (Selector.Joins · link.combinator) R) := by
  cases link with
  | child =>
    have hmark := (h.blank hrest).delim (c := '>') (by simp)
    refine (hmark.blank ⟨'>', _, rfl, rfl, by decide⟩).mono ?_
    rintro _ ⟨w, _, rfl, hw, l, _, rfl, hl, w', ms, rfl, hw', hms⟩
    exact ⟨[w] ++ l :: [w'], ms, rfl, .written (.run hw) (by simp [hl, Selector.signs, combinator]) (.run hw'), hms⟩
  | descendant =>
    refine (h.blank hrest).mono ?_
    rintro _ ⟨w, ms, rfl, hw, hms⟩
    exact ⟨[w], ms, rfl, .blank hw, hms⟩

end Link

namespace Part

section Simple
variable {ps qs : List Part} (hqs : ∀ q ∈ qs, q.isCombinator = false)
include hqs

lemma compounds_of_simple : compounds qs = [qs] := by
  rw [compounds, List.splitOnP_eq_singleton hqs, List.reverse_singleton]

lemma combinators_of_simple : combinators qs = [] := by
  have hnone : qs.filterMap combinator? = [] := by
    rw [List.filterMap_eq_nil_iff]
    intro q hq
    have hcombinator := hqs q hq
    cases q with
    | combinator k => cases hcombinator
    | _ => rfl
  rw [combinators, hnone, List.reverse_nil]

lemma compounds_append_combinator (k : Combinator) : compounds (ps ++ combinator k :: qs) = qs :: compounds ps := by
  rw [compounds, List.splitOnP_append_cons ps qs rfl, List.splitOnP_eq_singleton hqs, List.reverse_concat']
  rfl

lemma combinators_append_combinator (k : Combinator) :
    combinators (ps ++ combinator k :: qs) = k :: combinators ps := by
  have hnone := List.reverse_eq_nil_iff.1 (combinators_of_simple hqs)
  simp [combinators, hnone, combinator?]

end Simple

end Part

namespace Term
open Lexer

/-- The parts that a chain is written as. -/
def parts (t : Term) : List Part :=
  t.outer.reverse.flatMap (fun o => o.2.parts ++ [.combinator o.1.combinator]) ++ t.head.parts

variable {t : Term} {c : Compound} {ps qs : List Part}

lemma Reads.join (h : t.Reads ps) (hc : c.Gathers qs) (hqs : ∀ q ∈ qs, q.isCombinator = false) (link : Link) :
    Reads ⟨c, (link, t.head) :: t.outer⟩ (ps ++ .combinator link.combinator :: qs) where
  compounds := by
    rw [Part.compounds_append_combinator hqs]
    exact .cons hc h.compounds
  links := by
    rw [Part.combinators_append_combinator hqs, ← h.links]
    rfl

/-- A chain has the predicates of the parts that it is written as. -/
lemma reads_parts (h : ∀ c ∈ t.compounds, c.Increasing) : t.Reads t.parts := by
  obtain ⟨head, outer⟩ := t
  induction outer generalizing head with
  | nil =>
    have hhead := h head List.mem_cons_self
    have hsimple : ∀ p ∈ head.parts, p.isCombinator = false := fun p hp => (head.parts_spec p hp).2
    constructor
    · rw [parts, List.reverse_nil, List.flatMap_nil, List.nil_append, Part.compounds_of_simple hsimple]
      exact .cons hhead.gathers_parts .nil
    · rw [parts, List.reverse_nil, List.flatMap_nil, List.nil_append, Part.combinators_of_simple hsimple]
      rfl
  | cons o outer ih =>
    obtain ⟨link, c⟩ := o
    obtain ⟨hhead, houter⟩ := List.forall_mem_cons.1 h
    have hparts : parts ⟨head, (link, c) :: outer⟩ = parts ⟨c, outer⟩ ++ .combinator link.combinator :: head.parts := by
      simp [parts]
    rw [hparts]
    exact (ih c houter).join hhead.gathers_parts (fun p hp => (head.parts_spec p hp).2) link

lemma isSupported_parts (t : Term) : ∀ p ∈ t.parts, p.IsSupported := by
  intro p hp
  rcases List.mem_append.1 hp with hp | hp
  · obtain ⟨⟨link, c⟩, -, hp⟩ := List.mem_flatMap.1 hp
    rcases List.mem_append.1 hp with hp | hp
    · exact (c.parts_spec p hp).1
    · obtain rfl := List.mem_singleton.1 hp
      cases link with
      | child => exact .inl rfl
      | descendant => exact .inr rfl
  · exact (t.head.parts_spec p hp).1

lemma ofSelector_of_reads (h : t.Reads ps) (hps : ∀ p ∈ ps, p.IsSupported) (w : Specificity) (text : String) :
    ofSelector ⟨ps, w, text⟩ = .ok t := by
  obtain ⟨u, hu⟩ : ∃ u, ofSelector ⟨ps, w, text⟩ = .ok u := exists_foldlM hps (Compound.forall_oneType h.compounds)
  have heq : t = u := by
    rw [h.eq_iff (reads_of_foldlM hu).2]
    exact ⟨rfl, List.forall₂_same.2 fun qs _ e => Iff.rfl⟩
  rw [heq, hu]

/-- Compounds with their links, from left to right, and one more. -/
def chainWritten (os : List (Link × Compound)) (c : Compound) : List Char :=
  os.flatMap (fun o => o.2.written ++ o.1.text.toList) ++ c.written

lemma chainWritten_cons (link : Link) (d : Compound) (os : List (Link × Compound)) (c : Compound) :
    chainWritten ((link, d) :: os) c = d.written ++ (link.text.toList ++ chainWritten os c) := by
  simp [chainWritten]

lemma solid_chainWritten {os : List (Link × Compound)} (hos : ∀ o ∈ os, o.2.IsReadable) (hc : c.IsReadable) :
    Solid (chainWritten os c) := by
  cases os with
  | nil => exact Compound.solid_written hc
  | cons o os =>
    rw [chainWritten_cons]
    exact (Compound.solid_written (hos o List.mem_cons_self)).append _

lemma lexes_chainWritten {os : List (Link × Compound)} (hos : ∀ o ∈ os, o.2.IsReadable) (hc : c.IsReadable) :
    Lexes (chainWritten os c)
      (Follows (Selector.Complex · (os.flatMap (fun o => o.2.parts ++ [.combinator o.1.combinator]) ++ c.parts))
        (Leads (fun e => e.token = .eof) (· = []))) := by
  induction os with
  | nil =>
    have hwritten := Compound.lexes_written lexes_nil hc (by simp [Apart])
    rw [List.append_nil] at hwritten
    refine hwritten.mono ?_
    rintro _ ⟨ls, ms, rfl, hls, hms⟩
    exact ⟨ls, ms, rfl, .compound hls, hms⟩
  | cons o os ih =>
    obtain ⟨link, d⟩ := o
    obtain ⟨hd, hos⟩ := List.forall_mem_cons.1 hos
    have hapart : Apart (link.text.toList ++ chainWritten os c) := by
      intro x hx
      cases link <;> cases hx <;> exact ⟨rfl, rfl⟩
    rw [chainWritten_cons]
    refine (Compound.lexes_written (link.lexes_text (ih hos) (solid_chainWritten hos hc)) hd hapart).mono ?_
    rintro _ ⟨ls, _, rfl, hls, ms, _, rfl, hms, ns, tail, rfl, hns, htail⟩
    refine ⟨ls ++ (ms ++ ns), tail, by simp, ?_, htail⟩
    have hcomplex := Selector.Complex.join hls hms hns
    simpa using hcomplex

lemma toList_text (t : Term) : t.text.toList = chainWritten t.outer.reverse t.head := by
  rw [text, String.toList_append, String.toList_join, List.flatMap_map, Compound.toList_text, chainWritten]
  congr 2
  funext o
  rw [String.toList_append, Compound.toList_text]

/-- A readable chain is read from its own text. -/
lemma exists_parse_text (hincreasing : ∀ c ∈ t.compounds, c.Increasing) (hreadable : ∀ c ∈ t.compounds, c.IsReadable) :
    ∃ s, Selector.parse t.text = .ok s ∧ ofSelector s = .ok t := by
  have houter : ∀ o ∈ t.outer.reverse, o.2.IsReadable := by
    intro o ho
    exact hreadable o.2 (List.mem_cons_of_mem _ (List.mem_map_of_mem (List.mem_reverse.1 ho)))
  obtain ⟨_, hreads, ls, _, rfl, hcomplex, e, _, rfl, he, rfl⟩ :=
    lexes_chainWritten houter (hreadable t.head List.mem_cons_self) .start
  rw [← toList_text] at hreads
  have hentry : Selector.Entry ([] ++ (ls ++ [])) e
      ⟨t.parts, Part.tally t.parts, String.ofList (Text.trim (Lexeme.writing ls e))⟩ := .mk .none hcomplex .none
  rw [List.append_nil, List.nil_append] at hentry
  refine ⟨_, Selector.parse_eq_ok_iff.2 (Selector.parseListAt_eq_ok_iff.2 ⟨_, hreads, .last hentry he⟩), ?_⟩
  exact ofSelector_of_reads (reads_parts hincreasing) t.isSupported_parts _ _

end Term

end Stylebook
