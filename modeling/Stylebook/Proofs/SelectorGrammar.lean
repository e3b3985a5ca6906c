import Mathlib.Data.List.Chain
import Stylebook.Proofs.CharacterTables
import Stylebook.Proofs.LexemeRow
import Stylebook.Proofs.SpacedText
import Stylebook.Proofs.WeightColumns
import Stylebook.Selector.Parser

/-! The grammar of selector lists, as relations between lexemes and what they stand for, and the proof that
the parser reads exactly this grammar. -/
namespace Stylebook

@[simp] lemma ok_bind {ε α β : Type} (a : α) (k : α → Except ε β) : (Except.ok a >>= k) = k a := rfl

@[simp] lemma pure_eq_ok {ε α : Type} (a : α) : (pure a : Except ε α) = .ok a := rfl

namespace Token

/-- Whether a token opens a parenthesis. -/
def opens : Token → Bool
  | leftParen => true
  | function _ => true
  | _ => false

/-- Tokens in which every parenthesis is closed, and none but those opened in them. -/
inductive Balanced : List Token → Prop
  | nil : Balanced []
  | word {t : Token} {ts : List Token} (ho : t.opens = false) (hc : t ≠ rightParen) (h : Balanced ts) :
      Balanced (t :: ts)
  | group {t : Token} {inner ts : List Token} (ho : t.opens = true) (hi : Balanced inner) (h : Balanced ts) :
      Balanced (t :: (inner ++ rightParen :: ts))

/-- Balanced tokens, closed by one more parenthesis and followed by balanced tokens again, for every level of
depth. -/
def Layers : Nat → List Token → Prop
  | 0, ts => Balanced ts
  | d + 1, ts => ∃ front rest, ts = front ++ rightParen :: rest ∧ Balanced front ∧ Layers d rest

section Balance
variable {t : Token} {ts us : List Token} {d : Nat}

lemma nest_of_opens (h : t.opens = true) (d : Nat) : t.nest d = d + 1 := by
  cases t <;> simp_all [opens, nest]

lemma nest_of_word (ho : t.opens = false) (hc : t ≠ rightParen) (d : Nat) : t.nest d = d := by
  cases t <;> simp_all [opens, nest]

lemma Balanced.append (ht : Balanced ts) (hu : Balanced us) : Balanced (ts ++ us) := by
  induction ht with
  | nil => exact hu
  | word ho hc _ ih => exact .word ho hc ih
  | group ho hi _ _ ih =>
    simp only [List.cons_append, List.append_assoc]
    exact .group ho hi ih

lemma not_balanced_rightParen : ¬ Balanced (rightParen :: ts) := by
  intro h
  cases h with
  | word _ hc _ => exact hc rfl
  | group ho _ _ => cases ho

lemma balanced_word_iff (ho : t.opens = false) (hc : t ≠ rightParen) : Balanced (t :: ts) ↔ Balanced ts := by
  constructor
  · intro h
    cases h with
    | word _ _ h => exact h
    | group ho' _ _ => simp [ho] at ho'
  · exact .word ho hc

/-- A group goes as far as the parenthesis that closes it. -/
lemma balanced_group_iff (ho : t.opens = true) : Balanced (t :: ts) ↔ Layers 1 ts := by
  constructor
  · intro h
    cases h with
    | word ho' _ _ => simp [ho] at ho'
    | group _ hi h => exact ⟨_, _, rfl, hi, h⟩
  · rintro ⟨front, rest, rfl, hfront, hrest⟩
    exact .group ho hfront hrest

lemma Layers.append (ht : Balanced ts) (hu : Layers d us) : Layers d (ts ++ us) := by
  cases d with
  | zero => exact ht.append hu
  | succ d =>
    obtain ⟨front, rest, rfl, hfront, hrest⟩ := hu
    exact ⟨ts ++ front, rest, by rw [List.append_assoc], ht.append hfront, hrest⟩

@[simp] lemma layers_nil : Layers d [] ↔ d = 0 := by
  cases d with
  | zero => simp [Layers, Balanced.nil]
  | succ d => simp [Layers]

lemma layers_word (ho : t.opens = false) (hc : t ≠ rightParen) : Layers d (t :: ts) ↔ Layers d ts := by
  cases d with
  | zero => exact balanced_word_iff ho hc
  | succ d =>
    constructor
    · rintro ⟨front, rest, he, hfront, hrest⟩
      cases front with
      | nil => exact absurd (List.cons.inj he).1 hc
      | cons u front =>
        obtain ⟨rfl, rfl⟩ := List.cons.inj he
        exact ⟨front, rest, rfl, (balanced_word_iff ho hc).1 hfront, hrest⟩
    · rintro ⟨front, rest, rfl, hfront, hrest⟩
      exact ⟨t :: front, rest, rfl, .word ho hc hfront, hrest⟩

lemma layers_open (ho : t.opens = true) : Layers d (t :: ts) ↔ Layers (d + 1) ts := by
  constructor
  · intro h
    cases d with
    | zero => exact (balanced_group_iff ho).1 h
    | succ d =>
      obtain ⟨front, rest, he, hfront, hrest⟩ := h
      cases front with
      | nil =>
        obtain ⟨rfl, -⟩ := List.cons.inj he
        cases ho
      | cons u front =>
        obtain ⟨rfl, rfl⟩ := List.cons.inj he
        obtain ⟨inner, more, rfl, hinner, hmore⟩ := (balanced_group_iff ho).1 hfront
        exact ⟨inner, more ++ rightParen :: rest, by simp, hinner, more, rest, rfl, hmore, hrest⟩
  · rintro ⟨front, rest, rfl, hfront, hrest⟩
    have hgroup : Balanced (t :: (front ++ [rightParen])) := .group ho hfront .nil
    simpa using hrest.append hgroup

lemma layers_close : Layers d (rightParen :: ts) ↔ 0 < d ∧ Layers (d - 1) ts := by
  cases d with
  | zero => simp [Layers, not_balanced_rightParen]
  | succ d =>
    simp only [Nat.zero_lt_succ, true_and, Nat.add_sub_cancel]
    constructor
    · rintro ⟨front, rest, he, hfront, hrest⟩
      cases front with
      | nil =>
        obtain ⟨-, rfl⟩ := List.cons.inj he
        exact hrest
      | cons u front =>
        obtain ⟨rfl, rfl⟩ := List.cons.inj he
        exact absurd hfront not_balanced_rightParen
    · intro h
      exact ⟨[], ts, rfl, .nil, h⟩

/-- One token further, the depth is the one that the token leaves. -/
lemma layers_cons : Layers d (t :: ts) ↔ (t = rightParen → 0 < d) ∧ Layers (t.nest d) ts := by
  by_cases ho : t.opens = true
  · have hc : t ≠ rightParen := by
      rintro rfl
      cases ho
    simp [nest_of_opens ho, layers_open ho, hc]
  · by_cases hc : t = rightParen
    · subst hc
      simp [nest, layers_close]
    · rw [Bool.not_eq_true] at ho
      simp [nest_of_word ho hc, layers_word ho hc, hc]

end Balance

end Token

namespace Selector
open Lexeme (Blank)

/-! ## The grammar -/

/-- What may stand in front of the equals sign, and what it makes of the comparison. -/
def marks : List (Char × AttributeTest) :=
  [('~', .includes), ('|', .dashMatch), ('^', .prefixMatch), ('$', .suffixMatch), ('*', .substringMatch)]

/-- The combinators that are written. -/
def signs : List (Token × Combinator) :=
  [(.delim '>', .child), (.delim '+', .nextSibling), (.delim '~', .subsequentSibling)]

/-- The comparison inside an attribute selector. -/
inductive Compares : List Lexeme → AttributeTest → Prop
  | equals {l : Lexeme} (h : l.token = .delim '=') : Compares [l] .equals
  | marked {l m : Lexeme} {c : Char} {test : AttributeTest} (hl : l.token = .delim c) (hc : (c, test) ∈ marks)
      (hm : m.token = .delim '=') : Compares [l, m] test

/-- The value inside an attribute selector. -/
inductive Value : Lexeme → String → Prop
  | ident {l : Lexeme} {v : String} (h : l.token = .ident v) : Value l v
  | string {l : Lexeme} {v : String} (h : l.token = .string v) : Value l v
  | number {l : Lexeme} {x : Binary64} (h : l.token = .number x) : Value l (String.ofList l.text)
  | percentage {l : Lexeme} {x : Binary64} (h : l.token = .percentage x) : Value l (String.ofList l.text)
  | dimension {l : Lexeme} {x : Binary64} {u : String} (h : l.token = .dimension x u) :
      Value l (String.ofList l.text)

/-- The colons in front of a pseudo-class, or of a pseudo-element. -/
inductive Colons : List Lexeme → Bool → Prop
  | single {l : Lexeme} (h : l.token = .colon) : Colons [l] false
  | double {l m : Lexeme} (hl : l.token = .colon) (hm : m.token = .colon) : Colons [l, m] true

/-- What a name behind colons stands for, with its argument if it has one: an element behind two colons, or by its
name behind one, and a class otherwise. Names count in small letters. -/
inductive Names (element : Bool) (written : String) (argument : Option String) : Part → Prop
  | element (h : element = true ∨ Text.inSmall written ∈ ["before", "after", "first-line", "first-letter"]) :
      Names element written argument (.pseudoElement (Text.inSmall written))
  | pseudoClass (hc : element = false)
      (hn : Text.inSmall written ∉ ["before", "after", "first-line", "first-letter"]) :
      Names element written argument (.pseudoClass (Text.inSmall written) argument)

inductive Simple : List Lexeme → Part → Prop
  | universal {l : Lexeme} (h : l.token = .delim '*') : Simple [l] .universal
  | typeName {l : Lexeme} {name : String} (h : l.token = .ident name) : Simple [l] (.typeName name)
  | id {l : Lexeme} {name : String} {isId : Bool} (h : l.token = .hash name isId) : Simple [l] (.id name)
  | className {dot l : Lexeme} {name : String} (hd : dot.token = .delim '.') (h : l.token = .ident name) :
      Simple [dot, l] (.className name)
  | named {l n r : Lexeme} {b₁ b₂ : List Lexeme} {name : String} (hl : l.token = .leftBracket)
      (h₁ : Blank b₁) (hn : n.token = .ident name) (h₂ : Blank b₂) (hr : r.token = .rightBracket) :
      Simple (l :: (b₁ ++ n :: (b₂ ++ [r]))) (.attr name none)
  | compared {l n v r : Lexeme} {b₁ b₂ op b₃ b₄ : List Lexeme} {name value : String} {test : AttributeTest}
      (hl : l.token = .leftBracket) (h₁ : Blank b₁) (hn : n.token = .ident name) (h₂ : Blank b₂)
      (hop : Compares op test) (h₃ : Blank b₃) (hv : Value v value) (h₄ : Blank b₄)
      (hr : r.token = .rightBracket) :
      Simple (l :: (b₁ ++ n :: (b₂ ++ (op ++ (b₃ ++ v :: (b₄ ++ [r])))))) (.attr name (some (test, value)))
  | pseudo {cs : List Lexeme} {element : Bool} {l : Lexeme} {name : String} {p : Part} (hc : Colons cs element)
      (hl : l.token = .ident name) (hn : Names element name none p) : Simple (cs ++ [l]) p
  | pseudoFunction {cs args : List Lexeme} {element : Bool} {l r : Lexeme} {name : String} {text : List Char}
      {p : Part} (hc : Colons cs element) (hl : l.token = .function name)
      (ha : Token.Balanced (args.map Lexeme.token)) (hw : Lexeme.Written args text) (hr : r.token = .rightParen)
      (hn : Names element name (some (String.ofList text)) p) : Simple (cs ++ l :: (args ++ [r])) p

/-- One or more simple selectors. -/
inductive Compound : List Lexeme → List Part → Prop
  | single {ls : List Lexeme} {p : Part} (h : Simple ls p) : Compound ls [p]
  | more {ls ms : List Lexeme} {p : Part} {ps : List Part} (h : Simple ls p) (hs : Compound ms ps) :
      Compound (ls ++ ms) (p :: ps)

/-- What stands between two compounds. -/
inductive Joins : List Lexeme → Combinator → Prop
  | blank {l : Lexeme} (h : l.token = .whitespace) : Joins [l] .descendant
  | written {l : Lexeme} {b₁ b₂ : List Lexeme} {c : Combinator} (h₁ : Blank b₁)
      (hl : (l.token, c) ∈ signs) (h₂ : Blank b₂) : Joins (b₁ ++ l :: b₂) c

/-- Compounds with a combinator between each two of them. -/
inductive Complex : List Lexeme → List Part → Prop
  | compound {ls : List Lexeme} {ps : List Part} (h : Compound ls ps) : Complex ls ps
  | join {ls ms ns : List Lexeme} {ps qs : List Part} {c : Combinator} (h : Compound ls ps) (hj : Joins ms c)
      (hs : Complex ns qs) : Complex (ls ++ (ms ++ ns)) (ps ++ .combinator c :: qs)

/-- An entry of a list: a selector with optional blanks on both sides, in front of the lexeme `next`. It weighs what
its parts weigh together, and its text goes up to the blanks behind it. -/
inductive Entry : List Lexeme → Lexeme → Selector → Prop
  | mk {b₁ ls b₂ : List Lexeme} {next : Lexeme} {ps : List Part} (h₁ : Blank b₁) (h : Complex ls ps)
      (h₂ : Blank b₂) : Entry (b₁ ++ (ls ++ b₂)) next
        ⟨ps, Part.tally ps, String.ofList (Text.trim (Lexeme.writing ls (b₂.headD next)))⟩

/-- A list of selectors with commas between them, up to and with the end. -/
inductive Listed : List Lexeme → List Selector → Prop
  | last {ls : List Lexeme} {e : Lexeme} {s : Selector} (h : Entry ls e s) (he : e.token = .eof) :
      Listed (ls ++ [e]) [s]
  | more {ls ms : List Lexeme} {c : Lexeme} {s : Selector} {ss : List Selector} (h : Entry ls c s)
      (hc : c.token = .comma) (hs : Listed ms ss) : Listed (ls ++ c :: ms) (s :: ss)

/-! ## Tables -/

section Tables
variable {c : Char} {test : AttributeTest} {t : Token} {k : Combinator}

lemma ofChar?_eq_some_iff : AttributeTest.ofChar? c = some test ↔ (c, test) ∈ marks := by
  unfold AttributeTest.ofChar?
  split <;> simp_all [marks, eq_comm]

lemma combinator?_eq_some_iff : combinator? t = some k ↔ (t, k) ∈ signs := by
  unfold combinator?
  split <;> simp_all [signs, eq_comm]

lemma lowercase_eq (s : String) : lowercase s = Text.inSmall s := by
  rw [lowercase, Text.inSmall, List.map_congr_left fun c _ => Text.toLower_eq_small c]

/-- What a name stands for is read with its weight. -/
lemma names_iff {element : Bool} {written : String} {argument : Option String} {p : Part} :
    Names element written argument p ↔ pseudoNamed element (lowercase written) argument = p.weighed := by
  rw [pseudoNamed, lowercase_eq, singleColonElements]
  constructor
  · intro h
    cases h with
    | element h =>
      rw [if_pos (by simpa using h)]
      rfl
    | pseudoClass hc hn =>
      rw [if_neg (by simpa [hc] using hn)]
      rfl
  · intro h
    split_ifs at h with hname
    · obtain rfl : Part.pseudoElement _ = p := congrArg Prod.fst h
      exact .element (by simpa using hname)
    · obtain rfl : Part.pseudoClass _ _ = p := congrArg Prod.fst h
      simp only [Bool.or_eq_true, not_or, Bool.not_eq_true] at hname
      exact .pseudoClass hname.1 (by simpa using hname.2)

lemma exists_names (element : Bool) (written : String) (argument : Option String) :
    ∃ p, Names element written argument p := by
  by_cases h : element = true ∨ Text.inSmall written ∈ ["before", "after", "first-line", "first-letter"]
  · exact ⟨_, .element h⟩
  · rw [not_or, Bool.not_eq_true] at h
    exact ⟨_, .pseudoClass h.1 h.2⟩

end Tables

/-! ## Simple selectors -/

section Arguments
variable {d : Nat} {f g : Feed} {ls : List Lexeme}

lemma arguments_of_advance (ht : f.token ≠ .eof) (ha : f.advance = .ok g) :
    arguments d f =
      if f.token = .rightParen ∧ d = 0 then .ok ([], g)
      else do
        let (ls, rest) ← arguments (f.token.nest d) g
        return (f.current :: ls, rest) := by
  rw [arguments, dif_neg ht]
  split
  · next he => cases ha.symm.trans he
  · next he =>
    cases ha.symm.trans he
    rfl

lemma arguments_sound (hp : f.Proper) (h : arguments d f = .ok (ls, g)) :
    ∃ r, r.token = .rightParen ∧ f.Passes (ls ++ [r]) g ∧ Token.Layers d (ls.map Lexeme.token) := by
  fun_induction arguments d f generalizing ls with
  | case1 => cases h
  | case2 => cases h
  | case3 d f he g' ha hc =>
    cases h
    exact ⟨f.current, hc.1, hp.advance he ha, by simp [hc.2]⟩
  | case4 d f he g' ha hc ih =>
    obtain ⟨⟨ls', g''⟩, hr, hk⟩ := of_bind_eq_ok h
    cases hk
    have hpass := hp.advance he ha
    obtain ⟨r, hr, hrest, hlayers⟩ := ih (hpass.proper hp) hr
    refine ⟨r, hr, hpass.trans hrest, Token.layers_cons.2 ⟨?_, hlayers⟩⟩
    intro ht
    exact Nat.pos_of_ne_zero fun hd => hc ⟨ht, hd⟩

lemma arguments_complete {r : Lexeme} (hr : r.token = .rightParen) (h : f.Passes (ls ++ [r]) g)
    (hl : Token.Layers d (ls.map Lexeme.token)) : arguments d f = .ok (ls, g) := by
  induction ls generalizing d f with
  | nil =>
    obtain ⟨m, ha, -, hm⟩ := Feed.advance_of_passes h
    rw [arguments_of_advance h.token_ne_eof ha, if_pos ⟨h.token_eq.trans hr, by simpa using hl⟩, hm.eq_of_nil]
  | cons l ls ih =>
    obtain ⟨m, ha, -, hm⟩ := Feed.advance_of_passes h
    obtain ⟨hpos, hls⟩ := Token.layers_cons.1 hl
    rw [← h.token_eq] at hpos hls
    rw [arguments_of_advance h.token_ne_eof ha, if_neg, ih hm hls, ← h.current_eq]
    · rfl
    · rintro ⟨ht, rfl⟩
      exact absurd (hpos ht) (Nat.lt_irrefl 0)

/-- The tokens that are passed have characters, so that their text is the one put together. -/
lemma written_iff_of_passes {r : Lexeme} {cs : List Char} (hp : f.Proper) (hf : f.Passes (ls ++ [r]) g) :
    Lexeme.Written ls cs ↔ (RawText.ofLexemes ls).text = cs :=
  RawText.written_iff fun l hl _ => hf.text_ne_nil hp l (List.mem_append_left _ hl)

lemma argumentText_sound {text : String} (hp : f.Proper) (h : argumentText f = .ok (text, g)) :
    ∃ ls r cs, r.token = .rightParen ∧ f.Passes (ls ++ [r]) g ∧ Token.Balanced (ls.map Lexeme.token) ∧
      Lexeme.Written ls cs ∧ text = String.ofList cs := by
  obtain ⟨⟨ls, g'⟩, ha, hk⟩ := of_bind_eq_ok h
  cases hk
  obtain ⟨r, hr, hpass, hl⟩ := arguments_sound hp ha
  exact ⟨ls, r, _, hr, hpass, hl, (written_iff_of_passes hp hpass).2 rfl, rfl⟩

lemma argumentText_complete {r : Lexeme} {cs : List Char} (hp : f.Proper) (hr : r.token = .rightParen)
    (hf : f.Passes (ls ++ [r]) g) (hb : Token.Balanced (ls.map Lexeme.token)) (hw : Lexeme.Written ls cs) :
    argumentText f = .ok (String.ofList cs, g) := by
  have hargs : arguments 0 f = .ok (ls, g) := arguments_complete hr hf hb
  rw [argumentText, hargs, ← (written_iff_of_passes hp hf).1 hw]
  rfl

end Arguments

section Attribute
variable {name : String} {f g : Feed}

lemma attributeTest_sound {test : Option AttributeTest} (hp : f.Proper)
    (h : attributeTest name f = .ok (test, g)) :
    (test = none ∧ f = g) ∨ ∃ ls t, test = some t ∧ Compares ls t ∧ f.Passes ls g := by
  unfold attributeTest at h
  split at h
  · next c hc =>
    have hne : f.token ≠ .eof := by simp [hc]
    split_ifs at h with heq
    · obtain ⟨g', ha, hk⟩ := of_bind_eq_ok h
      cases hk
      subst heq
      exact Or.inr ⟨_, _, rfl, .equals hc, hp.advance hne ha⟩
    · split at h
      · cases h
      · next t ht =>
        obtain ⟨g₁, h₁, h⟩ := of_bind_eq_ok h
        obtain ⟨g₂, h₂, h⟩ := of_bind_eq_ok h
        split_ifs at h with hg
        cases h
        have hp₁ := hp.advance hne h₁
        have hp₂ := (hp₁.proper hp).advance (by simp [hg]) h₂
        exact Or.inr ⟨_, t, rfl, .marked hc (ofChar?_eq_some_iff.1 ht) hg, hp₁.trans hp₂⟩
  · cases h
    exact Or.inl ⟨rfl, rfl⟩

lemma attributeTest_complete {ls : List Lexeme} {t : AttributeTest} (h : Compares ls t) (hf : f.Passes ls g) :
    attributeTest name f = .ok (some t, g) := by
  unfold attributeTest
  cases h with
  | equals hl =>
    obtain ⟨m, ha, -, hm⟩ := Feed.advance_of_passes hf
    rw [hf.token_eq, hl]
    simp [ha, hm.eq_of_nil]
  | @marked _ _ c _ hl hc hm =>
    obtain ⟨m, ha, -, hm₁⟩ := Feed.advance_of_passes hf
    obtain ⟨n, ha', -, hm₂⟩ := Feed.advance_of_passes hm₁
    rw [← ofChar?_eq_some_iff] at hc
    have hne : c ≠ '=' := by
      rintro rfl
      cases hc
    rw [hf.token_eq, hl]
    simp [ha, ha', hm₁.token_eq, hm, hc, hm₂.eq_of_nil, hne]

lemma attributeValue_sound {value : String} (hp : f.Proper) (h : attributeValue name f = .ok (value, g)) :
    ∃ l, Value l value ∧ f.Passes [l] g := by
  obtain ⟨g₁, h₁, h⟩ := of_bind_eq_ok h
  split at h
  · next ht =>
    cases h
    exact ⟨f.current, .ident ht, hp.advance (by simp [ht]) h₁⟩
  · next ht =>
    cases h
    exact ⟨f.current, .string ht, hp.advance (by simp [ht]) h₁⟩
  · next ht =>
    cases h
    exact ⟨f.current, .number ht, hp.advance (by simp [ht]) h₁⟩
  · next ht =>
    cases h
    exact ⟨f.current, .percentage ht, hp.advance (by simp [ht]) h₁⟩
  · next ht =>
    cases h
    exact ⟨f.current, .dimension ht, hp.advance (by simp [ht]) h₁⟩
  · cases h

lemma attributeValue_complete {l : Lexeme} {value : String} (h : Value l value) (hf : f.Passes [l] g) :
    attributeValue name f = .ok (value, g) := by
  obtain ⟨m, ha, -, hm⟩ := Feed.advance_of_passes hf
  unfold attributeValue
  cases h <;> simp_all [hf.token_eq, hf.current_eq, hm.eq_of_nil]

lemma Value.token_ne_whitespace {l : Lexeme} {value : String} (h : Value l value) : l.token ≠ .whitespace := by
  cases h <;> simp_all

lemma closeAttribute_sound (hp : f.Proper) (h : closeAttribute name f = .ok g) :
    ∃ b r, Blank b ∧ r.token = .rightBracket ∧ f.Passes (b ++ [r]) g := by
  obtain ⟨g₁, h₁, h⟩ := of_bind_eq_ok h
  obtain ⟨g₂, h₂, h⟩ := of_bind_eq_ok h
  split_ifs at h with ht
  cases h
  obtain ⟨b, hb, hpass, -⟩ := hp.skipBlank h₁
  exact ⟨b, g₁.current, hb, ht, hpass.trans ((hpass.proper hp).advance (by simp [ht]) h₂)⟩

lemma closeAttribute_complete {b : List Lexeme} {r : Lexeme} (hb : Blank b) (hr : r.token = .rightBracket)
    (hf : f.Passes (b ++ [r]) g) : closeAttribute name f = .ok g := by
  obtain ⟨m, hs, -, hm⟩ := Feed.skipBlank_cons hb hf (by simp [hr])
  obtain ⟨n, ha, -, hn⟩ := Feed.advance_of_passes hm
  simp [closeAttribute, hs, ha, hm.token_eq, hr, hn.eq_of_nil]

/-- What is read behind an opening bracket completes it to a simple selector. -/
lemma attributePart_sound {q : Part × Specificity} (hp : f.Proper) (h : attributePart f = .ok (q, g)) :
    ∃ ls p, q = p.weighed ∧ f.Passes ls g ∧ ∀ l : Lexeme, l.token = .leftBracket → Simple (l :: ls) p := by
  obtain ⟨f₁, h₁, h⟩ := of_bind_eq_ok h
  obtain ⟨f₂, h₂, h⟩ := of_bind_eq_ok h
  obtain ⟨b₁, hb₁, hpass₁, -⟩ := hp.skipBlank h₁
  split at h
  · next name hn =>
    have hpass₂ := hpass₁.trans ((hpass₁.proper hp).advance (by simp [hn]) h₂)
    obtain ⟨f₃, h₃, h⟩ := of_bind_eq_ok h
    obtain ⟨⟨test, f₄⟩, h₄, h⟩ := of_bind_eq_ok h
    obtain ⟨b₂, hb₂, hpass₃, hblank⟩ := (hpass₂.proper hp).skipBlank h₃
    have hto₃ := hpass₂.trans hpass₃
    obtain ⟨rfl, rfl⟩ | ⟨op, t, rfl, hop, hpass₄⟩ := attributeTest_sound (hto₃.proper hp) h₄
    · obtain ⟨f₅, h₅, h⟩ := of_bind_eq_ok h
      cases h
      obtain ⟨b, r, hb, hr, hpass₄⟩ := closeAttribute_sound (hto₃.proper hp) h₅
      obtain rfl := hpass₄.blank_eq_nil hb hblank
      refine ⟨_, .attr name none, rfl, hto₃.trans hpass₄, ?_⟩
      intro l hl
      simpa using Simple.named hl hb₁ hn hb₂ hr
    · obtain ⟨f₅, h₅, h⟩ := of_bind_eq_ok h
      obtain ⟨⟨value, f₆⟩, h₆, h⟩ := of_bind_eq_ok h
      obtain ⟨f₇, h₇, h⟩ := of_bind_eq_ok h
      cases h
      have hto₄ := hto₃.trans hpass₄
      obtain ⟨b₃, hb₃, hpass₅, -⟩ := (hto₄.proper hp).skipBlank h₅
      have hto₅ := hto₄.trans hpass₅
      obtain ⟨v, hv, hpass₆⟩ := attributeValue_sound (hto₅.proper hp) h₆
      have hto₆ := hto₅.trans hpass₆
      obtain ⟨b₄, r, hb₄, hr, hpass₇⟩ := closeAttribute_sound (hto₆.proper hp) h₇
      refine ⟨_, .attr name (some (t, value)), rfl, hto₆.trans hpass₇, ?_⟩
      intro l hl
      simpa using Simple.compared hl hb₁ hn hb₂ hop hb₃ hv hb₄ hr
  · cases h

lemma attributePart_of_name {b₁ b₂ : List Lexeme} {n r : Lexeme} (h₁ : Blank b₁) (hn : n.token = .ident name)
    (h₂ : Blank b₂) (hr : r.token = .rightBracket) (hf : f.Passes (b₁ ++ n :: (b₂ ++ [r])) g) :
    attributePart f = .ok ((Part.attr name none).weighed, g) := by
  obtain ⟨f₁, hs₁, -, hf₁⟩ := Feed.skipBlank_cons h₁ hf (by simp [hn])
  obtain ⟨f₂, ha₂, -, hf₂⟩ := Feed.advance_of_passes hf₁
  obtain ⟨f₃, hs₃, -, hf₃⟩ := Feed.skipBlank_cons h₂ hf₂ (by simp [hr])
  have htest : attributeTest name f₃ = .ok (none, f₃) := by
    unfold attributeTest
    rw [hf₃.token_eq, hr]
  have hclose : closeAttribute name f₃ = .ok g := closeAttribute_complete .none hr hf₃
  simp [attributePart, hs₁, ha₂, hf₁.token_eq, hn, hs₃, htest, hclose, Part.weighed_eq, Part.column?]

lemma Compares.exists_cons {op : List Lexeme} {t : AttributeTest} (h : Compares op t) :
    ∃ l ls, op = l :: ls ∧ l.token ≠ .whitespace := by
  cases h with
  | equals hl => exact ⟨_, _, rfl, by simp [hl]⟩
  | marked hl _ _ => exact ⟨_, _, rfl, by simp [hl]⟩

lemma attributePart_of_comparison {b₁ b₂ op b₃ b₄ : List Lexeme} {n v r : Lexeme} {value : String}
    {t : AttributeTest} (h₁ : Blank b₁) (hn : n.token = .ident name) (h₂ : Blank b₂) (hop : Compares op t)
    (h₃ : Blank b₃) (hv : Value v value) (h₄ : Blank b₄) (hr : r.token = .rightBracket)
    (hf : f.Passes (b₁ ++ n :: (b₂ ++ (op ++ (b₃ ++ v :: (b₄ ++ [r]))))) g) :
    attributePart f = .ok ((Part.attr name (some (t, value))).weighed, g) := by
  obtain ⟨f₁, hs₁, -, hf₁⟩ := Feed.skipBlank_cons h₁ hf (by simp [hn])
  obtain ⟨f₂, ha₂, -, hf₂⟩ := Feed.advance_of_passes hf₁
  obtain ⟨f₃, hto₃, hf₃⟩ := hf₂.split
  obtain ⟨f₄, hto₄, hf₄⟩ := hf₃.split
  obtain ⟨o, os, rfl, ho⟩ := hop.exists_cons
  have hs₃ : f₂.skipBlank = .ok f₃ := Feed.skipBlank_of_passes h₂ hto₃ (by rwa [hto₄.token_eq])
  have htest : attributeTest name f₃ = .ok (some t, f₄) := attributeTest_complete hop hto₄
  obtain ⟨f₅, hs₅, -, hf₅⟩ := Feed.skipBlank_cons h₃ hf₄ hv.token_ne_whitespace
  obtain ⟨f₆, ha₆, hto₆, hf₆⟩ := Feed.advance_of_passes hf₅
  have hvalue : attributeValue name f₅ = .ok (value, f₆) := attributeValue_complete hv hto₆
  have hclose : closeAttribute name f₆ = .ok g := closeAttribute_complete h₄ hr hf₆
  simp [attributePart, hs₁, ha₂, hf₁.token_eq, hn, hs₃, htest, hs₅, hvalue, hclose, Part.weighed_eq, Part.column?]

end Attribute

section Pseudo
variable {element : Bool} {f g : Feed} {q : Part × Specificity}

/-- What is read behind colons completes them to a simple selector. -/
lemma pseudoName_sound (hp : f.Proper) (h : pseudoName element f = .ok (q, g)) :
    ∃ ls p, q = p.weighed ∧ f.Passes ls g ∧ ∀ cs, Colons cs element → Simple (cs ++ ls) p := by
  obtain ⟨f₁, h₁, h⟩ := of_bind_eq_ok h
  split at h
  · next name hl =>
    cases h
    obtain ⟨p, hn⟩ := exists_names element name none
    exact ⟨_, p, names_iff.1 hn, hp.advance (by simp [hl]) h₁, fun cs hc => .pseudo hc hl hn⟩
  · next name hl =>
    obtain ⟨⟨text, f₂⟩, h₂, h⟩ := of_bind_eq_ok h
    cases h
    have hpass := hp.advance (by simp [hl]) h₁
    obtain ⟨args, r, cs, hr, hargs, hb, hw, rfl⟩ := argumentText_sound (hpass.proper hp) h₂
    obtain ⟨p, hn⟩ := exists_names element name (some (String.ofList cs))
    exact ⟨_, p, names_iff.1 hn, hpass.trans hargs, fun cs hc => .pseudoFunction hc hl hb hw hr hn⟩
  · cases h

lemma pseudo_sound (hp : f.Proper) (h : pseudo f = .ok (q, g)) :
    ∃ ls p, q = p.weighed ∧ f.Passes ls g ∧ ∀ l : Lexeme, l.token = .colon → Simple (l :: ls) p := by
  unfold pseudo at h
  split_ifs at h with ht
  · obtain ⟨f₁, h₁, h⟩ := of_bind_eq_ok h
    have hpass := hp.advance (by simp [ht]) h₁
    obtain ⟨ls, p, hq, hls, hsimple⟩ := pseudoName_sound (hpass.proper hp) h
    exact ⟨_, p, hq, hpass.trans hls, fun l hl => hsimple [l, f.current] (.double hl ht)⟩
  · obtain ⟨ls, p, hq, hls, hsimple⟩ := pseudoName_sound hp h
    exact ⟨ls, p, hq, hls, fun l hl => hsimple [l] (.single hl)⟩

/-- Behind its first colon, a name or a function is read as the colons say. -/
lemma pseudo_of_colons {cs ls : List Lexeme} {c l : Lexeme} (hp : f.Proper) (hc : Colons (c :: cs) element)
    (hl : l.token ≠ .colon) (hf : f.Passes (cs ++ l :: ls) g) :
    ∃ m : Feed, m.Proper ∧ m.Passes (l :: ls) g ∧ pseudo f = pseudoName element m := by
  unfold pseudo
  cases hc with
  | single h =>
    refine ⟨f, hp, hf, ?_⟩
    rw [if_neg]
    rw [hf.token_eq]
    exact hl
  | double h hm =>
    obtain ⟨m, ha, hcolon, hm'⟩ := Feed.advance_of_passes hf
    refine ⟨m, hcolon.proper hp, hm', ?_⟩
    rw [if_pos (hf.token_eq.trans hm), ha]
    rfl

end Pseudo

lemma classPart_sound {f g : Feed} {q : Part × Specificity} (hp : f.Proper) (h : classPart f = .ok (q, g)) :
    ∃ l name, l.token = .ident name ∧ f.Passes [l] g ∧ q = (Part.className name).weighed := by
  obtain ⟨f₁, h₁, h⟩ := of_bind_eq_ok h
  split at h
  · next name hn =>
    cases h
    exact ⟨f.current, name, hn, hp.advance (by simp [hn]) h₁, rfl⟩
  · cases h

/-- Whether a simple selector can begin with a token. -/
def startsSimple : Token → Bool
  | .ident _ | .hash _ _ | .leftBracket | .colon => true
  | .delim c => c = '*' || c = '.'
  | _ => false

section Simple
variable {f g : Feed} {ls : List Lexeme} {p : Part}

lemma simple?_sound {q : Part × Specificity} (hp : f.Proper) (h : simple? f = .ok (some (q, g))) :
    ∃ ls p, q = p.weighed ∧ Simple ls p ∧ f.Passes ls g := by
  unfold simple? at h
  split at h
  · next ht =>
    obtain ⟨f₁, h₁, h⟩ := of_bind_eq_ok h
    cases h
    exact ⟨_, _, rfl, .typeName ht, hp.advance (by simp [ht]) h₁⟩
  · next ht =>
    obtain ⟨f₁, h₁, h⟩ := of_bind_eq_ok h
    cases h
    exact ⟨_, _, rfl, .id ht, hp.advance (by simp [ht]) h₁⟩
  · next ht =>
    obtain ⟨f₁, h₁, h⟩ := of_bind_eq_ok h
    obtain ⟨⟨q, f₂⟩, h₂, h⟩ := of_bind_eq_ok h
    cases h
    have hpass := hp.advance (by simp [ht]) h₁
    obtain ⟨ls, p, hq, hls, hsimple⟩ := attributePart_sound (hpass.proper hp) h₂
    exact ⟨_, p, hq, hsimple f.current ht, hpass.trans hls⟩
  · next ht =>
    obtain ⟨f₁, h₁, h⟩ := of_bind_eq_ok h
    obtain ⟨⟨q, f₂⟩, h₂, h⟩ := of_bind_eq_ok h
    cases h
    have hpass := hp.advance (by simp [ht]) h₁
    obtain ⟨ls, p, hq, hls, hsimple⟩ := pseudo_sound (hpass.proper hp) h₂
    exact ⟨_, p, hq, hsimple f.current ht, hpass.trans hls⟩
  · next c ht =>
    split_ifs at h with hstar hdot
    · obtain ⟨f₁, h₁, h⟩ := of_bind_eq_ok h
      cases h
      rw [hstar] at ht
      exact ⟨_, _, rfl, .universal ht, hp.advance (by simp [ht]) h₁⟩
    · obtain ⟨f₁, h₁, h⟩ := of_bind_eq_ok h
      obtain ⟨⟨q, f₂⟩, h₂, h⟩ := of_bind_eq_ok h
      cases h
      rw [hdot] at ht
      have hpass := hp.advance (by simp [ht]) h₁
      obtain ⟨l, name, hl, hpass', hq⟩ := classPart_sound (hpass.proper hp) h₂
      exact ⟨_, _, hq, .className ht hl, hpass.trans hpass'⟩
    · cases h
  · cases h

lemma Colons.exists_cons {cs : List Lexeme} {element : Bool} (h : Colons cs element) :
    ∃ c rest, cs = c :: rest ∧ c.token = .colon := by
  cases h with
  | single h => exact ⟨_, _, rfl, h⟩
  | double h _ => exact ⟨_, _, rfl, h⟩

/-- A pseudo-class or pseudo-element is read by what stands behind its colons. -/
lemma simple?_of_colons {cs : List Lexeme} {element : Bool} {l : Lexeme} (hc : Colons cs element)
    (hl : l.token ≠ .colon) (hf : f.Passes (cs ++ l :: ls) g)
    (hn : ∀ m : Feed, m.Proper → m.Passes (l :: ls) g → pseudoName element m = .ok (p.weighed, g)) (hp : f.Proper) :
    simple? f = .ok (some (p.weighed, g)) := by
  obtain ⟨c, cs, rfl, htoken⟩ := hc.exists_cons
  obtain ⟨f₁, ha, hc₁, hf₁⟩ := Feed.advance_of_passes hf
  obtain ⟨m, hproper, hm, hpseudo⟩ := pseudo_of_colons (hc₁.proper hp) hc hl hf₁
  simp [simple?, hf.token_eq, htoken, ha, hpseudo, hn m hproper hm]

lemma simple?_complete (hp : f.Proper) (h : Simple ls p) (hf : f.Passes ls g) :
    simple? f = .ok (some (p.weighed, g)) := by
  cases h with
  | universal h =>
    obtain ⟨m, ha, -, hm⟩ := Feed.advance_of_passes hf
    simp [simple?, hf.token_eq, h, ha, hm.eq_of_nil, Part.weighed_eq, Part.column?]
  | typeName h =>
    obtain ⟨m, ha, -, hm⟩ := Feed.advance_of_passes hf
    simp [simple?, hf.token_eq, h, ha, hm.eq_of_nil, Part.weighed_eq, Part.column?]
  | id h =>
    obtain ⟨m, ha, -, hm⟩ := Feed.advance_of_passes hf
    simp [simple?, hf.token_eq, h, ha, hm.eq_of_nil, Part.weighed_eq, Part.column?]
  | className hd h =>
    obtain ⟨m, ha, -, hm⟩ := Feed.advance_of_passes hf
    obtain ⟨n, ha', -, hn⟩ := Feed.advance_of_passes hm
    simp [simple?, classPart, hf.token_eq, hd, ha, ha', hm.token_eq, h, hn.eq_of_nil, Part.weighed_eq, Part.column?]
  | named hl h₁ hn h₂ hr =>
    obtain ⟨m, ha, -, hm⟩ := Feed.advance_of_passes hf
    simp [simple?, hf.token_eq, hl, ha, attributePart_of_name h₁ hn h₂ hr hm]
  | compared hl h₁ hn h₂ hop h₃ hv h₄ hr =>
    obtain ⟨m, ha, -, hm⟩ := Feed.advance_of_passes hf
    simp [simple?, hf.token_eq, hl, ha, attributePart_of_comparison h₁ hn h₂ hop h₃ hv h₄ hr hm]
  | pseudo hc hl hnames =>
    refine simple?_of_colons hc (by simp [hl]) hf ?_ hp
    intro m _ hm
    obtain ⟨n, ha, -, hn⟩ := Feed.advance_of_passes hm
    simp [pseudoName, ha, hm.token_eq, hl, hn.eq_of_nil, names_iff.1 hnames]
  | pseudoFunction hc hl hb hw hr hnames =>
    refine simple?_of_colons hc (by simp [hl]) hf ?_ hp
    intro m hproper hm
    obtain ⟨n, ha, hto, hn⟩ := Feed.advance_of_passes hm
    have hargs := argumentText_complete (hto.proper hproper) hr hn hb hw
    simp [pseudoName, ha, hm.token_eq, hl, hargs, names_iff.1 hnames]

/-- The first token tells whether there is a simple selector. -/
lemma simple?_eq_none_iff : simple? f = .ok none ↔ startsSimple f.token = false := by
  constructor
  · intro h
    unfold simple? at h
    split at h
    · obtain ⟨_, -, h⟩ := of_bind_eq_ok h
      cases h
    · obtain ⟨_, -, h⟩ := of_bind_eq_ok h
      cases h
    · obtain ⟨_, -, h⟩ := of_bind_eq_ok h
      obtain ⟨_, -, h⟩ := of_bind_eq_ok h
      cases h
    · obtain ⟨_, -, h⟩ := of_bind_eq_ok h
      obtain ⟨_, -, h⟩ := of_bind_eq_ok h
      cases h
    · next ht =>
      split_ifs at h with hstar hdot
      · obtain ⟨_, -, h⟩ := of_bind_eq_ok h
        cases h
      · obtain ⟨_, -, h⟩ := of_bind_eq_ok h
        obtain ⟨_, -, h⟩ := of_bind_eq_ok h
        cases h
      · simp [ht, startsSimple, hstar, hdot]
    · unfold startsSimple
      split <;> simp_all
  · intro h
    unfold simple?
    unfold startsSimple at h
    split at h <;> simp_all

lemma Simple.startsSimple_head (h : Simple ls p) : ∃ l rest, ls = l :: rest ∧ startsSimple l.token = true := by
  cases h with
  | universal h => exact ⟨_, _, rfl, by simp [h, startsSimple]⟩
  | typeName h => exact ⟨_, _, rfl, by simp [h, startsSimple]⟩
  | id h => exact ⟨_, _, rfl, by simp [h, startsSimple]⟩
  | className hd _ => exact ⟨_, _, rfl, by simp [hd, startsSimple]⟩
  | named hl _ _ _ _ => exact ⟨_, _, rfl, by simp [hl, startsSimple]⟩
  | compared hl _ _ _ _ _ _ _ _ => exact ⟨_, _, rfl, by simp [hl, startsSimple]⟩
  | pseudo hc _ =>
    obtain ⟨c, rest, rfl, ht⟩ := hc.exists_cons
    exact ⟨c, _, rfl, by simp [ht, startsSimple]⟩
  | pseudoFunction hc _ _ _ =>
    obtain ⟨c, rest, rfl, ht⟩ := hc.exists_cons
    exact ⟨c, _, rfl, by simp [ht, startsSimple]⟩

end Simple

/-! ## Compounds and what joins them -/

section Compound
variable {weight sum : Specificity} {f g : Feed} {ls : List Lexeme} {ps : List Part}

lemma Compound.startsSimple_head (h : Compound ls ps) :
    ∃ l rest, ls = l :: rest ∧ startsSimple l.token = true := by
  cases h with
  | single h => exact h.startsSimple_head
  | more h _ =>
    obtain ⟨l, rest, rfl, hl⟩ := h.startsSimple_head
    exact ⟨l, _, rfl, hl⟩

/-- As many simple selectors as follow each other, none included, and the weight with theirs added. -/
lemma simples_sound (hp : f.Proper) (h : simples weight f = .ok (ps, sum, g)) :
    startsSimple g.token = false ∧ sum = weight + Part.tally ps ∧
      ∃ ls, f.Passes ls g ∧ ∀ ms p, Simple ms p → Compound (ms ++ ls) (p :: ps) := by
  fun_induction simples weight f generalizing ps with
  | case1 => cases h
  | case2 weight f hs =>
    cases h
    refine ⟨simple?_eq_none_iff.1 hs, by simp, [], Feed.Passes.refl _, ?_⟩
    intro ms p hm
    rw [List.append_nil]
    exact .single hm
  | case3 weight f q w f₁ hs ih =>
    obtain ⟨⟨qs, sum', g'⟩, hr, hk⟩ := of_bind_eq_ok h
    cases hk
    obtain ⟨ls, _, ⟨rfl, rfl⟩, hls, hpass⟩ := simple?_sound hp hs
    obtain ⟨hend, hsum, ms, hms, hcompound⟩ := ih (hpass.proper hp) hr
    refine ⟨hend, ?_, ls ++ ms, hpass.trans hms, ?_⟩
    · rw [hsum, Specificity.add_assoc, ← Part.tally_cons]
    · intro ns p' hn
      exact .more hn (hcompound ls q hls)

lemma compound_sound (hp : f.Proper) (h : compound weight f = .ok (ps, sum, g)) :
    startsSimple g.token = false ∧ sum = weight + Part.tally ps ∧ ∃ ls, f.Passes ls g ∧ Compound ls ps := by
  unfold compound at h
  split at h
  · cases h
  · cases h
  · next hs =>
    obtain ⟨⟨qs, sum', g'⟩, hr, hk⟩ := of_bind_eq_ok h
    cases hk
    obtain ⟨ls, _, ⟨rfl, rfl⟩, hls, hpass⟩ := simple?_sound hp hs
    obtain ⟨hend, hsum, ms, hms, hcompound⟩ := simples_sound (hpass.proper hp) hr
    refine ⟨hend, ?_, ls ++ ms, hpass.trans hms, hcompound ls _ hls⟩
    rw [hsum, Specificity.add_assoc, ← Part.tally_cons]

lemma simples_of_none (h : startsSimple f.token = false) : simples weight f = .ok ([], weight, f) := by
  rw [simples]
  split
  · next hs => cases (simple?_eq_none_iff.2 h).symm.trans hs
  · rfl
  · next hs => cases (simple?_eq_none_iff.2 h).symm.trans hs

lemma simples_of_some {p : Part} {w : Specificity} (h : simple? f = .ok (some ((p, w), g))) :
    simples weight f = do
      let (ps, sum, rest) ← simples (weight + w) g
      return (p :: ps, sum, rest) := by
  rw [simples]
  split
  · next hs => cases h.symm.trans hs
  · next hs => cases h.symm.trans hs
  · next hs =>
    cases h.symm.trans hs
    rfl

lemma simples_complete (hp : f.Proper) (h : Compound ls ps) (hf : f.Passes ls g)
    (hg : startsSimple g.token = false) : simples weight f = .ok (ps, weight + Part.tally ps, g) := by
  induction h generalizing f weight with
  | single h =>
    simp [simples_of_some (simple?_complete hp h hf), simples_of_none hg]
  | @more _ _ p ps h _ ih =>
    obtain ⟨m, hm, hrest⟩ := hf.split
    simp [simples_of_some (simple?_complete hp h hm), ih (hm.proper hp) hrest, Part.tally_cons p ps,
      Specificity.add_assoc]

lemma compound_complete (hp : f.Proper) (h : Compound ls ps) (hf : f.Passes ls g)
    (hg : startsSimple g.token = false) : compound weight f = .ok (ps, weight + Part.tally ps, g) := by
  unfold compound
  cases h with
  | single h => simp [simple?_complete hp h hf, Part.weighed, simples_of_none hg]
  | @more _ _ p ps h hs =>
    obtain ⟨m, hm, hrest⟩ := hf.split
    simp [simple?_complete hp h hm, Part.weighed, simples_complete (hm.proper hp) hs hrest hg, Part.tally_cons p ps,
      Specificity.add_assoc]

end Compound

section Tokens
variable {t : Token} {c : Combinator}

/-- The tokens that begin a simple selector, that join two compounds and that end a selector are told apart. -/
lemma of_startsSimple (h : startsSimple t = true) :
    t ≠ .whitespace ∧ endsSelector t = false ∧ combinator? t = none := by
  cases t with
  | delim d =>
    simp only [startsSimple, Bool.or_eq_true, decide_eq_true_eq] at h
    obtain rfl | rfl := h <;> decide
  | _ => simp_all [startsSimple, endsSelector, combinator?]

lemma combinator?_eq_some (h : combinator? t = some c) :
    t ≠ .whitespace ∧ endsSelector t = false ∧ startsSimple t = false := by
  unfold combinator? at h
  split at h <;> simp_all [startsSimple, endsSelector]

lemma startsSimple_of_endsSelector (h : endsSelector t = true) : startsSimple t = false := by
  unfold endsSelector at h
  simp only [Bool.or_eq_true, decide_eq_true_eq] at h
  obtain rfl | rfl := h <;> rfl

end Tokens

section Joint
variable {f g : Feed} {ls : List Lexeme} {c : Combinator}

lemma Joins.startsSimple_head (h : Joins ls c) : ∃ l rest, ls = l :: rest ∧ startsSimple l.token = false := by
  cases h with
  | blank h => exact ⟨_, _, rfl, by simp [h, startsSimple]⟩
  | written h₁ hl h₂ =>
    cases h₁ with
    | none => exact ⟨_, _, rfl, (combinator?_eq_some (combinator?_eq_some_iff.2 hl)).2.2⟩
    | run h => exact ⟨_, _, rfl, by simp [h, startsSimple]⟩

lemma joint_none_sound (hp : f.Proper) (h : joint f = .ok (none, g)) :
    ∃ b, Blank b ∧ f.Passes b g ∧ endsSelector g.token = true := by
  obtain ⟨f₁, h₁, h⟩ := of_bind_eq_ok h
  obtain ⟨b, hb, hpass, -⟩ := hp.skipBlank h₁
  split at h
  · next he =>
    cases h
    exact ⟨b, hb, hpass, he⟩
  · split at h
    · obtain ⟨f₂, -, h⟩ := of_bind_eq_ok h
      obtain ⟨f₃, -, h⟩ := of_bind_eq_ok h
      cases h
    · cases h

/-- Two compounds are joined, unless the next one would have to begin where the last one could not go on. -/
lemma joint_some_sound {lead : List Part} (hp : f.Proper) (h : joint f = .ok (some lead, g)) :
    f = g ∨ ∃ ls c, Joins ls c ∧ f.Passes ls g ∧ lead = [.combinator c] := by
  obtain ⟨f₁, h₁, h⟩ := of_bind_eq_ok h
  obtain ⟨b, hb, hpass, hblank⟩ := hp.skipBlank h₁
  split at h
  · cases h
  · split at h
    · next c hc =>
      obtain ⟨f₂, h₂, h⟩ := of_bind_eq_ok h
      obtain ⟨f₃, h₃, h⟩ := of_bind_eq_ok h
      cases h
      have hne : f₁.token ≠ .eof := by
        intro he
        rw [he] at hc
        cases hc
      have hpass₂ := hpass.trans ((hpass.proper hp).advance hne h₂)
      obtain ⟨b', hb', hpass₃, -⟩ := (hpass₂.proper hp).skipBlank h₃
      right
      refine ⟨_, c, .written hb (combinator?_eq_some_iff.1 hc) hb', ?_, rfl⟩
      simpa using hpass₂.trans hpass₃
    · cases h
      cases hb with
      | none => exact Or.inl hpass.eq_of_nil
      | run hl =>
        right
        refine ⟨_, _, .blank hl, hpass, ?_⟩
        rw [if_pos (hpass.token_eq.trans hl)]

lemma joint_of_end {b : List Lexeme} (hb : Blank b) (hf : f.Passes b g) (hg : endsSelector g.token = true) :
    joint f = .ok (none, g) := by
  have hne : g.token ≠ .whitespace := by
    intro ht
    rw [ht] at hg
    cases hg
  simp [joint, Feed.skipBlank_of_passes hb hf hne, hg]

lemma joint_of_joins (hj : Joins ls c) (hf : f.Passes ls g) (hg : startsSimple g.token = true) :
    joint f = .ok (some [.combinator c], g) := by
  obtain ⟨hblank, hend, hcomb⟩ := of_startsSimple hg
  unfold joint
  cases hj with
  | blank h =>
    have hs : f.skipBlank = .ok g := Feed.skipBlank_of_passes (.run h) hf hblank
    simp [hs, hend, hcomb, hf.token_eq, h]
  | written h₁ hl h₂ =>
    rw [← combinator?_eq_some_iff] at hl
    obtain ⟨hl₁, hl₂, -⟩ := combinator?_eq_some hl
    obtain ⟨f₁, hs₁, -, hf₁⟩ := Feed.skipBlank_cons h₁ hf hl₁
    obtain ⟨f₂, ha, -, hf₂⟩ := Feed.advance_of_passes hf₁
    have hs₂ : f₂.skipBlank = .ok g := Feed.skipBlank_of_passes h₂ hf₂ hblank
    simp [hs₁, hf₁.token_eq, hl₂, hl, ha, hs₂]

end Joint

/-! ## Selectors and lists of them -/

section Complex
variable {weight sum total : Specificity} {f last next : Feed} {ls b : List Lexeme} {ps : List Part}

lemma Complex.startsSimple_head (h : Complex ls ps) :
    ∃ l rest, ls = l :: rest ∧ startsSimple l.token = true := by
  cases h with
  | compound h => exact h.startsSimple_head
  | join h _ _ =>
    obtain ⟨l, rest, rfl, hl⟩ := h.startsSimple_head
    exact ⟨l, _, rfl, hl⟩

lemma compound_of_not_startsSimple {g : Feed} (h : startsSimple f.token = false) :
    compound weight f ≠ .ok (ps, sum, g) := by
  unfold compound
  rw [simple?_eq_none_iff.2 h]
  simp

/-- What is read behind a compound completes it to a selector, and the weight to that of all its parts. -/
lemma tail_sound (hp : f.Proper) (hf : startsSimple f.token = false)
    (h : tail weight f = .ok (ps, total, last, next)) :
    total = weight + Part.tally ps ∧
      ∃ ms b, f.Passes ms last ∧ Blank b ∧ last.Passes b next ∧ endsSelector next.token = true ∧
        ∀ ls qs, Compound ls qs → Complex (ls ++ ms) (qs ++ ps) := by
  fun_induction tail weight f generalizing ps with
  | case1 => cases h
  | case2 weight f g hj =>
    cases h
    obtain ⟨b, hb, hpass, hend⟩ := joint_none_sound hp hj
    refine ⟨by simp, [], b, Feed.Passes.refl _, hb, hpass, hend, ?_⟩
    intro ls qs hc
    simpa using Complex.compound hc
  | case3 => cases h
  | case4 weight f lead g hj qs sum f₂ hc ih =>
    obtain ⟨⟨rs, t, l, n⟩, hr, hk⟩ := of_bind_eq_ok h
    cases hk
    obtain rfl | ⟨js, c, hjoin, hpass, rfl⟩ := joint_some_sound hp hj
    · exact absurd hc (compound_of_not_startsSimple hf)
    · obtain ⟨hstop, hsum, ns, hns, hcompound⟩ := compound_sound (hpass.proper hp) hc
      have hto := hpass.trans hns
      obtain ⟨htotal, ms, b, hms, hb, hnext, hend, hcomplex⟩ := ih (hto.proper hp) hstop hr
      refine ⟨?_, _, b, hto.trans hms, hb, hnext, hend, ?_⟩
      · simp [htotal, hsum, Part.tally_append, Part.tally_combinator_cons, Specificity.add_assoc]
      · intro ls qs' hc'
        simpa using Complex.join hc' hjoin (hcomplex ns qs hcompound)

lemma tail_of_joint_none {g : Feed} (h : joint f = .ok (none, g)) : tail weight f = .ok ([], weight, f, g) := by
  rw [tail]
  split
  · next hs => cases h.symm.trans hs
  · next hs =>
    cases h.symm.trans hs
    rfl
  · next hs => cases h.symm.trans hs

lemma tail_of_joint_some {g m : Feed} {lead : List Part} (h : joint f = .ok (some lead, g))
    (hc : compound weight g = .ok (ps, sum, m)) :
    tail weight f = do
      let (rest, total, last, next) ← tail sum m
      return (lead ++ ps ++ rest, total, last, next) := by
  rw [tail]
  split
  · next hs => cases h.symm.trans hs
  · next hs => cases h.symm.trans hs
  · next hs =>
    cases h.symm.trans hs
    split
    · next hs' => cases hc.symm.trans hs'
    · next hs' =>
      cases hc.symm.trans hs'
      rfl

/-- The first compound of a selector is read as far as it goes, and the rest behind it. -/
lemma tail_complete (weight : Specificity) (hp : f.Proper) (h : Complex ls ps) (hf : f.Passes ls last) (hb : Blank b)
    (hl : last.Passes b next) (hn : endsSelector next.token = true) :
    ∃ qs rs sum m, compound weight f = .ok (qs, sum, m) ∧
      tail sum m = .ok (rs, weight + Part.tally ps, last, next) ∧ ps = qs ++ rs := by
  induction h generalizing f weight with
  | @compound ls ps h =>
    have hlast : startsSimple last.token = false := by
      cases hb with
      | none =>
        rw [hl.eq_of_nil]
        exact startsSimple_of_endsSelector hn
      | run h => simp [hl.token_eq, h, startsSimple]
    refine ⟨ps, [], _, last, compound_complete hp h hf hlast, ?_, by simp⟩
    exact tail_of_joint_none (joint_of_end hb hl hn)
  | @join ls ms ns ps qs c h hj hs ih =>
    obtain ⟨f₁, hls, hrest⟩ := hf.split
    obtain ⟨f₂, hms, hns⟩ := hrest.split
    obtain ⟨qs', rs, sum, m, hc, htail, rfl⟩ := ih _ (hms.proper (hls.proper hp)) hns
    refine ⟨ps, .combinator c :: (qs' ++ rs), _, f₁, compound_complete hp h hls ?_, ?_, rfl⟩
    · obtain ⟨l, rest, rfl, hl⟩ := hj.startsSimple_head
      rwa [hms.token_eq]
    · have hstart : startsSimple f₂.token = true := by
        obtain ⟨l, rest, rfl, hl⟩ := hs.startsSimple_head
        rwa [hns.token_eq]
      rw [tail_of_joint_some (joint_of_joins hj hms hstart) hc, htail]
      simp [Part.tally_append, Part.tally_combinator_cons, Specificity.add_assoc]

lemma headD_of_passes (hb : Blank b) (hl : last.Passes b next) : b.headD next.current = last.current := by
  cases hb with
  | none => rw [hl.eq_of_nil]; rfl
  | run _ => exact hl.current_eq.symm

lemma complex_sound {s : Selector} (hp : f.Proper) (h : complex f = .ok (s, next)) :
    endsSelector next.token = true ∧
      ∃ ls, f.Passes ls next ∧ ∀ b, Blank b → Entry (b ++ ls) next.current s := by
  unfold complex at h
  split_ifs at h
  split at h
  · obtain ⟨f₁, -, h⟩ := of_bind_eq_ok h
    cases h
  · obtain ⟨⟨ps, sum, f₁⟩, h₁, h⟩ := of_bind_eq_ok h
    obtain ⟨⟨rest, total, last, next⟩, h₂, h⟩ := of_bind_eq_ok h
    cases h
    obtain ⟨hstop, hsum, ls, hls, hcompound⟩ := compound_sound hp h₁
    obtain ⟨htotal, ms, b₂, hms, hb₂, hlast, hend, hcomplex⟩ := tail_sound (hls.proper hp) hstop h₂
    rw [Specificity.zero_add] at hsum
    have hto := hls.trans hms
    refine ⟨hend, _, hto.trans hlast, ?_⟩
    intro b hb
    simp only [htotal, hsum, ← Part.tally_append, hto.slice_eq, ← headD_of_passes hb₂ hlast]
    exact .mk hb (hcomplex ls ps hcompound) hb₂

lemma complex_complete {b₂ : List Lexeme} (hp : f.Proper) (h : Complex ls ps) (hb₂ : Blank b₂)
    (hf : f.Passes (ls ++ b₂) next) (hn : endsSelector next.token = true) :
    complex f = .ok (⟨ps, Part.tally ps,
      String.ofList (Text.trim (Lexeme.writing ls (b₂.headD next.current)))⟩, next) := by
  obtain ⟨last, hls, hlast⟩ := hf.split
  obtain ⟨qs, rs, sum, m, hc, htail, rfl⟩ := tail_complete .zero hp h hls hb₂ hlast hn
  obtain ⟨l, rest, rfl, hl⟩ := h.startsSimple_head
  obtain ⟨-, hend, hcomb⟩ := of_startsSimple (hls.token_eq ▸ hl)
  rw [headD_of_passes hb₂ hlast]
  simp [complex, hend, hcomb, hc, htail, hls.slice_eq]

end Complex

section List
variable {f : Feed} {ss : List Selector}

lemma list_of_complex {g next : Feed} {s : Selector} (hb : f.skipBlank = .ok g) (hc : complex g = .ok (s, next)) :
    list f = if next.token = .comma then do return s :: (← list (← next.advance)) else .ok [s] := by
  rw [list]
  split
  · next he => cases hb.symm.trans he
  · next he =>
    cases hb.symm.trans he
    split
    · next he' => cases hc.symm.trans he'
    · next he' =>
      cases hc.symm.trans he'
      split_ifs
      · split
        · next ha => simp [ha, bind, Except.bind]
        · next ha => simp [ha]
      · rfl

lemma list_sound (hp : f.Proper) (h : list f = .ok ss) :
    f.stop = none ∧ Listed (f.current :: f.ahead) ss := by
  fun_induction list f generalizing ss with
  | case1 => cases h
  | case2 => cases h
  | case3 => cases h
  | case4 f g hb s next hc ht after ha ih =>
    obtain ⟨ss', hr, hk⟩ := of_bind_eq_ok h
    cases hk
    obtain ⟨b, hblank, hpass, -⟩ := hp.skipBlank hb
    obtain ⟨-, ls, hls, hentry⟩ := complex_sound (hpass.proper hp) hc
    have hto := hpass.trans hls
    have hcomma := (hto.proper hp).advance (by simp [ht]) ha
    have hafter := hto.trans hcomma
    obtain ⟨hstop, hlisted⟩ := ih (hafter.proper hp) hr
    refine ⟨hafter.stop.symm.trans hstop, ?_⟩
    rw [hafter.row, List.append_assoc]
    exact .more (hentry b hblank) ht hlisted
  | case5 f g hb s next hc ht =>
    cases h
    obtain ⟨b, hblank, hpass, -⟩ := hp.skipBlank hb
    obtain ⟨hend, ls, hls, hentry⟩ := complex_sound (hpass.proper hp) hc
    have hto := hpass.trans hls
    have heof : next.token = .eof := by simpa [endsSelector, ht] using hend
    obtain ⟨hahead, hstop⟩ := Lexeme.row_of_eof (hto.proper hp) heof
    refine ⟨hto.stop.symm.trans hstop, ?_⟩
    rw [hto.row, hahead]
    exact .last (hentry b hblank) heof

lemma complex_of_entry {next : Feed} {ls : List Lexeme} {s : Selector} (hp : f.Proper)
    (h : Entry ls next.current s) (hf : f.Passes ls next) (hn : endsSelector next.token = true) :
    ∃ g, f.skipBlank = .ok g ∧ complex g = .ok (s, next) := by
  cases h with
  | mk h₁ h h₂ =>
    obtain ⟨g, hg, hrest⟩ := hf.split
    refine ⟨g, Feed.skipBlank_of_passes h₁ hg ?_, complex_complete (hg.proper hp) h h₂ hrest hn⟩
    obtain ⟨l, rest, rfl, hl⟩ := h.startsSimple_head
    rw [hrest.token_eq]
    exact (of_startsSimple hl).1

lemma Listed.ne_nil {ls : List Lexeme} (h : Listed ls ss) : ls ≠ [] := by
  cases h <;> simp

lemma Listed.exists_startsSimple {ls : List Lexeme} (h : Listed ls ss) :
    ∃ l ∈ ls, startsSimple l.token = true := by
  have hentry {ls : List Lexeme} {next : Lexeme} {s : Selector} (h : Entry ls next s) :
      ∃ l ∈ ls, startsSimple l.token = true := by
    cases h with
    | mk _ h _ =>
      obtain ⟨l, rest, rfl, hl⟩ := h.startsSimple_head
      exact ⟨l, by simp, hl⟩
  cases h with
  | last h _ =>
    obtain ⟨l, hmem, hl⟩ := hentry h
    exact ⟨l, List.mem_append_left _ hmem, hl⟩
  | more h _ _ =>
    obtain ⟨l, hmem, hl⟩ := hentry h
    exact ⟨l, List.mem_append_left _ hmem, hl⟩

lemma list_complete {ls : List Lexeme} (hp : f.Proper) (h : Listed ls ss) (hrow : f.current :: f.ahead = ls) :
    list f = .ok ss := by
  induction h generalizing f with
  | @last ls e s h he =>
    obtain ⟨g, hb, hc⟩ := complex_of_entry hp h (hp.passes hrow) (by simp [Feed.token, he, endsSelector])
    simp [list_of_complex hb hc, Feed.token, he]
  | @more ls ms c s ss h hc hs ih =>
    obtain ⟨g, hb, hcomplex⟩ := complex_of_entry hp h (hp.passes hrow) (by simp [Feed.token, hc, endsSelector])
    obtain ⟨m, rest, rfl⟩ := List.exists_cons_of_ne_nil hs.ne_nil
    have hpass : f.Passes (ls ++ [c]) ⟨m, rest, f.stop⟩ := by
      apply hp.passes
      rw [hrow, List.append_assoc]
      rfl
    have hrest : list ⟨m, rest, f.stop⟩ = .ok ss := ih (hpass.proper hp) rfl
    simp [list_of_complex hb hcomplex, Feed.token, hc, Feed.advance, hrest]

end List

lemma parseListAt_eq_ok_iff {place : Location} {cs : List Char} {ss : List Selector} :
    parseListAt place cs = .ok ss ↔ ∃ ls, Lexer.Reads place cs ls none ∧ Listed ls ss := by
  constructor
  · intro h
    obtain ⟨f, hf, hl⟩ := of_bind_eq_ok h
    have hr := Feed.ofText_eq_ok_iff.1 hf
    obtain ⟨hstop, hlisted⟩ := list_sound hr.row hl
    rw [hstop] at hr
    exact ⟨_, hr, hlisted⟩
  · rintro ⟨ls, hr, hl⟩
    obtain ⟨l, rest, rfl⟩ := List.exists_cons_of_ne_nil hl.ne_nil
    have hf : Feed.ofText place cs = .ok ⟨l, rest, none⟩ := Feed.ofText_eq_ok_iff.2 hr
    simp [parseListAt, hf, list_complete (Feed.proper_of_ofText hf) hl rfl]

end Selector

/-! ## Parts in order, and their weight -/

namespace Part

/-- Simple selectors with at most one combinator between each two of them, and one of them at either end. -/
structure Joined (ps : List Part) : Prop where
  ne_nil : ps ≠ []
  head : ∀ p ∈ ps.head?, p.isCombinator = false
  last : ∀ p ∈ ps.getLast?, p.isCombinator = false
  apart : ps.IsChain fun p q => p.isCombinator = false ∨ q.isCombinator = false

lemma Joined.of_simples {ps : List Part} (hne : ps ≠ []) (h : ∀ p ∈ ps, p.isCombinator = false) :
    Joined ps := by
  refine ⟨hne, ?_, ?_, ?_⟩
  · intro p hp
    exact h p (List.mem_of_mem_head? hp)
  · intro p hp
    exact h p (List.mem_of_mem_getLast? hp)
  · apply List.Pairwise.isChain
    apply List.pairwise_of_forall_mem_list
    intro p hp q _
    exact Or.inl (h p hp)

lemma Joined.join {ps qs : List Part} (hp : Joined ps) (c : Combinator) (hq : Joined qs) :
    Joined (ps ++ .combinator c :: qs) := by
  refine ⟨by simp, ?_, ?_, ?_⟩
  · intro p hmem
    rw [List.head?_append_of_ne_nil ps hp.ne_nil] at hmem
    exact hp.head p hmem
  · intro p hmem
    rw [← List.singleton_append, ← List.append_assoc, List.getLast?_append_of_ne_nil _ hq.ne_nil] at hmem
    exact hq.last p hmem
  · refine hp.apart.append (List.isChain_cons.2 ⟨?_, hq.apart⟩) ?_
    · intro q hmem
      exact Or.inr (hq.head q hmem)
    · intro p hmem _ _
      exact Or.inl (hp.last p hmem)

end Part

namespace Selector

lemma Simple.isCombinator_eq_false {ls : List Lexeme} {p : Part} (h : Simple ls p) :
    p.isCombinator = false := by
  cases h with
  | pseudo _ _ hn => cases hn <;> rfl
  | pseudoFunction _ _ _ _ _ hn => cases hn <;> rfl
  | _ => rfl

lemma Compound.joined {ls : List Lexeme} {ps : List Part} (h : Compound ls ps) : Part.Joined ps := by
  have hsimple : ∀ p ∈ ps, p.isCombinator = false := by
    induction h with
    | single h => simpa using h.isCombinator_eq_false
    | more h _ ih => simpa using ⟨h.isCombinator_eq_false, ih⟩
  apply Part.Joined.of_simples _ hsimple
  cases h <;> simp

lemma Complex.joined {ls : List Lexeme} {ps : List Part} (h : Complex ls ps) : Part.Joined ps := by
  induction h with
  | compound h => exact h.joined
  | join h _ _ ih => exact h.joined.join _ ih

lemma Listed.joined_and_weight {ls : List Lexeme} {ss : List Selector} (h : Listed ls ss) :
    ∀ s ∈ ss, Part.Joined s.parts ∧ s.specificity = Part.tally s.parts := by
  have hentry {ls : List Lexeme} {next : Lexeme} {s : Selector} (h : Entry ls next s) :
      Part.Joined s.parts ∧ s.specificity = Part.tally s.parts := by
    cases h with
    | mk _ h _ => exact ⟨h.joined, rfl⟩
  induction h with
  | last h _ => simpa using hentry h
  | more h _ _ ih => simpa using ⟨hentry h, ih⟩

/-- A text is read as a list of selectors exactly when it can be read up to its end and its lexemes form such
a list; the selectors are then the ones that the grammar gives. Combinators stand only between simple
selectors, and the weight is the number of parts of each kind. -/
theorem parseList_eq_ok_iff_listed (text : String) (ss : List Selector) :
    (parseList text = .ok ss ↔ ∃ ls, Lexer.Reads .start text.toList ls none ∧ Listed ls ss) ∧
    (parseList text = .ok ss → ∀ s ∈ ss, Part.Joined s.parts ∧ s.specificity = Part.tally s.parts) := by
  refine ⟨parseListAt_eq_ok_iff, ?_⟩
  intro h
  obtain ⟨ls, -, hlisted⟩ := parseListAt_eq_ok_iff.1 h
  exact hlisted.joined_and_weight

/-- Blanks are a combinator between two compounds and nothing beside one that is written or a comma. -/
theorem parseList_eq_ok_iff_listed_two :
    let child := Part.combinator .child
    let two : List Selector :=
      [⟨[.typeName "ul", child, .className "on", .combinator .descendant, .universal], ⟨0, 1, 1⟩, "ul>.on *"⟩,
        ⟨[.id "a", .attr "b" (some (.includes, "c")), .pseudoClass "not" (some "(d)")], ⟨1, 2, 0⟩,
          "#a[b ~= c]:not((d))"⟩]
    parseList " ul>.on *, #a[b ~= c]:not((d))" = .ok two ∧
      (∃ ls, Lexer.Reads .start " ul>.on *, #a[b ~= c]:not((d))".toList ls none ∧ Listed ls two) ∧
      ∀ s ∈ two, Part.Joined s.parts ∧ s.specificity = Part.tally s.parts := by
  intro child two
  have hparse : parseList " ul>.on *, #a[b ~= c]:not((d))" = .ok two := by decide +kernel
  obtain ⟨hiff, hshape⟩ := parseList_eq_ok_iff_listed " ul>.on *, #a[b ~= c]:not((d))" two
  exact ⟨hparse, hiff.1 hparse, hshape hparse⟩

end Selector

end Stylebook
