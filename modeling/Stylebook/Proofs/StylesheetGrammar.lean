import Mathlib.Data.List.TakeWhile
import Stylebook.Proofs.Relocation
import Stylebook.Stylesheet.Parser

/-! The grammar of stylesheets, as relations between lexemes and what they stand for, and the proof that the
parser reads exactly this grammar. -/
namespace Stylebook.Stylesheet
open Lexeme (Blank)

/-! ## The grammar -/

/-- What is imported. -/
inductive Target : List Lexeme → String → Prop
  | string {l : Lexeme} {url : String} (h : l.token = .string url) : Target [l] url
  | url {l : Lexeme} {url : String} (h : l.token = .url url) : Target [l] url
  | quoted {l m r : Lexeme} {b₁ b₂ : List Lexeme} {name url : String} (hl : l.token = .function name)
      (hn : Text.inSmall name = "url") (h₁ : Blank b₁) (hm : m.token = .string url) (h₂ : Blank b₂)
      (hr : r.token = .rightParen) : Target (l :: (b₁ ++ m :: (b₂ ++ [r]))) url

/-- The depth of parentheses behind some lexemes that begin at a given depth: one more behind each that opens one,
one less behind each that closes one, and never below zero. -/
def depth : Nat → List Lexeme → Nat
  | d, [] => d
  | d, l :: ls =>
    if l.token.opens then depth (d + 1) ls
    else if l.token = .rightParen then depth (d - 1) ls
    else depth d ls

/-- Whether a token outside parentheses ends a value. -/
def Closes (t : Token) : Prop := t = .semicolon ∨ t = .rightBrace ∨ t = .delim '!'

/-- A part of a value that begins at a given depth and ends outside parentheses: what would end the value
stands inside parentheses only, and a brace never opens. -/
structure Contained (d : Nat) (ls : List Lexeme) : Prop where
  inside : ∀ front l rest, ls = front ++ l :: rest →
    l.token ≠ .leftBrace ∧ (Closes l.token → 0 < depth d front)
  closed : depth d ls = 0

/-- A value: it holds more than blanks, and more than an empty string. -/
structure Value (ls : List Lexeme) : Prop where
  contained : Contained 0 ls
  written : ∃ l ∈ ls, l.token ≠ .whitespace
  content : (ls.filter (·.token ≠ .whitespace)).map Lexeme.token ≠ [.string ""]

/-- The text of a value: what stands between the quotes of a string that is alone, and otherwise the lexemes as they
are written, spaced by single blanks. -/
inductive Spells (ls : List Lexeme) : String → Prop
  | quoted {text : String} (h : (ls.filter (·.token ≠ .whitespace)).map Lexeme.token = [.string text]) : Spells ls text
  | written {cs : List Char} (h : ∀ text, (ls.filter (·.token ≠ .whitespace)).map Lexeme.token ≠ [.string text])
      (hw : Lexeme.Written ls cs) : Spells ls (String.ofList cs)

/-- The optional mark behind a value. -/
inductive Importance : List Lexeme → Bool → Prop
  | plain : Importance [] false
  | important {e w : Lexeme} {b₁ b₂ : List Lexeme} {word : String} (he : e.token = .delim '!') (h₁ : Blank b₁)
      (hw : w.token = .ident word) (hword : Text.inSmall word = "important") (h₂ : Blank b₂) :
      Importance (e :: (b₁ ++ w :: b₂)) true

inductive Declares : List Lexeme → Setting → Prop
  | mk {p c : Lexeme} {b v i : List Lexeme} {property text : String} {important : Bool}
      (hp : p.token = .ident property) (hb : Blank b) (hc : c.token = .colon) (hv : Value v) (ht : Spells v text)
      (hi : Importance i important) :
      Declares (p :: (b ++ c :: (v ++ i))) ⟨property, text, important⟩

/-- The inside of a rule's block, with the brace that closes it. -/
inductive Block : List Lexeme → List Setting → Prop
  | close {l : Lexeme} (h : l.token = .rightBrace) : Block [l] []
  | blank {l : Lexeme} {ls : List Lexeme} {ss : List Setting} (h : l.token = .whitespace) (hs : Block ls ss) :
      Block (l :: ls) ss
  | semicolon {l : Lexeme} {ls : List Lexeme} {ss : List Setting} (h : l.token = .semicolon)
      (hs : Block ls ss) : Block (l :: ls) ss
  | setting {ds ls : List Lexeme} {l : Lexeme} {s : Setting} {ss : List Setting} (h : Declares ds s)
      (hl : l.token = .semicolon ∨ l.token = .rightBrace) (hs : Block (l :: ls) ss) :
      Block (ds ++ l :: ls) (s :: ss)

/-- A rule: lexemes whose source is a list of selectors, and a block behind them. -/
inductive Rule : List Lexeme → StyleRule → Prop
  | mk {p o : Lexeme} {ps body : List Lexeme} {selectors : List Selector} {settings : List Setting}
      (hp : ∀ l ∈ p :: ps, l.token ≠ .leftBrace ∧ l.token ≠ .rightBrace ∧ l.token ≠ .semicolon)
      (hb : p.token ≠ .whitespace) (ha : ∀ name, p.token ≠ .atKeyword name) (ho : o.token = .leftBrace)
      (hs : Selector.parseList (String.ofList (Lexeme.writing (p :: ps) o)) = .ok selectors)
      (hbody : Block body settings) :
      Rule (p :: ps ++ o :: body) ⟨selectors, settings, p.before⟩

/-- A statement at the top of a stylesheet; `none` for one that says nothing. -/
inductive Item : List Lexeme → Option Statement → Prop
  | importing {k c : Lexeme} {b₁ t b₂ : List Lexeme} {name url : String} (hk : k.token = .atKeyword name)
      (hn : Text.inSmall name = "import") (h₁ : Blank b₁) (ht : Target t url) (h₂ : Blank b₂)
      (hc : c.token = .semicolon) :
      Item (k :: (b₁ ++ (t ++ (b₂ ++ [c])))) (some (.importing ⟨url, k.before⟩))
  | charset {k c : Lexeme} {ls : List Lexeme} {name : String} (hk : k.token = .atKeyword name)
      (hn : Text.inSmall name = "charset") (hls : ∀ l ∈ ls, l.token ≠ .semicolon)
      (hc : c.token = .semicolon) : Item (k :: (ls ++ [c])) none
  | rule {ls : List Lexeme} {r : StyleRule} (h : Rule ls r) : Item ls (some (.rule r))

/-- A whole stylesheet, up to and with the end. -/
inductive Statements : List Lexeme → List Statement → Prop
  | done {e : Lexeme} (h : e.token = .eof) : Statements [e] []
  | blank {l : Lexeme} {ls : List Lexeme} {ss : List Statement} (h : l.token = .whitespace)
      (hs : Statements ls ss) : Statements (l :: ls) ss
  | item {ls ms : List Lexeme} {s : Option Statement} {ss : List Statement} (h : Item ls s)
      (hs : Statements ms ss) : Statements (ls ++ ms) (s.toList ++ ss)

/-! ## Imports -/

section Import
variable {f g : Feed}

lemma pass_sound {token : Token} {what : String} (hp : f.Proper) (ht : token ≠ .eof)
    (h : pass token what f = .ok g) : f.token = token ∧ f.Passes [f.current] g := by
  unfold pass at h
  split_ifs at h with hf
  exact ⟨hf, hp.advance (by rwa [hf]) h⟩

lemma pass_complete {token : Token} {l : Lexeme} {ls : List Lexeme} (hl : l.token = token)
    (hf : f.Passes (l :: ls) g) :
    ∃ m, (∀ what, pass token what f = .ok m) ∧ f.Passes [l] m ∧ m.Passes ls g := by
  obtain ⟨m, ha, hl', hls⟩ := Feed.advance_of_passes hf
  refine ⟨m, ?_, hl', hls⟩
  intro what
  rw [pass, if_pos (hf.token_eq.trans hl), ha]

lemma importTarget_sound {url : String} (hp : f.Proper) (h : importTarget f = .ok (url, g)) :
    ∃ ls, Target ls url ∧ f.Passes ls g := by
  unfold importTarget at h
  split at h
  · next ht =>
    obtain ⟨f₁, h₁, h⟩ := of_bind_eq_ok h
    cases h
    exact ⟨_, .string ht, hp.advance (by simp [ht]) h₁⟩
  · next ht =>
    obtain ⟨f₁, h₁, h⟩ := of_bind_eq_ok h
    cases h
    exact ⟨_, .url ht, hp.advance (by simp [ht]) h₁⟩
  · next name ht =>
    split_ifs at h with hn
    obtain ⟨f₁, h₁, h⟩ := of_bind_eq_ok h
    have hpass₁ := hp.advance (by simp [ht]) h₁
    obtain ⟨f₂, h₂, h⟩ := of_bind_eq_ok h
    obtain ⟨b₁, hb₁, hpass₂, -⟩ := (hpass₁.proper hp).skipBlank h₂
    have hto₂ := hpass₁.trans hpass₂
    split at h
    · next hm =>
      obtain ⟨f₃, h₃, h⟩ := of_bind_eq_ok h
      obtain ⟨f₄, h₄, h⟩ := of_bind_eq_ok h
      obtain ⟨f₅, h₅, h⟩ := of_bind_eq_ok h
      cases h
      have hto₃ := hto₂.trans ((hto₂.proper hp).advance (by simp [hm]) h₃)
      obtain ⟨b₂, hb₂, hpass₄, -⟩ := (hto₃.proper hp).skipBlank h₄
      have hto₄ := hto₃.trans hpass₄
      obtain ⟨hr, hpass₅⟩ := pass_sound (hto₄.proper hp) (by simp) h₅
      refine ⟨_, .quoted ht (Selector.lowercase_eq name ▸ hn) hb₁ hm hb₂ hr, ?_⟩
      simpa using hto₄.trans hpass₅
    · cases h
  · cases h

lemma importTarget_complete {ls : List Lexeme} {url : String} (h : Target ls url) (hf : f.Passes ls g) :
    importTarget f = .ok (url, g) := by
  unfold importTarget
  cases h with
  | string h =>
    obtain ⟨m, ha, -, hm⟩ := Feed.advance_of_passes hf
    simp [hf.token_eq, h, ha, hm.eq_of_nil]
  | url h =>
    obtain ⟨m, ha, -, hm⟩ := Feed.advance_of_passes hf
    simp [hf.token_eq, h, ha, hm.eq_of_nil]
  | quoted hl hn h₁ hm h₂ hr =>
    rw [← Selector.lowercase_eq] at hn
    obtain ⟨f₁, ha₁, -, hf₁⟩ := Feed.advance_of_passes hf
    obtain ⟨f₂, hs₂, -, hf₂⟩ := Feed.skipBlank_cons h₁ hf₁ (by simp [hm])
    obtain ⟨f₃, ha₃, -, hf₃⟩ := Feed.advance_of_passes hf₂
    obtain ⟨f₄, hs₄, -, hf₄⟩ := Feed.skipBlank_cons h₂ hf₃ (by simp [hr])
    obtain ⟨f₅, hp₅, -, hf₅⟩ := pass_complete hr hf₄
    simp [hf.token_eq, hl, hn, ha₁, quotedTarget, hs₂, hf₂.token_eq, hm, ha₃, hs₄, hp₅, hf₅.eq_of_nil]

lemma Target.head {ls : List Lexeme} {url : String} (h : Target ls url) :
    ∃ l rest, ls = l :: rest ∧ l.token ≠ .whitespace := by
  cases h with
  | string h => exact ⟨_, _, rfl, by simp [h]⟩
  | url h => exact ⟨_, _, rfl, by simp [h]⟩
  | quoted h _ _ _ _ _ => exact ⟨_, _, rfl, by simp [h]⟩

lemma importStatement_sound {place : Location} {i : Import} (hp : f.Proper)
    (h : importStatement place f = .ok (i, g)) :
    ∃ b₁ t b₂ c, Blank b₁ ∧ Target t i.url ∧ Blank b₂ ∧ c.token = .semicolon ∧ i.place = place ∧
      f.Passes (b₁ ++ (t ++ (b₂ ++ [c]))) g := by
  obtain ⟨f₁, h₁, h⟩ := of_bind_eq_ok h
  obtain ⟨⟨url, f₂⟩, h₂, h⟩ := of_bind_eq_ok h
  obtain ⟨f₃, h₃, h⟩ := of_bind_eq_ok h
  obtain ⟨f₄, h₄, h⟩ := of_bind_eq_ok h
  cases h
  obtain ⟨b₁, hb₁, hpass₁, -⟩ := hp.skipBlank h₁
  obtain ⟨t, ht, hpass₂⟩ := importTarget_sound (hpass₁.proper hp) h₂
  have hto₂ := hpass₁.trans hpass₂
  obtain ⟨b₂, hb₂, hpass₃, -⟩ := (hto₂.proper hp).skipBlank h₃
  have hto₃ := hto₂.trans hpass₃
  obtain ⟨hc, hpass₄⟩ := pass_sound (hto₃.proper hp) (by simp) h₄
  refine ⟨b₁, t, b₂, f₃.current, hb₁, ht, hb₂, hc, rfl, ?_⟩
  simpa using hto₃.trans hpass₄

lemma importStatement_complete {place : Location} {b₁ t b₂ : List Lexeme} {c : Lexeme} {url : String}
    (h₁ : Blank b₁) (ht : Target t url) (h₂ : Blank b₂) (hc : c.token = .semicolon)
    (hf : f.Passes (b₁ ++ (t ++ (b₂ ++ [c]))) g) : importStatement place f = .ok (⟨url, place⟩, g) := by
  obtain ⟨f₁, hto₁, hf₁⟩ := hf.split
  obtain ⟨f₂, hto₂, hf₂⟩ := hf₁.split
  have hs₁ : f.skipBlank = .ok f₁ := by
    apply Feed.skipBlank_of_passes h₁ hto₁
    obtain ⟨l, rest, rfl, hl⟩ := ht.head
    rwa [hto₂.token_eq]
  obtain ⟨f₃, hs₃, -, hf₃⟩ := Feed.skipBlank_cons h₂ hf₂ (by simp [hc])
  obtain ⟨f₄, hp₄, -, hf₄⟩ := pass_complete hc hf₃
  simp [importStatement, hs₁, importTarget_complete ht hto₂, hs₃, hp₄, hf₄.eq_of_nil]

end Import

/-! ## Values -/

section Contained
variable {d : Nat} {l : Lexeme} {ls : List Lexeme}

lemma depth_cons : depth d (l :: ls) = depth (l.token.nest d) ls := by
  rw [depth]
  split_ifs with ho hc
  · rw [Token.nest_of_opens ho]
  · rw [hc, Token.nest]
  · rw [Token.nest_of_word (by simpa using ho) hc]

lemma contained_nil : Contained d [] ↔ d = 0 := by
  constructor
  · intro h
    exact h.closed
  · intro h
    refine ⟨?_, h⟩
    intro front l rest he
    simp at he

/-- One lexeme further, the depth is the one that the lexeme leaves. -/
lemma contained_cons :
    Contained d (l :: ls) ↔
      l.token ≠ .leftBrace ∧ (Closes l.token → 0 < d) ∧ Contained (l.token.nest d) ls := by
  constructor
  · intro h
    obtain ⟨hbrace, hcloses⟩ := h.inside [] l ls rfl
    refine ⟨hbrace, hcloses, ?_, depth_cons ▸ h.closed⟩
    intro front m rest he
    rw [← depth_cons]
    exact h.inside (l :: front) m rest (by rw [he]; rfl)
  · rintro ⟨hbrace, hcloses, h⟩
    refine ⟨?_, depth_cons ▸ h.closed⟩
    intro front m rest he
    cases front with
    | nil =>
      obtain ⟨rfl, rfl⟩ := List.cons.inj he
      exact ⟨hbrace, hcloses⟩
    | cons k front =>
      obtain ⟨rfl, rfl⟩ := List.cons.inj he
      rw [depth_cons]
      exact h.inside front m rest rfl

lemma closes_iff {t : Token} : Closes t ↔ endsValue t = true ∨ t = .delim '!' := by
  simp [Closes, endsValue, or_assoc]

end Contained

section ValueLexemes
variable {d : Nat} {f g : Feed} {ls : List Lexeme}

lemma valueLexemes_sound (hp : f.Proper) (h : valueLexemes d f = .ok (ls, g)) :
    f.Passes ls g ∧ Contained d ls ∧ Closes g.token := by
  fun_induction valueLexemes d f generalizing ls with
  | case1 => cases h
  | case2 d f he hc =>
    cases h
    exact ⟨Feed.Passes.refl _, contained_nil.2 hc.1, closes_iff.2 hc.2⟩
  | case3 => cases h
  | case4 => cases h
  | case5 d f he hc hb g' ha ih =>
    obtain ⟨⟨ls', g''⟩, hr, hk⟩ := of_bind_eq_ok h
    cases hk
    have hpass := hp.advance he ha
    obtain ⟨hrest, hcontained, hg⟩ := ih (hpass.proper hp) hr
    refine ⟨hpass.trans hrest, contained_cons.2 ⟨hb, ?_, hcontained⟩, hg⟩
    intro ht
    exact Nat.pos_of_ne_zero fun hd => hc ⟨hd, closes_iff.1 ht⟩

lemma valueLexemes_of_end (hd : d = 0) (hf : Closes f.token) : valueLexemes d f = .ok ([], f) := by
  have hne : f.token ≠ .eof := by
    intro he
    rw [he] at hf
    simp [Closes] at hf
  rw [valueLexemes, dif_neg hne, if_pos ⟨hd, closes_iff.1 hf⟩]

lemma valueLexemes_of_advance (he : f.token ≠ .eof) (hc : Closes f.token → 0 < d) (hb : f.token ≠ .leftBrace)
    (ha : f.advance = .ok g) :
    valueLexemes d f = do
      let (ls, rest) ← valueLexemes (f.token.nest d) g
      return (f.current :: ls, rest) := by
  have hnot : ¬ (d = 0 ∧ (endsValue f.token = true ∨ f.token = .delim '!')) := by
    rintro ⟨rfl, hf⟩
    exact absurd (hc (closes_iff.2 hf)) (Nat.lt_irrefl 0)
  rw [valueLexemes, dif_neg he, if_neg hnot, if_neg hb]
  split
  · next ha' => cases ha.symm.trans ha'
  · next ha' =>
    cases ha.symm.trans ha'
    rfl

lemma valueLexemes_complete (hf : f.Passes ls g) (hc : Contained d ls) (hg : Closes g.token) :
    valueLexemes d f = .ok (ls, g) := by
  induction ls generalizing d f with
  | nil =>
    rw [hf.eq_of_nil]
    exact valueLexemes_of_end (contained_nil.1 hc) hg
  | cons l ls ih =>
    obtain ⟨hb, hcloses, hrest⟩ := contained_cons.1 hc
    obtain ⟨m, ha, -, hm⟩ := Feed.advance_of_passes hf
    rw [← hf.token_eq] at hb hcloses hrest
    rw [valueLexemes_of_advance hf.token_ne_eof hcloses hb ha, ih hm hrest, ← hf.current_eq]
    rfl

end ValueLexemes

section ValueText
variable {ls : List Lexeme}

lemma ofLexemes_ne_empty_iff (h : ∀ l ∈ ls, l.token ≠ .whitespace → l.text ≠ []) :
    (RawText.ofLexemes ls).toString ≠ "" ↔ ∃ l ∈ ls, l.token ≠ .whitespace := by
  have hwritten : Lexeme.Written ls (RawText.ofLexemes ls).text := (RawText.written_iff h).2 rfl
  rw [ne_eq, RawText.toString, ← String.ofList_nil, String.ofList_inj, hwritten.eq_nil_iff h]
  simp

lemma valueText_of_string {text : String} (h : (ls.filter (·.token ≠ .whitespace)).map Lexeme.token = [.string text]) :
    valueText ls = text := by
  obtain ⟨l, hl, ht⟩ := List.map_eq_singleton_iff.1 h
  rw [valueText, hl]
  simp only [ht]

lemma valueText_of_ne (h : ∀ text, (ls.filter (·.token ≠ .whitespace)).map Lexeme.token ≠ [.string text]) :
    valueText ls = (RawText.ofLexemes ls).toString := by
  unfold valueText
  split
  · next l hl =>
    split
    · next text ht => exact absurd (by rw [hl, List.map_singleton, ht]) (h text)
    · rfl
  · rfl

lemma valueText_ne_empty_iff (h : ∀ l ∈ ls, l.token ≠ .whitespace → l.text ≠ []) :
    valueText ls ≠ "" ↔ (∃ l ∈ ls, l.token ≠ .whitespace) ∧
      (ls.filter (·.token ≠ .whitespace)).map Lexeme.token ≠ [.string ""] := by
  by_cases hs : ∃ text, (ls.filter (·.token ≠ .whitespace)).map Lexeme.token = [.string text]
  · obtain ⟨text, hs⟩ := hs
    obtain ⟨l, hl, -⟩ := List.map_eq_singleton_iff.1 hs
    have hmem := List.mem_filter.1 (hl ▸ List.mem_singleton_self l)
    have hword : ∃ l ∈ ls, l.token ≠ .whitespace := ⟨l, hmem.1, by simpa using hmem.2⟩
    rw [valueText_of_string hs, hs]
    simp [hword]
  · rw [not_exists] at hs
    rw [valueText_of_ne hs, ofLexemes_ne_empty_iff h, iff_self_and]
    intro _
    exact hs ""

/-- The text of a value is the one that the parser puts together. -/
lemma spells_iff {text : String} (h : ∀ l ∈ ls, l.token ≠ .whitespace → l.text ≠ []) :
    Spells ls text ↔ valueText ls = text := by
  constructor
  · intro hs
    cases hs with
    | quoted hs => exact valueText_of_string hs
    | written hs hw => rw [valueText_of_ne hs, RawText.toString, (RawText.written_iff h).1 hw]
  · rintro rfl
    by_cases hs : ∃ text, (ls.filter (·.token ≠ .whitespace)).map Lexeme.token = [.string text]
    · obtain ⟨text, hs⟩ := hs
      rw [valueText_of_string hs]
      exact .quoted hs
    · rw [not_exists] at hs
      rw [valueText_of_ne hs]
      exact .written hs ((RawText.written_iff h).2 rfl)

lemma Spells.cons_blank {w : Lexeme} {text : String} (hw : w.token = .whitespace) (h : Spells ls text) :
    Spells (w :: ls) text := by
  have hfilter : (w :: ls).filter (·.token ≠ .whitespace) = ls.filter (·.token ≠ .whitespace) :=
    List.filter_cons_of_neg (by simp [hw])
  cases h with
  | quoted h => exact .quoted (hfilter ▸ h)
  | written h hs => exact .written (hfilter ▸ h) (hs.cons_blank hw)

/-- Blanks in front of a value are no part of it. -/
lemma valueText_cons {w : Lexeme} (hw : w.token = .whitespace) (h : ∀ l ∈ ls, l.token ≠ .whitespace → l.text ≠ []) :
    valueText (w :: ls) = valueText ls := by
  have hcons : ∀ l ∈ w :: ls, l.token ≠ .whitespace → l.text ≠ [] :=
    List.forall_mem_cons.2 ⟨fun hne => absurd hw hne, h⟩
  have hspells : Spells ls (valueText ls) := (spells_iff h).2 rfl
  exact (spells_iff hcons).1 (hspells.cons_blank hw)

lemma contained_blank {w : Lexeme} (hw : w.token = .whitespace) : Contained 0 (w :: ls) ↔ Contained 0 ls := by
  rw [contained_cons, hw]
  simp [Closes, Token.nest]

/-- Nor do blanks in front make a value of what is none. -/
lemma value_blank {w : Lexeme} (hw : w.token = .whitespace) : Value (w :: ls) ↔ Value ls := by
  constructor
  · intro h
    refine ⟨(contained_blank hw).1 h.contained, ?_, ?_⟩
    · simpa [hw] using h.written
    · simpa [hw] using h.content
  · intro h
    refine ⟨(contained_blank hw).2 h.contained, ?_, ?_⟩
    · simpa [hw] using h.written
    · simpa [hw] using h.content

end ValueText

/-! ## Settings -/

section Setting
variable {f g m : Feed} {ls : List Lexeme} {s : Setting}

lemma endsValue_iff {t : Token} : endsValue t = true ↔ t = .semicolon ∨ t = .rightBrace := by
  simp [endsValue]

lemma importance_sound {important : Bool} (hp : f.Proper) (hf : Closes f.token)
    (h : importance f = .ok (important, g)) :
    ∃ i, Importance i important ∧ f.Passes i g ∧ endsValue g.token = true := by
  unfold importance at h
  split_ifs at h with ht
  · obtain ⟨f₁, h₁, h⟩ := of_bind_eq_ok h
    obtain ⟨f₂, h₂, h⟩ := of_bind_eq_ok h
    have hpass₁ := hp.advance (by simp [ht]) h₁
    obtain ⟨b₁, hb₁, hpass₂, -⟩ := (hpass₁.proper hp).skipBlank h₂
    have hto₂ := hpass₁.trans hpass₂
    split at h
    · next word hw =>
      split_ifs at h with hword
      · obtain ⟨f₃, h₃, h⟩ := of_bind_eq_ok h
        obtain ⟨f₄, h₄, h⟩ := of_bind_eq_ok h
        split_ifs at h with hend
        cases h
        have hto₃ := hto₂.trans ((hto₂.proper hp).advance (by simp [hw]) h₃)
        obtain ⟨b₂, hb₂, hpass₄, -⟩ := (hto₃.proper hp).skipBlank h₄
        refine ⟨_, .important ht hb₁ hw (Selector.lowercase_eq word ▸ hword) hb₂, ?_, hend⟩
        simpa using hto₃.trans hpass₄
    · cases h
  · cases h
    refine ⟨[], .plain, Feed.Passes.refl _, ?_⟩
    exact (closes_iff.1 hf).resolve_right ht

lemma importance_complete {i : List Lexeme} {important : Bool} (h : Importance i important)
    (hf : f.Passes i g) (hg : endsValue g.token = true) : importance f = .ok (important, g) := by
  have hblank : g.token ≠ .whitespace := by
    intro ht
    rw [ht] at hg
    cases hg
  unfold importance
  cases h with
  | plain =>
    rw [hf.eq_of_nil, if_neg]
    intro ht
    rw [ht] at hg
    cases hg
  | important he h₁ hw hword h₂ =>
    rw [← Selector.lowercase_eq] at hword
    obtain ⟨f₁, ha₁, -, hf₁⟩ := Feed.advance_of_passes hf
    obtain ⟨f₂, hs₂, -, hf₂⟩ := Feed.skipBlank_cons h₁ hf₁ (by simp [hw])
    obtain ⟨f₃, ha₃, -, hf₃⟩ := Feed.advance_of_passes hf₂
    have hs₄ : f₃.skipBlank = .ok g := Feed.skipBlank_of_passes h₂ hf₃ hblank
    simp [hf.token_eq, he, ha₁, hs₂, hf₂.token_eq, hw, hword, ha₃, hs₄, hg]

lemma Importance.closes {i : List Lexeme} {important : Bool} (h : Importance i important) (hf : f.Passes i g)
    (hg : endsValue g.token = true) : Closes f.token := by
  cases h with
  | plain =>
    rw [hf.eq_of_nil]
    exact closes_iff.2 (Or.inl hg)
  | important he _ _ _ _ =>
    rw [hf.token_eq]
    exact Or.inr (Or.inr he)

/-- Where a setting leaves off: behind the semicolon that ends it, or in front of the closing brace. -/
def Leaves (m g : Feed) : Prop :=
  (m.token = .semicolon ∧ m.Passes [m.current] g) ∨ (m.token = .rightBrace ∧ m = g)

lemma settingValue_sound {property : String} (hp : f.Proper) (h : settingValue property f = .ok (s, g)) :
    ∃ v i m important, Value v ∧ Importance i important ∧ f.Passes (v ++ i) m ∧ Leaves m g ∧
      s = ⟨property, valueText v, important⟩ := by
  obtain ⟨⟨v, f₁⟩, h₁, h⟩ := of_bind_eq_ok h
  obtain ⟨⟨important, f₂⟩, h₂, h⟩ := of_bind_eq_ok h
  obtain ⟨hpass₁, hcontained, hcloses⟩ := valueLexemes_sound hp h₁
  obtain ⟨i, hi, hpass₂, hend⟩ := importance_sound (hpass₁.proper hp) hcloses h₂
  have hto₂ := hpass₁.trans hpass₂
  have htext : ∀ l ∈ v, l.token ≠ .whitespace → l.text ≠ [] := fun l hl _ => hpass₁.text_ne_nil hp l hl
  simp only at h
  split_ifs at h with hempty hsemi
  · obtain ⟨f₃, h₃, h⟩ := of_bind_eq_ok h
    cases h
    have hne := (valueText_ne_empty_iff htext).1 (by simpa using hempty)
    exact ⟨v, i, f₂, important, ⟨hcontained, hne.1, hne.2⟩, hi, hto₂,
      Or.inl ⟨hsemi, (hto₂.proper hp).advance (by simp [hsemi]) h₃⟩, rfl⟩
  · cases h
    have hne := (valueText_ne_empty_iff htext).1 (by simpa using hempty)
    exact ⟨v, i, g, important, ⟨hcontained, hne.1, hne.2⟩, hi, hto₂,
      Or.inr ⟨(endsValue_iff.1 hend).resolve_left hsemi, rfl⟩, rfl⟩

lemma settingValue_complete {property : String} {v i : List Lexeme} {important : Bool} (hp : f.Proper)
    (hv : Value v) (hi : Importance i important) (hf : f.Passes (v ++ i) m) (hm : Leaves m g) :
    settingValue property f = .ok (⟨property, valueText v, important⟩, g) := by
  have hend : endsValue m.token = true := by
    apply endsValue_iff.2
    obtain ⟨ht, -⟩ | ⟨ht, -⟩ := hm
    · exact Or.inl ht
    · exact Or.inr ht
  obtain ⟨n, hfn, hnm⟩ := hf.split
  have hvalue : valueText v ≠ "" :=
    (valueText_ne_empty_iff fun l hl _ => hfn.text_ne_nil hp l hl).2 ⟨hv.written, hv.content⟩
  have hlexemes := valueLexemes_complete hfn hv.contained (hi.closes hnm hend)
  have himportance := importance_complete hi hnm hend
  obtain ⟨ht, hpass⟩ | ⟨ht, rfl⟩ := hm
  · obtain ⟨k, ha, -, hk⟩ := Feed.advance_of_passes hpass
    simp [settingValue, hlexemes, himportance, hvalue, ht, ha, hk.eq_of_nil]
  · simp [settingValue, hlexemes, himportance, hvalue, ht]

lemma setting_sound (hp : f.Proper) (h : setting f = .ok (s, g)) :
    ∃ ds m, Declares ds s ∧ f.Passes ds m ∧ Leaves m g := by
  unfold setting at h
  split at h
  · next property ht =>
    obtain ⟨f₁, h₁, h⟩ := of_bind_eq_ok h
    obtain ⟨f₂, h₂, h⟩ := of_bind_eq_ok h
    obtain ⟨f₃, h₃, h⟩ := of_bind_eq_ok h
    obtain ⟨f₄, h₄, h⟩ := of_bind_eq_ok h
    have hpass₁ := hp.advance (by simp [ht]) h₁
    obtain ⟨b, hb, hpass₂, -⟩ := (hpass₁.proper hp).skipBlank h₂
    have hto₂ := hpass₁.trans hpass₂
    obtain ⟨hc, hpass₃⟩ := pass_sound (hto₂.proper hp) (by simp) h₃
    have hto₃ := hto₂.trans hpass₃
    obtain ⟨b', hb', hpass₄, -⟩ := (hto₃.proper hp).skipBlank h₄
    have hto₄ := hto₃.trans hpass₄
    obtain ⟨v, i, m, important, hv, hi, hpass₅, hm, rfl⟩ := settingValue_sound (hto₄.proper hp) h
    have hto₅ := hto₄.trans hpass₅
    have hspells : Spells v (valueText v) :=
      (spells_iff fun l hl _ => hpass₅.text_ne_nil (hto₄.proper hp) l (List.mem_append_left i hl)).2 rfl
    cases hb' with
    | none =>
      refine ⟨_, m, .mk ht hb hc hv hspells hi, ?_, hm⟩
      simpa using hto₅
    | run hw =>
      refine ⟨_, m, .mk ht hb hc ((value_blank hw).2 hv) (hspells.cons_blank hw) hi, ?_, hm⟩
      simpa using hto₅
  · cases h

lemma setting_complete (hp : f.Proper) (h : Declares ls s) (hf : f.Passes ls m) (hm : Leaves m g) :
    setting f = .ok (s, g) := by
  cases h with
  | @mk p c b v i property text important hproperty hb hc hv ht hi =>
    obtain ⟨f₁, ha₁, hto₁, hf₁⟩ := Feed.advance_of_passes hf
    obtain ⟨f₂, hs₂, hto₂, hf₂⟩ := Feed.skipBlank_cons hb hf₁ (by simp [hc])
    obtain ⟨f₃, hp₃, hto₃, hf₃⟩ := pass_complete hc hf₂
    have hp₃' := ((hto₁.trans hto₂).trans hto₃).proper hp
    obtain rfl : valueText v = text :=
      (spells_iff fun l hl _ => hf₃.text_ne_nil hp₃' l (List.mem_append_left i hl)).1 ht
    suffices hvalue : (f₃.skipBlank >>= settingValue property) = .ok (⟨property, valueText v, important⟩, g) by
      simpa [setting, hf.token_eq, hproperty, ha₁, hs₂, hp₃] using hvalue
    obtain ⟨l, v, rfl⟩ := List.exists_cons_of_ne_nil (show v ≠ [] by rintro rfl; simpa using hv.written)
    by_cases hl : l.token = .whitespace
    · obtain ⟨f₄, ha₄, hto₄, hf₄⟩ := Feed.advance_of_passes hf₃
      have hs₄ : f₃.skipBlank = .ok f₄ := by rw [Feed.skipBlank, if_pos (hf₃.token_eq.trans hl), ha₄]
      have htext : ∀ m ∈ v, m.token ≠ .whitespace → m.text ≠ [] :=
        fun m hm _ => hf₃.text_ne_nil hp₃' m (List.mem_cons_of_mem l (List.mem_append_left i hm))
      rw [hs₄, ok_bind, valueText_cons hl htext]
      exact settingValue_complete (hto₄.proper hp₃') ((value_blank hl).1 hv) hi hf₄ hm
    · have hs₄ : f₃.skipBlank = .ok f₃ := by rw [Feed.skipBlank, if_neg (by rwa [hf₃.token_eq])]
      rw [hs₄, ok_bind]
      exact settingValue_complete hp₃' hv hi hf₃ hm

end Setting

/-! ## Blocks and rules -/

section Block
variable {f g h : Feed} {ls : List Lexeme} {s : Setting} {ss : List Setting}

lemma Block.ne_nil (hblock : Block ls ss) : ls ≠ [] := by
  cases hblock <;> simp

/-- What follows a setting goes on from the lexeme that ends it. -/
lemma Block.of_leaves (hblock : Block ls ss) (hg : g.Passes ls h) (hm : Leaves f g) :
    ∃ l ls, (l.token = .semicolon ∨ l.token = .rightBrace) ∧ Block (l :: ls) ss ∧ f.Passes (l :: ls) h := by
  obtain ⟨ht, hpass⟩ | ⟨ht, rfl⟩ := hm
  · exact ⟨f.current, ls, Or.inl ht, .semicolon ht hblock, hpass.trans hg⟩
  · obtain ⟨l, ls, rfl⟩ := List.exists_cons_of_ne_nil hblock.ne_nil
    exact ⟨l, ls, Or.inr (hg.token_eq.symm.trans ht), hblock, hg⟩

lemma Block.of_blank {b : List Lexeme} (hb : Blank b) (h : Block ls ss) : Block (b ++ ls) ss := by
  cases hb with
  | none => exact h
  | run hw => exact .blank hw h

lemma block_sound (hp : f.Proper) (hblock : block f = .ok (ss, g)) : ∃ ls, Block ls ss ∧ f.Passes ls g := by
  fun_induction block f generalizing ss with
  | case1 => cases hblock
  | case2 f f₁ hb ht =>
    obtain ⟨f₂, h₂, hk⟩ := of_bind_eq_ok hblock
    cases hk
    obtain ⟨b, hblank, hpass₁, -⟩ := hp.skipBlank hb
    have hpass₂ := (hpass₁.proper hp).advance (by simp [ht]) h₂
    exact ⟨_, (Block.close ht).of_blank hblank, hpass₁.trans hpass₂⟩
  | case3 => cases hblock
  | case4 => cases hblock
  | case5 f f₁ hb ht he hsemi f₂ ha ih =>
    obtain ⟨b, hblank, hpass₁, -⟩ := hp.skipBlank hb
    have hpass₂ := (hpass₁.proper hp).advance he ha
    obtain ⟨ls, hls, hpass₃⟩ := ih ((hpass₁.trans hpass₂).proper hp) hblock
    exact ⟨_, (Block.semicolon hsemi hls).of_blank hblank, hpass₁.trans (hpass₂.trans hpass₃)⟩
  | case6 => cases hblock
  | case7 f f₁ hb ht he hsemi s f₂ hs ih =>
    obtain ⟨⟨ss', g'⟩, hr, hk⟩ := of_bind_eq_ok hblock
    cases hk
    obtain ⟨b, hblank, hpass₁, -⟩ := hp.skipBlank hb
    obtain ⟨ds, m, hds, hpass₂, hleaves⟩ := setting_sound (hpass₁.proper hp) hs
    have hto := hpass₁.trans hpass₂
    have hf₂ : f₂.Proper := by
      obtain ⟨-, hpass₃⟩ | ⟨-, rfl⟩ := hleaves
      · exact hpass₃.proper (hto.proper hp)
      · exact hto.proper hp
    obtain ⟨ls, hls, hpass₃⟩ := ih hf₂ hr
    obtain ⟨l, ls, hl, hrest, hpass₄⟩ := hls.of_leaves hpass₃ hleaves
    exact ⟨_, (Block.setting hds hl hrest).of_blank hblank, hpass₁.trans (hpass₂.trans hpass₄)⟩

lemma block_of_skipBlank (hb : f.skipBlank = .ok g) :
    block f =
      if g.token = .rightBrace then do return ([], ← g.advance)
      else if g.token = .eof then .error (expected "'\x7d'" g)
      else if g.token = .semicolon then g.advance >>= block
      else do
        let (s, h) ← setting g
        let (ss, rest) ← block h
        return (s :: ss, rest) := by
  rw [block]
  split
  · next hb' => cases hb.symm.trans hb'
  · next hb' =>
    cases hb.symm.trans hb'
    split_ifs
    · rfl
    · rfl
    · cases g.advance <;> rfl
    · cases hs : setting g <;> rfl

lemma Declares.head (hd : Declares ls s) : ∃ l rest property, ls = l :: rest ∧ l.token = .ident property := by
  cases hd with
  | mk hp _ _ _ _ _ => exact ⟨_, _, _, rfl, hp⟩

lemma block_complete (hp : f.Proper) (hblock : Block ls ss) (hf : f.Passes ls g) : block f = .ok (ss, g) := by
  induction hblock generalizing f with
  | close ht =>
    obtain ⟨m, ha, -, hm⟩ := Feed.advance_of_passes hf
    have hb : f.skipBlank = .ok f := Feed.skipBlank_of_ne (by simp [hf.token_eq, ht])
    simp [block_of_skipBlank hb, hf.token_eq, ht, ha, hm.eq_of_nil]
  | blank ht _ ih =>
    obtain ⟨m, -, hto, hm⟩ := Feed.advance_of_passes hf
    obtain ⟨hb, hm'⟩ := hp.skipBlank_run hto ht
    rw [block_of_skipBlank hb, ← block_of_skipBlank hm']
    exact ih (hto.proper hp) hm
  | semicolon ht _ ih =>
    obtain ⟨m, ha, hto, hm⟩ := Feed.advance_of_passes hf
    have hb : f.skipBlank = .ok f := Feed.skipBlank_of_ne (by simp [hf.token_eq, ht])
    simp [block_of_skipBlank hb, hf.token_eq, ht, ha, ih (hto.proper hp) hm]
  | @setting ds ls l s ss hds hl _ ih =>
    obtain ⟨m, hto, hm⟩ := hf.split
    have hrest : block m = .ok (ss, g) := ih (hto.proper hp) hm
    obtain ⟨k, hleaves, hk⟩ : ∃ k, Leaves m k ∧ block k = .ok (ss, g) := by
      obtain hl | hl := hl
      · have ht : m.token = .semicolon := hm.token_eq.trans hl
        obtain ⟨k, ha, hto', -⟩ := Feed.advance_of_passes hm
        refine ⟨k, Or.inl ⟨ht, by rwa [hm.current_eq]⟩, ?_⟩
        rw [block_of_skipBlank (Feed.skipBlank_of_ne (by simp [ht]))] at hrest
        simpa [ht, ha] using hrest
      · exact ⟨m, Or.inr ⟨hm.token_eq.trans hl, rfl⟩, hrest⟩
    have hs : setting f = .ok (s, k) := setting_complete hp hds hto hleaves
    obtain ⟨p, rest, property, rfl, hproperty⟩ := hds.head
    have hb : f.skipBlank = .ok f := Feed.skipBlank_of_ne (by simp [hto.token_eq, hproperty])
    simp [block_of_skipBlank hb, hto.token_eq, hproperty, hs, hk]

end Block

section Rule
variable {f g : Feed} {ls : List Lexeme} {r : StyleRule}

lemma prelude_sound (hp : f.Proper) (h : prelude f = .ok g) :
    ∃ ls, f.Passes ls g ∧ g.token = .leftBrace ∧
      ∀ l ∈ ls, l.token ≠ .leftBrace ∧ l.token ≠ .rightBrace ∧ l.token ≠ .semicolon := by
  fun_induction prelude f with
  | case1 f ht =>
    cases h
    exact ⟨[], Feed.Passes.refl _, ht, by simp⟩
  | case2 => cases h
  | case3 => cases h
  | case4 => cases h
  | case5 f ht he hstop f₁ ha ih =>
    have hpass := hp.advance he ha
    obtain ⟨ls, hls, hg, hne⟩ := ih (hpass.proper hp) h
    refine ⟨_, hpass.trans hls, hg, ?_⟩
    exact List.forall_mem_cons.2 ⟨⟨ht, fun h => hstop (Or.inl h), fun h => hstop (Or.inr h)⟩, hne⟩

lemma prelude_complete (hf : f.Passes ls g) (hg : g.token = .leftBrace)
    (hne : ∀ l ∈ ls, l.token ≠ .leftBrace ∧ l.token ≠ .rightBrace ∧ l.token ≠ .semicolon) :
    prelude f = .ok g := by
  induction ls generalizing f with
  | nil =>
    rw [hf.eq_of_nil, prelude, if_pos hg]
  | cons l ls ih =>
    obtain ⟨⟨h₁, h₂, h₃⟩, hrest⟩ := List.forall_mem_cons.1 hne
    obtain ⟨m, ha, -, hm⟩ := Feed.advance_of_passes hf
    rw [← hf.token_eq] at h₁ h₂ h₃
    rw [prelude, if_neg h₁, dif_neg hf.token_ne_eof, if_neg (not_or.2 ⟨h₂, h₃⟩)]
    split
    · next ha' => cases ha.symm.trans ha'
    · next ha' =>
      cases ha.symm.trans ha'
      exact ih hm hrest

lemma trim_eq_nil {cs : List Char} (h : Text.trim cs = []) : ∀ c ∈ cs, Text.isBlank c = true := by
  rw [Text.trim, List.reverse_eq_nil_iff, List.dropWhile_eq_nil_iff] at h
  rw [← List.dropWhile_eq_nil_iff]
  by_contra hne
  have hhead := List.head_dropWhile_not Text.isBlank hne
  rw [h _ (List.mem_reverse.2 (List.head_mem hne))] at hhead
  cases hhead

lemma reads_of_blanks {place : Location} {cs : List Char} (h : ∀ c ∈ cs, Text.isBlank c = true)
    (hr : Lexer.Reads place cs ls none) : ∀ l ∈ ls, l.token = .whitespace ∨ l.token = .eof := by
  have hend (place : Location) : Lexer.Reads place [] [⟨.eof, [], [], place⟩] none :=
    Lexer.reads_of_step_eof Lexer.step_nil
  have htrivia := Lexer.trivia_of_blanks h
  cases cs with
  | nil => simp [hr.unique (hend place)]
  | cons c cs =>
    have hs : Lexer.step (c :: cs) = .token [] .whitespace (c :: cs) [] :=
      Lexer.step_eq_token_iff.2 (Or.inl ⟨rfl, rfl, htrivia⟩)
    simp [hr.unique (Lexer.reads_of_step hs (by simp) (hend _))]

/-- Blanks alone are no selector. -/
lemma trim_ne_nil_of_parseListAt {place : Location} {cs : List Char} {ss : List Selector}
    (h : Selector.parseListAt place cs = .ok ss) : Text.trim cs ≠ [] := by
  intro htrim
  obtain ⟨ls, hr, hl⟩ := Selector.parseListAt_eq_ok_iff.1 h
  obtain ⟨l, hmem, hstart⟩ := hl.exists_startsSimple
  obtain ht | ht := reads_of_blanks (trim_eq_nil htrim) hr l hmem
  · exact (Selector.of_startsSimple hstart).1 ht
  · rw [ht] at hstart
    cases hstart

lemma rule_sound (hp : f.Proper) (hb : f.token ≠ .whitespace) (ha : ∀ name, f.token ≠ .atKeyword name)
    (h : rule f = .ok (r, g)) : ∃ ls, Rule ls r ∧ f.Passes ls g := by
  obtain ⟨f₁, h₁, h⟩ := of_bind_eq_ok h
  obtain ⟨ps, hps, ho, hne⟩ := prelude_sound hp h₁
  simp only [hps.slice_eq] at h
  split_ifs at h with hempty
  obtain ⟨selectors, h₂, h⟩ := of_bind_eq_ok h
  obtain ⟨f₃, h₃, h⟩ := of_bind_eq_ok h
  obtain ⟨⟨settings, f₄⟩, h₄, h⟩ := of_bind_eq_ok h
  cases h
  have hpass₃ := hps.trans ((hps.proper hp).advance (by simp [ho]) h₃)
  obtain ⟨body, hbody, hpass₄⟩ := block_sound (hpass₃.proper hp) h₄
  cases ps with
  | nil => simp [Lexeme.writing, Text.trim] at hempty
  | cons p ps =>
    rw [hps.token_eq] at hb ha
    have hs : Selector.parseList (String.ofList (Lexeme.writing (p :: ps) f₁.current)) = .ok selectors := by
      rw [Selector.parseList, String.toList_ofList]
      exact Selector.parseListAt_eq_ok_congr.1 h₂
    refine ⟨p :: ps ++ f₁.current :: body, ?_, by simpa using hpass₃.trans hpass₄⟩
    rw [hps.current_eq]
    exact .mk hne hb ha ho hs hbody

lemma rule_complete (hp : f.Proper) (h : Rule ls r) (hf : f.Passes ls g) : rule f = .ok (r, g) := by
  cases h with
  | @mk p o ps body selectors settings hne hb ha ho hs hbody =>
    obtain ⟨f₁, hps, hrest⟩ := hf.split
    obtain ⟨f₂, ha₂, hto₂, hf₂⟩ := Feed.advance_of_passes hrest
    have hprelude : prelude f = .ok f₁ := prelude_complete hps (hrest.token_eq.trans ho) hne
    have hblock : block f₂ = .ok (settings, g) := block_complete ((hps.trans hto₂).proper hp) hbody hf₂
    have hlist : Selector.parseListAt p.before (f.slice f₁) = .ok selectors := by
      rw [hps.slice_eq, hrest.current_eq]
      rw [Selector.parseList, String.toList_ofList] at hs
      exact Selector.parseListAt_eq_ok_congr.1 hs
    simp [rule, hprelude, hlist, ha₂, hblock, trim_ne_nil_of_parseListAt hlist, hps.current_eq]

end Rule

/-! ## Statements -/

section Statement
variable {f g : Feed} {ls : List Lexeme}

lemma skipStatement_sound (hp : f.Proper) (h : skipStatement f = .ok g) :
    ∃ ls c, (∀ l ∈ ls, l.token ≠ .semicolon) ∧ c.token = .semicolon ∧ f.Passes (ls ++ [c]) g := by
  fun_induction skipStatement f with
  | case1 => cases h
  | case2 f f₁ ha ht =>
    cases h
    exact ⟨[], f.current, by simp, ht, hp.advance (by simp [ht]) ha⟩
  | case3 => cases h
  | case4 f f₁ ha ht he ih =>
    have hpass := hp.advance he ha
    obtain ⟨ls, c, hls, hc, hrest⟩ := ih (hpass.proper hp) h
    exact ⟨f.current :: ls, c, List.forall_mem_cons.2 ⟨ht, hls⟩, hc, hpass.trans hrest⟩

lemma skipStatement_of_advance (ha : f.advance = .ok g) (he : f.token ≠ .eof) :
    skipStatement f = if f.token = .semicolon then .ok g else skipStatement g := by
  rw [skipStatement]
  split
  · next ha' => cases ha.symm.trans ha'
  · next ha' =>
    cases ha.symm.trans ha'
    rw [dif_neg he]

lemma skipStatement_complete {c : Lexeme} (hls : ∀ l ∈ ls, l.token ≠ .semicolon) (hc : c.token = .semicolon)
    (hf : f.Passes (ls ++ [c]) g) : skipStatement f = .ok g := by
  induction ls generalizing f with
  | nil =>
    obtain ⟨m, ha, -, hm⟩ := Feed.advance_of_passes hf
    rw [skipStatement_of_advance ha hf.token_ne_eof, if_pos (hf.token_eq.trans hc), hm.eq_of_nil]
  | cons l ls ih =>
    obtain ⟨hl, hls⟩ := List.forall_mem_cons.1 hls
    obtain ⟨m, ha, -, hm⟩ := Feed.advance_of_passes hf
    rw [skipStatement_of_advance ha hf.token_ne_eof, if_neg (by rwa [hf.token_eq])]
    exact ih hls hm

lemma statement_sound {s : Option Statement} (hp : f.Proper) (hb : f.token ≠ .whitespace)
    (h : statement f = .ok (s, g)) : ∃ ls, Item ls s ∧ f.Passes ls g := by
  unfold statement at h
  split at h
  · next name hk =>
    obtain ⟨f₁, h₁, h⟩ := of_bind_eq_ok h
    have hpass := hp.advance (by simp [hk]) h₁
    unfold atStatement at h
    split at h
    · next hn =>
      obtain ⟨⟨i, f₂⟩, h₂, h⟩ := of_bind_eq_ok h
      cases h
      obtain ⟨b₁, t, b₂, c, hb₁, ht, hb₂, hc, hplace, hrest⟩ := importStatement_sound (hpass.proper hp) h₂
      obtain ⟨url, place⟩ := i
      subst hplace
      exact ⟨_, .importing hk (Selector.lowercase_eq name ▸ hn) hb₁ ht hb₂ hc, hpass.trans hrest⟩
    · next hn =>
      obtain ⟨f₂, h₂, h⟩ := of_bind_eq_ok h
      cases h
      obtain ⟨ls, c, hls, hc, hrest⟩ := skipStatement_sound (hpass.proper hp) h₂
      exact ⟨_, .charset hk (Selector.lowercase_eq name ▸ hn) hls hc, hpass.trans hrest⟩
    · cases h
  · next ha =>
    obtain ⟨⟨r, f₁⟩, h₁, h⟩ := of_bind_eq_ok h
    cases h
    obtain ⟨ls, hls, hpass⟩ := rule_sound hp hb ha h₁
    exact ⟨ls, .rule hls, hpass⟩

lemma statement_complete {s : Option Statement} (hp : f.Proper) (h : Item ls s) (hf : f.Passes ls g) :
    statement f = .ok (s, g) := by
  cases h with
  | importing hk hn h₁ ht h₂ hc =>
    rw [← Selector.lowercase_eq] at hn
    obtain ⟨m, ha, -, hm⟩ := Feed.advance_of_passes hf
    simp [statement, hf.token_eq, hk, ha, atStatement, hn, importStatement_complete h₁ ht h₂ hc hm,
      hf.current_eq]
  | charset hk hn hls hc =>
    rw [← Selector.lowercase_eq] at hn
    obtain ⟨m, ha, -, hm⟩ := Feed.advance_of_passes hf
    simp [statement, hf.token_eq, hk, ha, atStatement, hn, skipStatement_complete hls hc hm]
  | rule hr =>
    have hrule : rule f = .ok (_, g) := rule_complete hp hr hf
    cases hr with
    | mk _ _ ha _ _ _ =>
      unfold statement
      split
      · next hk => exact absurd (hf.token_eq.symm.trans hk) (ha _)
      · simp [hrule]

lemma Item.head {s : Option Statement} (h : Item ls s) :
    ∃ l rest, ls = l :: rest ∧ l.token ≠ .whitespace := by
  cases h with
  | importing hk _ _ _ _ _ => exact ⟨_, _, rfl, by simp [hk]⟩
  | charset hk _ _ _ => exact ⟨_, _, rfl, by simp [hk]⟩
  | rule hr =>
    cases hr with
    | mk _ hb _ _ _ _ => exact ⟨_, _, rfl, hb⟩

end Statement

section Outline
variable {f g : Feed} {ls : List Lexeme} {ss : List Statement}

lemma Statements.of_blank {b : List Lexeme} (hb : Blank b) (h : Statements ls ss) : Statements (b ++ ls) ss := by
  cases hb with
  | none => exact h
  | run hw => exact .blank hw h

lemma outlineOf_sound (hp : f.Proper) (h : outlineOf f = ⟨ss, none⟩) :
    f.stop = none ∧ Statements (f.current :: f.ahead) ss := by
  fun_induction outlineOf f generalizing ss with
  | case1 => cases h
  | case2 f g hb ht =>
    cases h
    obtain ⟨b, hblank, hpass, -⟩ := hp.skipBlank hb
    obtain ⟨hahead, hstop⟩ := Lexeme.row_of_eof (hpass.proper hp) ht
    refine ⟨hpass.stop.symm.trans hstop, ?_⟩
    rw [hpass.row, hahead]
    exact (Statements.done ht).of_blank hblank
  | case3 => cases h
  | case4 f g hb ht s m hs ih =>
    obtain ⟨b, hblank, hpass, hne⟩ := hp.skipBlank hb
    obtain ⟨ls, hls, hpass'⟩ := statement_sound (hpass.proper hp) hne hs
    have hto := hpass.trans hpass'
    cases ho : outlineOf m with
    | mk ss' fault =>
      rw [ho] at h
      obtain ⟨rfl, rfl⟩ : s.toList ++ ss' = ss ∧ fault = none := by simpa [Outline.push] using h
      obtain ⟨hstop, hstatements⟩ := ih (hto.proper hp) ho
      refine ⟨hto.stop.symm.trans hstop, ?_⟩
      rw [hto.row, List.append_assoc]
      exact (Statements.item hls hstatements).of_blank hblank

lemma outlineOf_of_skipBlank (hb : f.skipBlank = .ok g) :
    outlineOf f =
      if g.token = .eof then ⟨[], none⟩
      else match statement g with
        | .error fault => ⟨[], some fault⟩
        | .ok (s, h) => (outlineOf h).push s := by
  rw [outlineOf]
  split
  · next hb' => cases hb.symm.trans hb'
  · next hb' =>
    cases hb.symm.trans hb'
    split_ifs
    · rfl
    · cases hs : statement g <;> rfl

lemma Statements.ne_nil (h : Statements ls ss) : ls ≠ [] := by
  induction h with
  | done _ => simp
  | blank _ _ _ => simp
  | item _ _ ih => simp [ih]

lemma outlineOf_complete (hp : f.Proper) (h : Statements ls ss) (hrow : f.current :: f.ahead = ls) :
    outlineOf f = ⟨ss, none⟩ := by
  induction h generalizing f with
  | done he =>
    have ht : f.token = .eof := by rw [Feed.token, (List.cons.inj hrow).1, he]
    rw [outlineOf_of_skipBlank (Feed.skipBlank_of_ne (by simp [ht])), if_pos ht]
  | @blank l ls ss hl hs ih =>
    obtain ⟨m, rest, rfl⟩ := List.exists_cons_of_ne_nil hs.ne_nil
    have hpass : f.Passes [l] ⟨m, rest, f.stop⟩ := hp.passes hrow
    obtain ⟨hb, hm⟩ := hp.skipBlank_run hpass hl
    rw [outlineOf_of_skipBlank hb, ← outlineOf_of_skipBlank hm]
    exact ih (hpass.proper hp) rfl
  | @item ls ms s ss hi hs ih =>
    obtain ⟨m, rest, rfl⟩ := List.exists_cons_of_ne_nil hs.ne_nil
    have hpass : f.Passes ls ⟨m, rest, f.stop⟩ := hp.passes hrow
    have hstatement : statement f = .ok (s, ⟨m, rest, f.stop⟩) := statement_complete hp hi hpass
    have hrest : outlineOf ⟨m, rest, f.stop⟩ = ⟨ss, none⟩ := ih (hpass.proper hp) rfl
    obtain ⟨l, ls, rfl, hl⟩ := hi.head
    have hb : f.skipBlank = .ok f := Feed.skipBlank_of_ne (by rwa [hpass.token_eq])
    rw [outlineOf_of_skipBlank hb, if_neg hpass.token_ne_eof, hstatement]
    simp [hrest, Outline.push]

end Outline

lemma outline_eq_iff {text : String} {ss : List Statement} :
    outline text = ⟨ss, none⟩ ↔ ∃ ls, Lexer.Reads .start text.toList ls none ∧ Statements ls ss := by
  constructor
  · intro h
    unfold outline at h
    split at h
    · cases h
    · next f hf =>
      have hr := Feed.ofText_eq_ok_iff.1 hf
      obtain ⟨hstop, hs⟩ := outlineOf_sound hr.row h
      rw [hstop] at hr
      exact ⟨_, hr, hs⟩
  · rintro ⟨ls, hr, hs⟩
    obtain ⟨l, rest, rfl⟩ := List.exists_cons_of_ne_nil hs.ne_nil
    have hf : Feed.ofText .start text.toList = .ok ⟨l, rest, none⟩ := Feed.ofText_eq_ok_iff.2 hr
    rw [outline, hf]
    exact outlineOf_complete hr.row hs rfl

lemma parse_eq_ok_iff {text : String} {sheet : Stylesheet} :
    parse text = .ok sheet ↔ ∃ ss, outline text = ⟨ss, none⟩ ∧ sheet = ofStatements ss := by
  unfold parse
  cases outline text with
  | mk ss fault =>
    cases fault with
    | none =>
      constructor
      · intro h
        cases h
        exact ⟨ss, rfl, rfl⟩
      · rintro ⟨ss', h, rfl⟩
        cases h
        rfl
    | some fault => simp

/-- A text is a stylesheet exactly when it can be read up to its end and its lexemes form statements; the
imports and the rules are then those of the statements, in their order. -/
theorem parse_eq_ok_iff_statements (text : String) (sheet : Stylesheet) :
    parse text = .ok sheet ↔
      ∃ ls ss, Lexer.Reads .start text.toList ls none ∧ Statements ls ss ∧
        sheet.imports = ss.filterMap Statement.import? ∧ sheet.rules = ss.filterMap Statement.rule? := by
  simp only [parse_eq_ok_iff, outline_eq_iff]
  constructor
  · rintro ⟨ss, ⟨ls, hr, hs⟩, rfl⟩
    exact ⟨ls, ss, hr, hs, rfl, rfl⟩
  · rintro ⟨ls, ss, hr, hs, himports, hrules⟩
    refine ⟨ss, ⟨ls, hr, hs⟩, ?_⟩
    obtain ⟨imports, rules⟩ := sheet
    subst himports hrules
    rfl

/-- Keywords count in any case. Blanks and comments between the tokens of a value become one space each, and a
semicolon inside parentheses does not end it. -/
theorem parse_eq_ok_iff_statements_font :
    let text := "@IMPORT url( 'a.css' ) ; p\x7bfont : bold /*w*/ 12px/*x*/var( --f,(;))  ! Important\x7d"
    let sheet : Stylesheet := ⟨[⟨"a.css", ⟨1, 1, 0⟩⟩],
      [⟨[⟨[.typeName "p"], ⟨0, 0, 1⟩, "p"⟩], [⟨"font", "bold 12px var( --f,(;))", true⟩], ⟨1, 26, 25⟩⟩]⟩
    parse text = .ok sheet ∧
      ∃ ls ss, Lexer.Reads .start text.toList ls none ∧ Statements ls ss ∧
        sheet.imports = ss.filterMap Statement.import? ∧ sheet.rules = ss.filterMap Statement.rule? := by
  intro text sheet
  have hparse : parse text = .ok sheet := by decide +kernel
  exact ⟨hparse, (parse_eq_ok_iff_statements text sheet).1 hparse⟩

end Stylebook.Stylesheet
