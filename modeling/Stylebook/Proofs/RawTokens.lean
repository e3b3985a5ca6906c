import Stylebook.Proofs.CondensedText
import Stylebook.RawText

/-! Raw text is the text of its tokens with what stands between them condensed. Read again, it gives the same
tokens, with blanks exactly where blanks or comments stood, so that it is its own raw text. -/
namespace Stylebook

/-- A token other than blanks and the end, and whether blanks stand in front of it. -/
structure Word where
  lexeme : Lexeme
  blank : Bool

namespace Word

/-- Whether blanks or comments stand in front of it. -/
def parted (w : Word) : Bool := w.blank || !w.lexeme.gap.isEmpty

/-- Its characters behind those of another word. -/
def written (w : Word) : List Char := (if w.parted then [' '] else []) ++ w.lexeme.text

/-- A word as raw text shows it: its token, its characters, and whether it is parted from the word in front. -/
def face (w : Word) : Token × List Char × Bool := (w.lexeme.token, w.lexeme.text, w.parted)

/-- Words in a row, without a gap in front of the first. -/
def unparted : List Word → List Word
  | [] => []
  | w :: ws => ⟨{ w.lexeme with gap := [] }, false⟩ :: ws

/-- The characters of words in a row. -/
def raw (ws : List Word) : List Char := (unparted ws).flatMap written

section Face
variable {us vs : List Word}

lemma flatMap_written_congr (h : us.map face = vs.map face) : us.flatMap written = vs.flatMap written := by
  have hface (ws : List Word) :
      ws.flatMap written = (ws.map face).flatMap fun f => (if f.2.2 then [' '] else []) ++ f.2.1 := by
    rw [List.flatMap_map]
    rfl
  rw [hface, h, ← hface]

lemma raw_congr (h : us.map face = vs.map face) : raw us = raw vs := by
  apply flatMap_written_congr
  cases us with
  | nil => cases vs <;> simp_all [unparted]
  | cons u us => cases vs <;> simp_all [unparted, face, parted]

lemma raw_unparted (ws : List Word) : raw (unparted ws) = raw ws := by
  cases ws <;> rfl

lemma map_token_of_unparted (h : us.map face = (unparted vs).map face) :
    us.map (fun w => w.lexeme.token) = vs.map (fun w => w.lexeme.token) := by
  have htokens := congrArg (List.map Prod.fst) h
  rw [List.map_map, List.map_map] at htokens
  cases vs <;> exact htokens

lemma tail_parted_of_unparted (h : us.map face = (unparted vs).map face) :
    (us.map parted).tail = (vs.map parted).tail := by
  have hflags := congrArg (fun fs => (fs.map fun f => f.2.2).tail) h
  simp only [List.map_map] at hflags
  cases vs <;> exact hflags

end Face

end Word

namespace Lexeme

/-- The words of a row of lexemes; `blank` says whether blanks stand in front of the row. -/
def wordsBehind (blank : Bool) : List Lexeme → List Word
  | [] => []
  | l :: ls =>
    if l.token = .whitespace then wordsBehind true ls
    else if l.token = .eof then wordsBehind blank ls
    else ⟨l, blank⟩ :: wordsBehind false ls

def words (ls : List Lexeme) : List Word := wordsBehind false ls

section Words
variable {l : Lexeme} {ls : List Lexeme} {blank : Bool}

lemma wordsBehind_whitespace (h : l.token = .whitespace) : wordsBehind blank (l :: ls) = wordsBehind true ls := by
  rw [wordsBehind, if_pos h]

lemma wordsBehind_eof (h : l.token = .eof) : wordsBehind blank (l :: ls) = wordsBehind blank ls := by
  rw [wordsBehind, if_neg (by rw [h]; decide), if_pos h]

lemma wordsBehind_word (hw : l.token ≠ .whitespace) (he : l.token ≠ .eof) :
    wordsBehind blank (l :: ls) = ⟨l, blank⟩ :: words ls := by
  rw [wordsBehind, if_neg hw, if_neg he, words]

end Words

end Lexeme

namespace RawText

/-- One more lexeme, unless it is the end. -/
def add (r : RawText) (l : Lexeme) : RawText := if l.token = .eof then r else r.push l

lemma ofReadings_lexemes (ls : List Lexeme) : ofReadings (ls.map .lexeme) = ls.foldl add empty :=
  List.foldl_map

variable {r : RawText} {ls : List Lexeme}

/-- The first word is written as it stands, and every further word with the space that is due. -/
lemma text_foldl_add (hls : ∀ l ∈ ls, l.token ≠ .eof → l.text ≠ []) :
    (ls.foldl add r).text =
      if r.text = [] then Word.raw (Lexeme.wordsBehind r.pending ls)
      else r.text ++ (Lexeme.wordsBehind r.pending ls).flatMap Word.written := by
  induction ls generalizing r with
  | nil => by_cases hr : r.text = [] <;> simp [Lexeme.wordsBehind, Word.raw, Word.unparted, hr]
  | cons l ls ih =>
    obtain ⟨hl, hls⟩ := List.forall_mem_cons.1 hls
    rw [List.foldl_cons]
    by_cases he : l.token = .eof
    · rw [Lexeme.wordsBehind_eof he, add, if_pos he]
      exact ih hls
    · rw [add, if_neg he]
      by_cases hw : l.token = .whitespace
      · rw [Lexeme.wordsBehind_whitespace hw, push, if_pos hw]
        exact ih hls
      · have hne : (r.push l).text ≠ [] := by simp [push, hw, hl he]
        rw [Lexeme.wordsBehind_word hw he, ih hls, if_neg hne]
        by_cases hr : r.text = [] <;>
          simp [push, hw, hr, Word.raw, Word.unparted, Word.written, Word.parted, Lexeme.words]

end RawText

namespace Lexer

/-- A text without faults and its lexemes: words behind their gaps, runs of blanks, and the end. -/
inductive Faultless : List Char → List Lexeme → Prop
  | eof {cs : List Char} {l : Lexeme} (hl : l.token = .eof) (hgap : trivia cs = .run cs false []) : Faultless cs [l]
  | blank {cs rest : List Char} {l : Lexeme} {ls : List Lexeme} (hl : l.token = .whitespace)
      (hgap : trivia cs = .run l.text true rest) (h : Faultless rest ls) : Faultless cs (l :: ls)
  | word {cs rest : List Char} {l : Lexeme} {ls : List Lexeme} (hw : l.token ≠ .whitespace) (he : l.token ≠ .eof)
      (hgap : trivia cs = .run l.gap false (l.text ++ rest)) (htext : l.text ≠ [])
      (hread : readToken (l.text ++ rest) = ⟨.ok l.token, l.text, rest⟩) (h : Faultless rest ls) :
      Faultless cs (l :: ls)

section Faultless
variable {p : Location} {cs : List Char} {ls : List Lexeme}

lemma Reads.faultless (h : Reads p cs ls none) : Faultless cs ls := by
  induction ls generalizing p cs with
  | nil => cases h.stop_isSome
  | cons l ls ih =>
    obtain ⟨-, rest, hs, hrest⟩ := h.step
    split_ifs at hrest with he
    · obtain ⟨rfl, -⟩ := hrest
      rw [he] at hs
      have hgap := trivia_of_step_eof hs
      rw [gap_eq_of_step_eof hs] at hgap
      exact .eof he hgap
    · obtain ⟨hw, -, hgap⟩ | ⟨cs', hgap, hread⟩ := step_eq_token_iff.1 hs
      · exact .blank hw hgap (ih hrest)
      · have htiles : l.text ++ rest = cs' := by
          have htiles := readToken_tiles cs'
          rwa [hread] at htiles
        subst htiles
        refine .word ?_ he hgap (step_text_ne_nil hs he) hread (ih hrest)
        intro hw
        exact readToken_ne_whitespace (l.text ++ rest) (by rw [hread, hw])

lemma Reads.readings_eq (h : Reads p cs ls none) : readings p cs = ls.map .lexeme := by
  unfold Reads at h
  generalize readings p cs = rs at h
  induction rs generalizing ls with
  | nil =>
    cases h
    rfl
  | cons r rs ih =>
    cases r with
    | fault f after => cases h
    | lexeme l =>
      simp only [Reading.untilFault, Prod.mk.injEq] at h
      obtain ⟨rfl, hstop⟩ := h
      rw [List.map_cons, ← ih (Prod.ext rfl hstop)]

lemma Faultless.text_ne_nil (h : Faultless cs ls) : ∀ l ∈ ls, l.token ≠ .eof → l.text ≠ [] := by
  induction h with
  | eof hl hgap => simpa using fun he => absurd hl he
  | blank hl hgap _ ih => exact List.forall_mem_cons.2 ⟨fun _ => trivia_run_blank hgap, ih⟩
  | word hw he hgap htext hread _ ih => exact List.forall_mem_cons.2 ⟨fun _ => htext, ih⟩

/-- The raw text of a text without faults. -/
lemma Reads.rawText_eq (h : Reads p cs ls none) :
    (RawText.ofReadings (readings p cs)).text = Word.raw (Lexeme.words ls) := by
  rw [h.readings_eq, RawText.ofReadings_lexemes, RawText.text_foldl_add h.faultless.text_ne_nil]
  rfl

/-- Where neither blanks nor comments stand in front of a text, a blank put there parts its first word from what is
in front, and nothing else. -/
lemma Faultless.written_behind_blank (h : Faultless cs ls) (hcs : trivia cs = .run [] false cs) :
    cs = [] ∧ (Lexeme.wordsBehind true ls).flatMap Word.written = [] ∨
      (Lexeme.wordsBehind true ls).flatMap Word.written = ' ' :: (Lexeme.words ls).flatMap Word.written := by
  cases h with
  | eof hl hgap =>
    left
    rw [hcs, Trivia.run.injEq] at hgap
    exact ⟨hgap.1.symm, by rw [Lexeme.wordsBehind_eof hl]; rfl⟩
  | blank hl hgap h =>
    rw [hcs, Trivia.run.injEq] at hgap
    cases hgap.2.1
  | word hw he hgap htext hread h =>
    right
    rw [hcs, Trivia.run.injEq] at hgap
    rw [Lexeme.words, Lexeme.wordsBehind_word hw he, Lexeme.wordsBehind_word hw he]
    simp [Word.written, Word.parted, ← hgap.1]

/-- The words written one behind the other are the text condensed. -/
lemma Faultless.condenses (h : Faultless cs ls) : Condenses cs ((Lexeme.words ls).flatMap Word.written) := by
  induction h with
  | eof hl hgap =>
    rw [Lexeme.words, Lexeme.wordsBehind_eof hl]
    exact .dropped hgap
  | @blank cs rest l ls hl hgap h ih =>
    rw [Lexeme.words, Lexeme.wordsBehind_whitespace hl]
    -- Blanks are taken as far as they go: a word without a gap follows, or the end.
    obtain ⟨rfl, hnil⟩ | hspace := h.written_behind_blank (trivia_rest hgap)
    · have hcs := trivia_append cs
      rw [hgap, Trivia.taken, Trivia.rest, List.append_nil] at hcs
      rw [hcs] at hgap
      rw [hnil]
      exact .dropped hgap
    · rw [hspace]
      exact .spaced hgap (trivia_run_blank hgap) ih
  | @word cs rest l ls hw he hgap htext hread h ih =>
    have htail := ih.append l.text
    rw [Lexeme.words, Lexeme.wordsBehind_word hw he, List.flatMap_cons, Word.written, List.append_assoc]
    by_cases hnil : l.gap = []
    · -- Nothing was skipped, so the text begins with the word.
      have hcs := trivia_append cs
      rw [hgap, hnil, Trivia.taken, Trivia.rest, List.nil_append] at hcs
      rw [hcs] at htail
      simpa [Word.parted, hnil] using htail
    · have hspaced := Condenses.spaced hgap hnil htail
      simpa [Word.parted, hnil] using hspaced

end Faultless

/-! ## Reading raw text -/

lemma step_space {cs : List Char} (h : trivia cs = .run [] false cs) :
    step (' ' :: cs) = .token [] .whitespace [' '] cs := by
  apply step_eq_token_iff.2
  left
  refine ⟨rfl, rfl, ?_⟩
  rw [trivia_of_isBlank (by decide), h]
  rfl

/-- The lexemes that spell some words: the same words in the same order, no comment anywhere, and no blanks at the
end. -/
structure Spells (ws : List Word) (ms : List Lexeme) : Prop where
  faces : (Lexeme.words ms).map Word.face = ws.map Word.face
  bare : ∀ m ∈ ms, m.gap = []
  last : ((ms.map Lexeme.token).filter (· ≠ .eof)).getLast? ≠ some .whitespace

section Spells
variable {ws : List Word} {w : Word} {m : Lexeme} {ms : List Lexeme}

lemma spells_eof (hm : m.token = .eof) (hgap : m.gap = []) : Spells [] [m] where
  faces := by
    rw [Lexeme.words, Lexeme.wordsBehind_eof hm]
    rfl
  bare := by simpa using hgap
  last := by simp [hm]

lemma getLast?_cons_ne {t : Token} {ts : List Token} (ht : ts = [] → t ≠ .whitespace)
    (h : ts.getLast? ≠ some .whitespace) : (t :: ts).getLast? ≠ some .whitespace := by
  cases ts with
  | nil => simpa using ht rfl
  | cons u us => rwa [List.getLast?_cons_cons]

lemma Spells.word (h : Spells ws ms) (hw : m.token ≠ .whitespace) (he : m.token ≠ .eof) (hgap : m.gap = [])
    (hface : Word.face ⟨m, false⟩ = w.face) : Spells (w :: ws) (m :: ms) where
  faces := by rw [Lexeme.words, Lexeme.wordsBehind_word hw he, List.map_cons, List.map_cons, hface, h.faces]
  bare := List.forall_mem_cons.2 ⟨hgap, h.bare⟩
  last := by
    rw [List.map_cons, List.filter_cons_of_pos (by simpa using he)]
    exact getLast?_cons_ne (fun _ => hw) h.last

lemma Spells.spaced {b : Lexeme} (h : Spells ws ms) (hb : b.token = .whitespace) (hbare : b.gap = [])
    (hw : m.token ≠ .whitespace) (he : m.token ≠ .eof) (hgap : m.gap = [])
    (hface : Word.face ⟨m, true⟩ = w.face) : Spells (w :: ws) (b :: m :: ms) where
  faces := by
    rw [Lexeme.words, Lexeme.wordsBehind_whitespace hb, Lexeme.wordsBehind_word hw he, List.map_cons, List.map_cons,
      hface, h.faces]
  bare := List.forall_mem_cons.2 ⟨hbare, List.forall_mem_cons.2 ⟨hgap, h.bare⟩⟩
  last := by
    rw [List.map_cons, List.map_cons, List.filter_cons_of_pos (by simp [hb]),
      List.filter_cons_of_pos (by simpa using he)]
    exact getLast?_cons_ne (by simp) (getLast?_cons_ne (fun _ => hw) h.last)

end Spells

section Again
variable {cs : List Char} {ls : List Lexeme}

/-- Words written one behind the other are read again. -/
lemma Faultless.again (h : Faultless cs ls) (blank : Bool) (q : Location) :
    ∃ ms, Reads q ((Lexeme.wordsBehind blank ls).flatMap Word.written) ms none ∧
      Spells (Lexeme.wordsBehind blank ls) ms := by
  induction h generalizing blank q with
  | eof hl hgap =>
    rw [Lexeme.wordsBehind_eof hl]
    exact ⟨_, reads_of_step_eof step_nil, spells_eof rfl rfl⟩
  | blank hl hgap h ih =>
    rw [Lexeme.wordsBehind_whitespace hl]
    exact ih true q
  | @word cs rest l ls hw he hgap htext hread h ih =>
    obtain ⟨hstop, hstep⟩ := step_condenses (trivia_rest hgap) htext hread h.condenses
    rw [Lexeme.wordsBehind_word hw he, List.flatMap_cons, Word.written]
    cases hparted : Word.parted ⟨l, blank⟩ with
    | false =>
      obtain ⟨ms, hreads, hspells⟩ := ih false (Lexeme.after ⟨l.token, [], l.text, q⟩)
      have hface : Word.face ⟨⟨l.token, [], l.text, q⟩, false⟩ = Word.face ⟨l, blank⟩ := by
        rw [Word.face, Word.face, hparted]
        rfl
      exact ⟨_, reads_of_step hstep he hreads, hspells.word hw he rfl hface⟩
    | true =>
      let b : Lexeme := ⟨.whitespace, [], [' '], q⟩
      obtain ⟨ms, hreads, hspells⟩ := ih false (Lexeme.after ⟨l.token, [], l.text, b.after⟩)
      have hface : Word.face ⟨⟨l.token, [], l.text, b.after⟩, true⟩ = Word.face ⟨l, blank⟩ := by
        rw [Word.face, Word.face, hparted]
        rfl
      have hword := reads_of_step hstep he hreads
      exact ⟨_, reads_of_step (step_space hstop) (by decide) hword, hspells.spaced rfl rfl hw he rfl hface⟩

/-- The first word has no gap in front when it is read again. -/
lemma Faultless.raw_again (h : Faultless cs ls) (blank : Bool) (q : Location) :
    ∃ ms, Reads q (Word.raw (Lexeme.wordsBehind blank ls)) ms none ∧
      Spells (Word.unparted (Lexeme.wordsBehind blank ls)) ms ∧
        ((ms.map Lexeme.token).filter (· ≠ .eof)).head? ≠ some .whitespace := by
  induction h generalizing blank with
  | eof hl hgap =>
    rw [Lexeme.wordsBehind_eof hl]
    exact ⟨_, reads_of_step_eof step_nil, spells_eof rfl rfl, by simp⟩
  | blank hl hgap h ih =>
    rw [Lexeme.wordsBehind_whitespace hl]
    exact ih true
  | @word cs rest l ls hw he hgap htext hread h ih =>
    obtain ⟨-, hstep⟩ := step_condenses (trivia_rest hgap) htext hread h.condenses
    obtain ⟨ms, hreads, hspells⟩ := h.again false (Lexeme.after ⟨l.token, [], l.text, q⟩)
    rw [Lexeme.wordsBehind_word hw he]
    exact ⟨_, reads_of_step hstep he hreads, hspells.word hw he rfl rfl, by simp [he, hw]⟩

end Again

/-- The words of a text, in front of its first fault if it has one. -/
def words (text : String) : List Word := Lexeme.words (Reading.untilFault (readings .start text.toList)).1

lemma Reads.words_eq {text : String} {ls : List Lexeme} (h : Reads .start text.toList ls none) :
    words text = Lexeme.words ls := by
  unfold Reads at h
  rw [words, h]

lemma tokens_eq_ok_iff {place : Location} {text : String} {ts : List Token} :
    tokens place text = .ok ts ↔
      ∃ ls, Reads place text.toList ls none ∧ ts = (ls.map Lexeme.token).filter (· ≠ .eof) := by
  unfold tokens Reads
  split
  · next ls hls => simp [hls, eq_comm]
  · next hls => simp [hls]

end Lexer

namespace Lexeme

lemma map_token_wordsBehind (blank : Bool) (ls : List Lexeme) :
    (wordsBehind blank ls).map (fun w => w.lexeme.token) =
      ((ls.map token).filter (· ≠ .eof)).filter (· ≠ .whitespace) := by
  induction ls generalizing blank with
  | nil => rfl
  | cons l ls ih =>
    by_cases hw : l.token = .whitespace
    · rw [wordsBehind_whitespace hw, ih]
      simp [hw]
    · by_cases he : l.token = .eof
      · rw [wordsBehind_eof he, ih]
        simp [he]
      · rw [wordsBehind_word hw he, List.map_cons, words, ih]
        simp [hw, he]

/-- Without comments, words are parted by blanks alone. -/
lemma map_parted_wordsBehind {blank : Bool} {ls : List Lexeme} (h : ∀ l ∈ ls, l.gap = []) :
    (wordsBehind blank ls).map Word.parted = (wordsBehind blank ls).map Word.blank := by
  induction ls generalizing blank with
  | nil => rfl
  | cons l ls ih =>
    obtain ⟨hl, hls⟩ := List.forall_mem_cons.1 h
    by_cases hw : l.token = .whitespace
    · rw [wordsBehind_whitespace hw, ih hls]
    · by_cases he : l.token = .eof
      · rw [wordsBehind_eof he, ih hls]
      · rw [wordsBehind_word hw he, List.map_cons, List.map_cons, words, ih hls]
        simp [Word.parted, hl]

end Lexeme

namespace RawText

/-- The raw text of a text. -/
def ofText (text : String) : String := (ofReadings (Lexer.readings .start text.toList)).toString

lemma toList_ofText {text : String} {ls : List Lexeme} (h : Lexer.Reads .start text.toList ls none) :
    (ofText text).toList = Word.raw (Lexeme.words ls) := by
  rw [ofText, toString, String.toList_ofList, h.rawText_eq]

/-- A text without faults and its raw text have the same tokens, blanks apart. Blanks stand between two of them in
the raw text where blanks or comments stood, and neither first nor last; so the raw text is its own raw text. -/
theorem ofText_keeps_tokens {text : String} {ts : List Token} (h : tokens .start text = .ok ts) :
    ∃ us, tokens .start (ofText text) = .ok us ∧
      us.head? ≠ some .whitespace ∧ us.getLast? ≠ some .whitespace ∧
      us.filter (· ≠ .whitespace) = ts.filter (· ≠ .whitespace) ∧
      ((Lexer.words (ofText text)).map Word.blank).tail = ((Lexer.words text).map Word.parted).tail ∧
      ofText (ofText text) = ofText text := by
  obtain ⟨ls, hls, rfl⟩ := Lexer.tokens_eq_ok_iff.1 h
  obtain ⟨ms, hms, hspells, hfirst⟩ := hls.faultless.raw_again false .start
  have hraw := toList_ofText hls
  rw [← Lexeme.words, ← hraw] at hms
  refine ⟨_, Lexer.tokens_eq_ok_iff.2 ⟨ms, hms, rfl⟩, hfirst, hspells.last, ?_, ?_, ?_⟩
  · rw [← Lexeme.map_token_wordsBehind false, ← Lexeme.map_token_wordsBehind false]
    exact Word.map_token_of_unparted hspells.faces
  · rw [hms.words_eq, hls.words_eq, Lexeme.words, ← Lexeme.map_parted_wordsBehind hspells.bare]
    exact Word.tail_parted_of_unparted hspells.faces
  · apply String.toList_inj.1
    rw [toList_ofText hms, Word.raw_congr hspells.faces, Word.raw_unparted, hraw]
    rfl

/-- A comment in front and one behind, blanks that hold a comment, a comment alone between two words, and a function
whose argument stands behind blanks. -/
theorem ofText_keeps_tokens_comments :
    let text := "/*a*/ 1e/*b*/5 \n/*c*/url( 'u')-/**/-x /*d*/"
    let raw := "1e 5 url( 'u')- -x"
    let ts : List Token := [.whitespace, .dimension ⟨0x3ff0000000000000⟩ "e", .number ⟨0x4014000000000000⟩,
      .whitespace, .function "url", .whitespace, .string "u", .rightParen, .delim '-', .ident "-x", .whitespace]
    tokens .start text = .ok ts ∧ ofText text = raw ∧ ofText raw = raw ∧
      ((Lexer.words raw).map Word.blank).tail = [true, true, true, false, false, true] := by
  intro text raw ts
  have htokens : tokens .start text = .ok ts := by decide +kernel
  have hraw : ofText text = raw := by decide +kernel
  have hparted : (Lexer.words text).map Word.parted = [true, true, true, true, false, false, true] := by
    decide +kernel
  obtain ⟨us, -, -, -, -, hblank, hagain⟩ := ofText_keeps_tokens htokens
  rw [hraw] at hblank hagain
  rw [hparted] at hblank
  exact ⟨htokens, hraw, hagain, hblank⟩

end RawText

end Stylebook
