import Mathlib.Data.List.Chain
import Mathlib.Data.List.Infix
import Mathlib.Logic.Function.Iterate
import Stylebook.Proofs.LexemeRow

/-! Reading a text call by call. Every call in front of the end moves on by whole characters, also one that meets
a fault, and a call at the end stays there. Where no call meets a fault, the tokens lie side by side in the text,
with nothing but complete comments between them. -/
namespace Stylebook

namespace Location

lemma offset_step (p : Location) (c : Char) : (p.step c).offset = p.offset + c.utf8Size := by
  unfold step
  split_ifs <;> rfl

lemma offset_past (p : Location) (cs : List Char) :
    (p.past cs).offset = p.offset + (String.ofList cs).utf8ByteSize := by
  induction cs generalizing p with
  | nil => simp
  | cons c cs ih =>
    rw [past_cons, ih, offset_step, ← List.singleton_append, String.ofList_append, String.utf8ByteSize_append,
      ← String.singleton_eq_ofList, String.utf8ByteSize_singleton, Nat.add_assoc]

end Location

namespace Lexer

/-! ## Calls -/

namespace Cursor

/-- Where a number of calls leave off. -/
def after (c : Cursor) (n : ℕ) : Cursor := (fun c => c.next.2)^[n] c

section Calls
variable {c : Cursor} {text : String} {n : ℕ}

lemma after_succ (c : Cursor) (n : ℕ) : c.after (n + 1) = (c.after n).next.2 :=
  Function.iterate_succ_apply' ..

lemma after_next (c : Cursor) (n : ℕ) : c.next.2.after n = c.after (n + 1) :=
  (Function.iterate_succ_apply ..).symm

/-- However many calls are made, all they do is pass characters. -/
lemma reaches_after (c : Cursor) (n : ℕ) : c.Reaches (c.after n) := by
  induction n with
  | zero => exact .refl c
  | succ n ih =>
    rw [after_succ]
    exact ih.trans (reaches_next _)

lemma Reaches.offset_eq (h : (start text).Reaches c) : ∃ front, text.toList = front ++ c.rest ∧
    c.place.offset = (String.ofList front).utf8ByteSize := by
  obtain ⟨front, htext, hc⟩ := h
  refine ⟨front, htext, ?_⟩
  rw [hc, place_past, Location.offset_past]
  exact Nat.zero_add _

lemma Reaches.isValid (h : (start text).Reaches c) : (⟨c.place.offset⟩ : String.Pos.Raw).IsValid text := by
  obtain ⟨front, htext, hoffset⟩ := h.offset_eq
  refine String.Pos.Raw.isValid_iff_exists_append.mpr ⟨String.ofList front, String.ofList c.rest, ?_, ?_⟩
  · rw [← String.ofList_append, ← htext, String.ofList_toList]
  · rw [hoffset]
    rfl

lemma utf8ByteSize_pos {cs : List Char} (h : cs ≠ []) : 0 < (String.ofList cs).utf8ByteSize := by
  obtain ⟨d, ds, rfl⟩ := List.exists_cons_of_ne_nil h
  have hone := Location.offset_past .start (d :: ds)
  have hd := d.utf8Size_pos
  rw [Location.past_cons, Location.offset_past, Location.offset_step] at hone
  omega

/-- The end of the text is where nothing is left to read. -/
lemma Reaches.offset_lt_iff (h : (start text).Reaches c) : c.place.offset < text.utf8ByteSize ↔ c.rest ≠ [] := by
  obtain ⟨front, htext, hoffset⟩ := h.offset_eq
  have hsize : text.utf8ByteSize = c.place.offset + (String.ofList c.rest).utf8ByteSize := by
    rw [hoffset, ← String.utf8ByteSize_append, ← String.ofList_append, ← htext, String.ofList_toList]
  rw [hsize]
  constructor
  · intro hlt hnil
    simp [hnil] at hlt
  · intro hne
    have := utf8ByteSize_pos hne
    omega

/-- In front of the end a call moves on. -/
lemma offset_lt_next (h : c.rest ≠ []) : c.place.offset < c.next.2.place.offset := by
  have hlt := length_next h
  obtain ⟨front, hrest, hnext⟩ := reaches_next c
  have hfront : front ≠ [] := by
    rintro rfl
    rw [hrest] at hlt
    exact Nat.lt_irrefl _ hlt
  have hpos := utf8ByteSize_pos hfront
  rw [hnext, place_past, Location.offset_past]
  omega

/-- The end is reached after at most one call for each character that is left, and what is read up to there is
what the text gives. -/
lemma exists_end (c : Cursor) : ∃ n ≤ c.rest.length, (c.after n).next.1.isEnd = true ∧
    (∀ i < n, (c.after i).next.1.isEnd = false) ∧
    c.readings = (List.range (n + 1)).map fun i => (c.after i).next.1 := by
  induction hlen : c.rest.length using Nat.strong_induction_on generalizing c with
  | _ len ih =>
    rw [readings_eq]
    cases hend : c.next.1.isEnd with
    | true => exact ⟨0, Nat.zero_le _, hend, by simp, rfl⟩
    | false =>
      have hne : c.rest ≠ [] := by
        intro hnil
        rw [next_of_nil hnil] at hend
        cases hend
      have hshort : c.next.2.rest.length < len := hlen ▸ length_next hne
      obtain ⟨n, hn, hlast, hbefore, hread⟩ := ih _ hshort c.next.2 rfl
      refine ⟨n + 1, by omega, ?_, ?_, ?_⟩
      · rwa [← after_next]
      · intro i hi
        cases i with
        | zero => exact hend
        | succ i =>
          rw [← after_next]
          exact hbefore i (by omega)
      · simp only [Bool.false_eq_true, if_false, hread, after_next]
        conv_rhs => rw [List.range_succ_eq_map, List.map_cons, List.map_map]
        rfl

end Calls

end Cursor

/-! ## Blanks and comments -/

/-- A comment with its closing, which is the first one behind the opening. -/
def IsComment (cs : List Char) : Prop :=
  ∃ body, cs = '/' :: '*' :: (body ++ ['*', '/']) ∧ ¬ ['*', '/'] <:+: body ++ ['*']

/-- A single blank character. -/
def IsBlankChar (cs : List Char) : Prop := ∃ c, Text.isBlank c = true ∧ cs = [c]

/-- Complete comments, one behind the other. -/
def Comments (cs : List Char) : Prop := ∃ pieces : List (List Char), cs = pieces.flatten ∧ ∀ p ∈ pieces, IsComment p

/-- Blank characters and complete comments, at least one of them a blank character. -/
def Blanks (cs : List Char) : Prop :=
  ∃ pieces : List (List Char), cs = pieces.flatten ∧ (∀ p ∈ pieces, IsComment p ∨ IsBlankChar p) ∧
    ∃ p ∈ pieces, IsBlankChar p

section Trivia
variable {cs taken rest : List Char} {blank : Bool}

lemma closeComment_eq_some {body : List Char} (h : closeComment cs = some (body, rest)) :
    ∃ inner, body = inner ++ ['*', '/'] ∧ ¬ ['*', '/'] <:+: inner ++ ['*'] := by
  fun_induction closeComment cs generalizing body rest with
  | case1 => cases h
  | case2 tail =>
    cases h
    exact ⟨[], rfl, by decide⟩
  | case3 c tail hopen ih =>
    obtain ⟨⟨b, r⟩, hb, he⟩ := Option.map_eq_some_iff.mp h
    cases he
    obtain ⟨inner, rfl, hinner⟩ := ih hb
    refine ⟨c :: inner, rfl, ?_⟩
    rw [List.cons_append, List.infix_cons_iff]
    rintro (hstart | hlater)
    · -- A closing at the very beginning would have been taken.
      rw [List.cons_prefix_cons] at hstart
      obtain ⟨rfl, hslash⟩ := hstart
      have htail := closeComment_append hb
      cases inner with
      | nil => simp at hslash
      | cons d inner =>
        rw [List.cons_append, List.cons_prefix_cons] at hslash
        obtain ⟨rfl, -⟩ := hslash
        exact hopen _ rfl htail.symm
    · exact hinner hlater

lemma comment?_eq_some {comment : List Char} (h : comment? cs = some (comment, rest)) : IsComment comment := by
  unfold comment? at h
  split at h
  · obtain ⟨⟨b, r⟩, hb, he⟩ := Option.map_eq_some_iff.mp h
    cases he
    obtain ⟨inner, rfl, hinner⟩ := closeComment_eq_some hb
    exact ⟨inner, rfl, hinner⟩
  · cases h

/-- What stands in front of a token is made of blank characters and complete comments. -/
lemma trivia_pieces (h : trivia cs = .run taken blank rest) :
    ∃ pieces : List (List Char), taken = pieces.flatten ∧ (∀ p ∈ pieces, IsComment p ∨ IsBlankChar p) ∧
      (blank = true ↔ ∃ p ∈ pieces, IsBlankChar p) := by
  fun_induction trivia cs generalizing taken blank rest with
  | case1 =>
    cases h
    exact ⟨[], rfl, by simp, by simp⟩
  | case2 c tail hc ih =>
    cases ht : trivia tail with
    | unclosed before comment => simp [ht, Trivia.push] at h
    | run taken' blank' rest' =>
      simp only [ht, Trivia.push, Trivia.run.injEq] at h
      obtain ⟨rfl, rfl, rfl⟩ := h
      obtain ⟨pieces, rfl, hpieces, -⟩ := ih ht
      have hblank : IsBlankChar [c] := ⟨c, hc, rfl⟩
      exact ⟨[c] :: pieces, rfl, List.forall_mem_cons.mpr ⟨.inr hblank, hpieces⟩, by simp [hblank]⟩
  | case3 c tail hc comment after hcomment ih =>
    cases ht : trivia after with
    | unclosed before comment => simp [ht, Trivia.push] at h
    | run taken' blank' rest' =>
      simp only [ht, Trivia.push, Trivia.run.injEq] at h
      obtain ⟨rfl, rfl, rfl⟩ := h
      obtain ⟨pieces, rfl, hpieces, hiff⟩ := ih ht
      have hcomment := comment?_eq_some hcomment
      have hnot : ¬ IsBlankChar comment := by
        obtain ⟨body, rfl, -⟩ := hcomment
        rintro ⟨d, -, hd⟩
        simp at hd
      exact ⟨comment :: pieces, rfl, List.forall_mem_cons.mpr ⟨.inl hcomment, hpieces⟩, by simp [hnot, hiff]⟩
  | case4 => cases h
  | case5 =>
    cases h
    exact ⟨[], rfl, by simp, by simp⟩

lemma blanks_of_trivia (h : trivia cs = .run taken true rest) : Blanks taken := by
  obtain ⟨pieces, rfl, hpieces, hiff⟩ := trivia_pieces h
  exact ⟨pieces, rfl, hpieces, hiff.mp rfl⟩

lemma comments_of_trivia (h : trivia cs = .run taken false rest) : Comments taken := by
  obtain ⟨pieces, rfl, hpieces, hiff⟩ := trivia_pieces h
  refine ⟨pieces, rfl, fun p hp => (hpieces p hp).resolve_right fun hblank => ?_⟩
  exact absurd (hiff.mpr ⟨p, hp, hblank⟩) (by decide)

end Trivia

/-! ## Tokens side by side -/

/-- A piece of a text lies between two byte offsets. -/
def Covers (text : String) (first last : ℕ) (piece : List Char) : Prop :=
  ∃ front behind, text.toList = front ++ (piece ++ behind) ∧ first = (String.ofList front).utf8ByteSize ∧
    last = first + (String.ofList piece).utf8ByteSize

/-- How the lexemes of a text lie in it from a byte offset on. -/
structure Tiling (text : String) (first : ℕ) (ls : List Lexeme) : Prop where
  /-- A token covers its own characters. -/
  spans : ∀ l ∈ ls, Covers text l.start.offset l.after.offset l.text
  bound : ∀ l ∈ ls, first ≤ l.start.offset
  ordered : ls.Pairwise fun l m => l.after.offset ≤ m.start.offset
  leading : ∀ l ∈ ls.head?, ∃ gap, Covers text first l.start.offset gap ∧ Comments gap
  between : ls.IsChain fun l m => ∃ gap, Covers text l.after.offset m.start.offset gap ∧ Comments gap
  blanks : ∀ l ∈ ls, l.token = .whitespace → Blanks l.text
  apart : ls.IsChain fun l m => ¬ (l.token = .whitespace ∧ m.token = .whitespace)
  /-- The end stands last, at the end of the text. -/
  closing : ∃ e ∈ ls.getLast?, e.token = .eof ∧ e.start.offset = text.utf8ByteSize

section Tiling
variable {text : String} {first : ℕ} {p q : Location} {cs passed : List Char} {l : Lexeme} {ls : List Lexeme}

lemma Covers.le {last : ℕ} {piece : List Char} (h : Covers text first last piece) : first ≤ last := by
  obtain ⟨-, -, -, -, rfl⟩ := h
  exact Nat.le_add_right ..

lemma covers_of_past {piece : List Char} (behind : List Char) (htext : text.toList = passed ++ (piece ++ behind))
    (hp : p = Location.start.past passed) (hq : q = p.past piece) : Covers text p.offset q.offset piece := by
  refine ⟨passed, behind, htext, ?_, ?_⟩
  · rw [hp, Location.offset_past]
    simp [Location.start]
  · rw [hq, Location.offset_past]

lemma tiling_singleton (hlead : Covers text first l.start.offset l.gap) (hgap : Comments l.gap)
    (hspan : Covers text l.start.offset l.after.offset l.text) (heof : l.token = .eof)
    (hsize : l.start.offset = text.utf8ByteSize) : Tiling text first [l] where
  spans := by simpa using hspan
  bound := by simpa using hlead.le
  ordered := List.pairwise_singleton ..
  leading := by simpa using ⟨l.gap, hlead, hgap⟩
  between := .singleton _
  blanks := by simp [heof]
  apart := .singleton _
  closing := ⟨l, rfl, heof, hsize⟩

/-- One more token in front of the others. -/
lemma Tiling.cons (h : Tiling text l.after.offset ls) (hlead : Covers text first l.start.offset l.gap)
    (hgap : Comments l.gap) (hspan : Covers text l.start.offset l.after.offset l.text)
    (hblank : l.token = .whitespace → Blanks l.text)
    (hapart : l.token = .whitespace → ∀ m ∈ ls.head?, m.token ≠ .whitespace) : Tiling text first (l :: ls) where
  spans := List.forall_mem_cons.mpr ⟨hspan, h.spans⟩
  bound := List.forall_mem_cons.mpr ⟨hlead.le, fun m hm => hlead.le.trans (hspan.le.trans (h.bound m hm))⟩
  ordered := List.pairwise_cons.mpr ⟨h.bound, h.ordered⟩
  leading := by simpa using ⟨l.gap, hlead, hgap⟩
  between := List.isChain_cons.mpr ⟨h.leading, h.between⟩
  blanks := List.forall_mem_cons.mpr ⟨hblank, h.blanks⟩
  apart := List.isChain_cons.mpr ⟨fun m hm hboth => hapart hboth.1 m hm hboth.2, h.apart⟩
  closing := by
    obtain ⟨e, he, heof⟩ := h.closing
    refine ⟨e, ?_, heof⟩
    rw [Option.mem_def] at he ⊢
    simp [List.getLast?_cons, he]

/-- A token is read behind comments, and blanks as far as they go. -/
lemma comments_and_blanks_of_step {gap piece rest : List Char} {t : Token}
    (h : step cs = .token gap t piece rest) : Comments gap ∧ (t = .whitespace → Blanks piece) := by
  obtain ⟨rfl, rfl, hb⟩ | ⟨cs', ht, -⟩ := step_eq_token_iff.mp h
  · exact ⟨⟨[], rfl, by simp⟩, fun _ => blanks_of_trivia hb⟩
  · refine ⟨comments_of_trivia ht, ?_⟩
    rintro rfl
    exact blanks_of_trivia (trivia_of_step_whitespace h)

lemma Reads.tiling (h : Reads p cs ls none) (htext : text.toList = passed ++ cs)
    (hp : p = Location.start.past passed) : Tiling text p.offset ls := by
  induction ls generalizing p cs passed with
  | nil => cases h.stop_isSome
  | cons l ls ih =>
    have hrow := h.row
    obtain ⟨rfl, rest, hs, hrest⟩ := h.step
    obtain ⟨hgap, hblank⟩ := comments_and_blanks_of_step hs
    have hcs : l.gap ++ (l.text ++ rest) = cs := by
      have hcs := step_append cs
      rwa [hs, Step.taken, Step.rest, List.append_assoc] at hcs
    have hstart : l.start = Location.start.past (passed ++ l.gap) := by
      rw [Lexeme.start, hp, Location.past_append]
    have hlead : Covers text l.before.offset l.start.offset l.gap :=
      covers_of_past (l.text ++ rest) (htext.trans (by rw [hcs])) hp rfl
    have hspan : Covers text l.start.offset l.after.offset l.text :=
      covers_of_past rest (htext.trans (by rw [← hcs, List.append_assoc])) hstart rfl
    split_ifs at hrest with ht
    · obtain ⟨rfl, -⟩ := hrest
      rw [ht] at hs
      apply tiling_singleton hlead hgap hspan ht
      rw [hstart, gap_eq_of_step_eof hs, ← htext, Location.offset_past, String.ofList_toList]
      exact Nat.zero_add _
    · obtain ⟨-, happart, -⟩ := Lexeme.row_of_ne_eof hrow ht
      have hbehind : text.toList = passed ++ l.gap ++ l.text ++ rest := by
        rw [htext, ← hcs]
        simp
      have hafter : l.after = Location.start.past (passed ++ l.gap ++ l.text) := by
        rw [Lexeme.after, hstart, ← Location.past_append]
      exact Tiling.cons (ih hrest hbehind hafter) hlead hgap hspan hblank happart

end Tiling

/-- However many calls are made, the text is passed by whole characters: a call in front of the end moves on,
token or fault, and a call at the end reads the end and stays. So the end is reached, after no more calls than
the text has characters. If no call met a fault, the tokens lie side by side in the text, comments apart. -/
theorem calls_advance_and_tile (text : String) :
    (∀ n, let c := (Cursor.start text).after n
      (⟨c.place.offset⟩ : String.Pos.Raw).IsValid text ∧
      (c.place.offset < text.utf8ByteSize → c.place.offset < c.next.2.place.offset) ∧
      (c.place.offset = text.utf8ByteSize → c.next = (.lexeme ⟨.eof, [], [], c.place⟩, c))) ∧
    (∃ n ≤ text.length, ((Cursor.start text).after n).next.1.isEnd = true ∧
      (∀ i < n, ((Cursor.start text).after i).next.1.isEnd = false) ∧
      readings .start text.toList = (List.range (n + 1)).map fun i => ((Cursor.start text).after i).next.1) ∧
    ∀ ls, Reads .start text.toList ls none → Tiling text 0 ls := by
  refine ⟨fun n => ?_, ?_, ?_⟩
  · have hreach := (Cursor.start text).reaches_after n
    refine ⟨hreach.isValid, fun hlt => Cursor.offset_lt_next (hreach.offset_lt_iff.mp hlt), fun heq => ?_⟩
    apply Cursor.next_of_nil
    by_contra hne
    exact absurd (hreach.offset_lt_iff.mpr hne) (by omega)
  · obtain ⟨n, hn, hend⟩ := (Cursor.start text).exists_end
    exact ⟨n, hn.trans_eq String.length_toList, hend⟩
  · intro ls h
    exact h.tiling (List.nil_append _).symm rfl

/-- A comment in front, one inside a run of blanks, one between two tokens, and one before the end: `é` takes two
bytes, and blanks are no token twice. A call that meets a fault moves on as well. -/
theorem calls_advance_and_tile_comments :
    let text := "/*a*/é /**/ b/*c*/;/*d*/"
    let broken := "'x\né"
    let ls : List Lexeme := [⟨.ident "é", "/*a*/".toList, ['é'], ⟨1, 1, 0⟩⟩,
      ⟨.whitespace, [], " /**/ ".toList, ⟨1, 7, 7⟩⟩, ⟨.ident "b", [], ['b'], ⟨1, 13, 13⟩⟩,
      ⟨.semicolon, "/*c*/".toList, [';'], ⟨1, 14, 14⟩⟩, ⟨.eof, "/*d*/".toList, [], ⟨1, 20, 20⟩⟩]
    Reads .start text.toList ls none ∧ Tiling text 0 ls ∧
      ((Cursor.start broken).after 1).place.offset = 3 ∧ broken.utf8ByteSize = 5 ∧
      ((Cursor.start broken).after 1).place.offset < ((Cursor.start broken).after 2).place.offset := by
  intro text broken ls
  have hreads : Reads .start text.toList ls none := by
    unfold Reads
    decide +kernel
  have hplace : ((Cursor.start broken).after 1).place.offset = 3 := by decide +kernel
  have hsize : broken.utf8ByteSize = 5 := by decide +kernel
  obtain ⟨-, -, htiling⟩ := calls_advance_and_tile text
  obtain ⟨hcalls, -, -⟩ := calls_advance_and_tile broken
  exact ⟨hreads, htiling ls hreads, hplace, hsize, (hcalls 1).2.1 (by rw [hplace, hsize]; decide)⟩

end Lexer

end Stylebook
