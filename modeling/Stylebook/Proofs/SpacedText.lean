import Mathlib.Tactic.SplitIfs
import Stylebook.RawText

/-! The text of a row of lexemes, said without putting it together: the tokens as they are written, one space
between two of them where blanks or comments stand, and nothing at either end. -/
namespace Stylebook

namespace Lexeme

/-- A token, and further tokens behind it, with one space where blanks or comments part two of them. -/
inductive Spaced : List Lexeme → List Char → Prop
  | single {l : Lexeme} (hl : l.token ≠ .whitespace) : Spaced [l] l.text
  | touching {l m : Lexeme} {ls : List Lexeme} {cs : List Char} (hl : l.token ≠ .whitespace) (hm : m.gap = [])
      (h : Spaced (m :: ls) cs) : Spaced (l :: m :: ls) (l.text ++ cs)
  | parted {l m : Lexeme} {bs ls : List Lexeme} {cs : List Char} (hl : l.token ≠ .whitespace)
      (hbs : ∀ b ∈ bs, b.token = .whitespace) (hm : bs ≠ [] ∨ m.gap ≠ []) (h : Spaced (m :: ls) cs) :
      Spaced (l :: (bs ++ m :: ls)) (l.text ++ ' ' :: cs)

/-- The text of lexemes between blanks. -/
inductive Written : List Lexeme → List Char → Prop
  | blank {bs : List Lexeme} (hbs : ∀ b ∈ bs, b.token = .whitespace) : Written bs []
  | spaced {bs ls bs' : List Lexeme} {cs : List Char} (hbs : ∀ b ∈ bs, b.token = .whitespace) (h : Spaced ls cs)
      (hbs' : ∀ b ∈ bs', b.token = .whitespace) : Written (bs ++ (ls ++ bs')) cs

section Written
variable {l : Lexeme} {ls : List Lexeme} {cs : List Char}

lemma Spaced.exists_cons (h : Spaced ls cs) : ∃ m ms, ls = m :: ms ∧ m.token ≠ .whitespace := by
  cases h with
  | single hl => exact ⟨_, _, rfl, hl⟩
  | touching hl _ _ => exact ⟨_, _, rfl, hl⟩
  | parted hl _ _ _ => exact ⟨_, _, rfl, hl⟩

/-- One more token in front. -/
lemma Written.cons_word (hl : l.token ≠ .whitespace) (h : Written ls cs) : ∃ ds, Written (l :: ls) ds := by
  have hnone : ∀ b ∈ ([] : List Lexeme), b.token = .whitespace := by simp
  cases h with
  | blank hbs => exact ⟨_, .spaced hnone (.single hl) hbs⟩
  | @spaced bs ms bs' _ hbs h hbs' =>
    obtain ⟨m, rest, rfl, -⟩ := h.exists_cons
    by_cases hm : bs ≠ [] ∨ m.gap ≠ []
    · have hspaced := Written.spaced hnone (Spaced.parted hl hbs hm h) hbs'
      exact ⟨_, by simpa using hspaced⟩
    · obtain ⟨rfl, hgap⟩ : bs = [] ∧ m.gap = [] := by simpa using hm
      exact ⟨_, .spaced hnone (.touching hl hgap h) hbs'⟩

lemma Written.cons_blank (hl : l.token = .whitespace) (h : Written ls cs) : Written (l :: ls) cs := by
  cases h with
  | blank hbs => exact .blank (List.forall_mem_cons.mpr ⟨hl, hbs⟩)
  | spaced hbs h hbs' => exact .spaced (List.forall_mem_cons.mpr ⟨hl, hbs⟩) h hbs'

lemma Spaced.ne_nil (h : Spaced ls cs) (hne : ∀ l ∈ ls, l.token ≠ .whitespace → l.text ≠ []) : cs ≠ [] := by
  cases h with
  | single hl => exact hne _ List.mem_cons_self hl
  | touching hl _ _ => simp [hne _ List.mem_cons_self hl]
  | parted hl _ _ _ => simp

/-- Where tokens have characters, only blanks have no text. -/
lemma Written.eq_nil_iff (h : Written ls cs) (hne : ∀ l ∈ ls, l.token ≠ .whitespace → l.text ≠ []) :
    cs = [] ↔ ∀ l ∈ ls, l.token = .whitespace := by
  cases h with
  | blank hbs => exact iff_of_true rfl hbs
  | @spaced bs ms bs' _ hbs h hbs' =>
    have hcs := h.ne_nil fun l hl => hne l (List.mem_append_right bs (List.mem_append_left bs' hl))
    obtain ⟨m, rest, rfl, hm⟩ := h.exists_cons
    exact iff_of_false hcs fun hall => hm (hall m (by simp))

/-- Every row of lexemes has a text. -/
lemma exists_written (ls : List Lexeme) : ∃ cs, Written ls cs := by
  induction ls with
  | nil => exact ⟨[], .blank (by simp)⟩
  | cons l ls ih =>
    obtain ⟨cs, hcs⟩ := ih
    by_cases hl : l.token = .whitespace
    · exact ⟨cs, hcs.cons_blank hl⟩
    · exact hcs.cons_word hl

end Written

end Lexeme

namespace RawText
open Lexeme (Spaced Written)

section Push
variable {r : RawText} {l : Lexeme} {ls : List Lexeme} {cs : List Char}

lemma push_of_blank (h : l.token = .whitespace) : r.push l = ⟨r.text, true⟩ := by rw [push, if_pos h]

lemma push_of_word (h : l.token ≠ .whitespace) : r.push l =
    ⟨r.text ++ (if (r.pending || !l.gap.isEmpty) && !r.text.isEmpty then [' '] else []) ++ l.text, false⟩ := by
  rw [push, if_neg h]

lemma foldl_push_blanks (h : ∀ l ∈ ls, l.token = .whitespace) :
    ls.foldl push r = ⟨r.text, r.pending || !ls.isEmpty⟩ := by
  induction ls generalizing r with
  | nil => simp
  | cons l ls ih =>
    obtain ⟨hl, hls⟩ := List.forall_mem_cons.mp h
    rw [List.foldl_cons, push_of_blank hl, ih hls]
    simp

/-- The first token is parted from the text so far, and the others are as spaced. -/
lemma foldl_push_spaced (h : Spaced ls cs) (hne : ∀ l ∈ ls, l.token ≠ .whitespace → l.text ≠ []) :
    ls.foldl push r =
      ⟨r.text ++ (if (r.pending || ls.head?.any fun l => !l.gap.isEmpty) && !r.text.isEmpty then [' '] else []) ++ cs,
        false⟩ := by
  induction h generalizing r with
  | single hl => simp [push_of_word hl]
  | @touching l m ls cs hl hm h ih =>
    obtain ⟨hne, hnes⟩ := List.forall_mem_cons.mp hne
    rw [List.foldl_cons, push_of_word hl, ih hnes]
    simp [hm]
  | @parted l m bs ls cs hl hbs hm h ih =>
    obtain ⟨hne, hnes⟩ := List.forall_mem_cons.mp hne
    have hparted : (!bs.isEmpty || !m.gap.isEmpty) = true := by simpa using hm
    rw [List.foldl_cons, push_of_word hl, List.foldl_append, foldl_push_blanks hbs,
      ih fun m hm => hnes m (List.mem_append_right bs hm)]
    simp [hparted, hne hl]

/-- The text put together is the one that is written. -/
lemma written_iff (hne : ∀ l ∈ ls, l.token ≠ .whitespace → l.text ≠ []) :
    Written ls cs ↔ (ofLexemes ls).text = cs := by
  have htext : ∀ {ds}, Written ls ds → (ofLexemes ls).text = ds := by
    intro ds h
    rw [ofLexemes]
    cases h with
    | blank hbs => rw [foldl_push_blanks hbs, empty]
    | @spaced bs ms bs' _ hbs h hbs' =>
      rw [List.foldl_append, List.foldl_append, foldl_push_blanks hbs, foldl_push_spaced h, foldl_push_blanks hbs']
      · simp [empty]
      · intro l hl
        exact hne l (List.mem_append_right bs (List.mem_append_left bs' hl))
  constructor
  · exact htext
  · rintro rfl
    obtain ⟨ds, hds⟩ := Lexeme.exists_written ls
    rwa [htext hds]

end Push

end RawText

end Stylebook
