import Stylebook.Lexer

/-! The lexemes of a text as a parser reads them: one in view, the others ahead. -/
namespace Stylebook

structure Feed where
  current : Lexeme
  ahead : List Lexeme
  /-- What is met behind the last lexeme ahead, unless the text ends there. -/
  stop : Option Fault

namespace Feed

/-- A text can be read when its first token can. -/
def ofText (place : Location) (text : List Char) : Except Fault Feed :=
  match Reading.untilFault (Lexer.readings place text) with
  | (l :: ls, stop) => .ok ⟨l, ls, stop⟩
  | ([], some fault) => .error fault
  | ([], none) => .ok ⟨⟨.eof, [], [], place⟩, [], none⟩

def token (f : Feed) : Token := f.current.token

/-- Brings the next lexeme into view. A fault met there comes before any other complaint. -/
def advance (f : Feed) : Except Fault Feed :=
  match f.ahead, f.stop with
  | l :: ls, _ => .ok { f with current := l, ahead := ls }
  | [], some fault => .error fault
  | [], none => .ok { f with current := f.current.again }

/-- Two runs of blanks never stand side by side, so passing one is enough. -/
def skipBlank (f : Feed) : Except Fault Feed :=
  if f.token = .whitespace then f.advance else .ok f

/-- The lexemes from the one in view up to, and without, the one in view in a later feed. -/
def passed (f g : Feed) : List Lexeme := (f.current :: f.ahead).take (f.ahead.length - g.ahead.length)

/-- The source from the token in view up to the token in view in a later feed. -/
def slice (f g : Feed) : List Char :=
  match f.passed g with
  | [] => []
  | l :: ls => l.text ++ ls.flatMap Lexeme.source ++ g.current.gap

/-- The number of lexemes in front of the end. Passing any of them lowers it. -/
def size (f : Feed) : Nat := f.ahead.length + if f.token = .eof then 0 else 1

theorem size_advance_le {f g : Feed} (h : f.advance = .ok g) : g.size ≤ f.size := by
  unfold advance at h
  split at h
  · next _ l ls ha =>
    cases h
    simp only [size, token, ha, List.length_cons]
    by_cases hl : l.token = .eof <;> simp [hl]
    omega
  · cases h
  · next ha _ =>
    cases h
    simp [size, token, ha, Lexeme.again]

theorem size_advance_lt {f g : Feed} (h : f.advance = .ok g) (hf : f.token ≠ .eof) :
    g.size < f.size := by
  unfold advance at h
  split at h
  · next _ l ls ha =>
    cases h
    simp only [size, ha, List.length_cons, hf, if_false]
    split <;> omega
  · cases h
  · next ha _ =>
    cases h
    simp only [token] at hf
    simp [size, token, ha, Lexeme.again, hf]

theorem size_skipBlank_le {f g : Feed} (h : f.skipBlank = .ok g) : g.size ≤ f.size := by
  unfold skipBlank at h
  split at h
  · exact size_advance_le h
  · cases h; exact Nat.le_refl _

end Feed

end Stylebook
