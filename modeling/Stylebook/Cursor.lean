import Stylebook.Location

/-! How far a text has been read. The text may be a piece of a document: bytes, lines and columns are counted
from the beginning of the piece, and places are given in the document. -/
namespace Stylebook.Lexer

structure Cursor where
  /-- The place of the first character of the text. -/
  origin : Location
  /-- The number of bytes in front of what is left. -/
  position : Nat
  line : Nat
  column : Nat
  rest : List Char
  line_pos : 0 < line
  column_pos : 0 < column

namespace Cursor

/-- In front of a text that begins at `origin`. -/
def withOrigin (origin : Location) (text : List Char) : Cursor :=
  ⟨origin, 0, 1, 1, text, Nat.one_pos, Nat.one_pos⟩

def start (text : String) : Cursor := withOrigin .start text.toList

/-- The place in the document. The column of the origin counts in the first line only. -/
def place (c : Cursor) : Location where
  line := c.origin.line + c.line - 1
  column := if c.line = 1 then c.origin.column + c.column - 1 else c.column
  offset := c.origin.offset + c.position

@[simp] theorem place_withOrigin (origin : Location) (text : List Char) :
    (withOrigin origin text).place = origin := rfl

@[simp] theorem rest_withOrigin (origin : Location) (text : List Char) : (withOrigin origin text).rest = text := rfl

def peek (c : Cursor) : Option Char := c.rest.head?

def peekNth (c : Cursor) (n : Nat) : Option Char := c.rest[n]?

/-! ## Passing characters -/

/-- Behind one character more. -/
def pass (c : Cursor) (x : Char) : Cursor where
  origin := c.origin
  position := c.position + x.utf8Size
  line := if x = '\n' then c.line + 1 else c.line
  column := if x = '\n' then 1 else c.column + 1
  rest := c.rest.tail
  line_pos := by
    have hline := c.line_pos
    split <;> omega
  column_pos := by split <;> exact Nat.succ_pos _

def past (c : Cursor) (cs : List Char) : Cursor := cs.foldl pass c

/-- The next character, which is passed; at the end there is none. -/
def advance (c : Cursor) : Option Char × Cursor :=
  match c.rest with
  | [] => (none, c)
  | x :: _ => (some x, c.pass x)

/-- What has to be put back to read on from an earlier position. -/
structure Mark where
  position : Nat
  line : Nat
  column : Nat
  rest : List Char
  line_pos : 0 < line
  column_pos : 0 < column

def mark (c : Cursor) : Mark := ⟨c.position, c.line, c.column, c.rest, c.line_pos, c.column_pos⟩

def rewind (c : Cursor) (m : Mark) : Cursor :=
  ⟨c.origin, m.position, m.line, m.column, m.rest, m.line_pos, m.column_pos⟩

/-- The characters that take up the first `n` bytes. -/
def takeBytes (n : Nat) : List Char → List Char
  | [] => []
  | x :: cs => if n = 0 then [] else x :: takeBytes (n - x.utf8Size) cs

/-- The text from one cursor up to a later one. -/
def slice (c d : Cursor) : List Char := takeBytes (d.position - c.position) c.rest

/-! ## What passing characters does -/

section Past
variable (c : Cursor) (x : Char) (cs ds : List Char)

@[simp] theorem past_nil : c.past [] = c := rfl

@[simp] theorem past_cons : c.past (x :: cs) = (c.pass x).past cs := rfl

theorem past_append : c.past (cs ++ ds) = (c.past cs).past ds := List.foldl_append

theorem place_pass : (c.pass x).place = c.place.step x := by
  obtain ⟨origin, position, line, column, rest, hline, hcolumn⟩ := c
  by_cases hx : x = '\n'
  · have hnext : line + 1 ≠ 1 := by omega
    simp only [place, pass, Location.step, hx, if_true, hnext, if_false, Location.mk.injEq, true_and]
    omega
  · simp only [place, pass, Location.step, hx, if_false, Location.mk.injEq, true_and]
    split <;> omega

theorem place_past : (c.past cs).place = c.place.past cs := by
  induction cs generalizing c with
  | nil => rfl
  | cons x cs ih => rw [past_cons, ih, place_pass, Location.past_cons]

theorem rest_past : (c.past cs).rest = c.rest.drop cs.length := by
  induction cs generalizing c with
  | nil => rfl
  | cons x cs ih => rw [past_cons, ih, pass, List.drop_tail, List.length_cons]

theorem position_le_past : c.position ≤ (c.past cs).position := by
  induction cs generalizing c with
  | nil => exact Nat.le_refl _
  | cons x cs ih => exact Nat.le_trans (Nat.le_add_right ..) (ih (c.pass x))

theorem origin_past : (c.past cs).origin = c.origin := by
  induction cs generalizing c with
  | nil => rfl
  | cons x cs ih => exact ih (c.pass x)

end Past

/-! ## Cursors further on in the same text -/

/-- Nothing but passing the characters in between leads from one cursor to another. -/
def Reaches (c d : Cursor) : Prop := ∃ front, c.rest = front ++ d.rest ∧ d = c.past front

section Reaches
variable {c d e : Cursor} {x : Char} {cs : List Char}

theorem reaches_past (cs ds : List Char) (h : c.rest = cs ++ ds) : c.Reaches (c.past cs) := by
  refine ⟨cs, ?_, rfl⟩
  rw [rest_past, h, List.drop_left]

@[simp] theorem Reaches.refl (c : Cursor) : c.Reaches c := ⟨[], rfl, rfl⟩

theorem Reaches.trans (h : c.Reaches d) (h' : d.Reaches e) : c.Reaches e := by
  obtain ⟨front, hc, rfl⟩ := h
  obtain ⟨more, hd, rfl⟩ := h'
  exact ⟨front ++ more, by rw [hc, hd, List.append_assoc], (past_append ..).symm⟩

theorem Reaches.length_le (h : c.Reaches d) : d.rest.length ≤ c.rest.length := by
  obtain ⟨front, hc, -⟩ := h
  simp [hc]

/-- The characters in between tell where a cursor stands. -/
theorem Reaches.eq_past (h : c.Reaches d) (hcs : cs ++ d.rest = c.rest) : d = c.past cs := by
  obtain ⟨front, hc, hd⟩ := h
  rw [hd, List.append_cancel_right (hcs.trans hc)]

theorem rest_pass (h : c.rest = x :: cs) : (c.pass x).rest = cs := by rw [pass, h, List.tail_cons]

theorem slice_past (cs ds : List Char) (h : c.rest = cs ++ ds) : c.slice (c.past cs) = cs := by
  induction cs generalizing c with
  | nil =>
    rw [past_nil, slice, Nat.sub_self]
    cases c.rest <;> rfl
  | cons x cs ih =>
    have hle := position_le_past (c.pass x) cs
    have hpos := x.utf8Size_pos
    have hpass : (c.pass x).position = c.position + x.utf8Size := rfl
    have hne : ((c.pass x).past cs).position - c.position ≠ 0 := by omega
    have hrest : (c.pass x).rest = cs ++ ds := rest_pass h
    have hsub : ((c.pass x).past cs).position - c.position - x.utf8Size =
        ((c.pass x).past cs).position - (c.pass x).position := by omega
    rw [past_cons, slice, h, List.cons_append, takeBytes, if_neg hne, hsub, ← hrest]
    exact congrArg (x :: ·) (ih hrest)

/-- Rewinding undoes whatever has been passed since the mark. -/
theorem Reaches.rewind_mark (h : c.Reaches d) : d.rewind c.mark = c := by
  obtain ⟨front, -, rfl⟩ := h
  rw [rewind, origin_past]
  rfl

theorem peek_of_cons (h : c.rest = x :: cs) : c.peek = some x := by rw [peek, h, List.head?_cons]

theorem advance_of_cons (h : c.rest = x :: cs) : c.advance = (some x, c.pass x) := by rw [advance, h]

theorem advance_of_nil (h : c.rest = []) : c.advance = (none, c) := by rw [advance, h]

theorem rest_of_advance (h : c.advance = (some x, d)) : c.rest = x :: d.rest := by
  unfold advance at h
  split at h
  · cases h
  · next hc =>
    cases h
    rw [hc, rest_pass hc]

theorem reaches_advance (c : Cursor) : c.Reaches c.advance.2 := by
  cases hc : c.rest with
  | nil => simp [advance_of_nil hc]
  | cons x cs =>
    rw [advance_of_cons hc]
    exact reaches_past [x] cs hc

theorem reaches_of_advance {o : Option Char} (h : c.advance = (o, d)) : c.Reaches d := by
  have hreach := reaches_advance c
  rwa [h] at hreach

theorem length_of_advance (h : c.advance = (some x, d)) : d.rest.length < c.rest.length := by
  simp [rest_of_advance h]

theorem length_advance (h : c.peek = some x) : c.advance.2.rest.length < c.rest.length := by
  obtain ⟨cs, hc⟩ := List.head?_eq_some_iff.mp h
  have hadvance := advance_of_cons hc
  rw [hadvance]
  exact length_of_advance hadvance

end Reaches

/-- Passes characters as long as they pass the test. -/
def advanceWhile (p : Char → Bool) (c : Cursor) : Cursor :=
  match _h : c.peek with
  | some x => if p x then advanceWhile p c.advance.2 else c
  | none => c
termination_by c.rest.length
decreasing_by exact length_advance _h

theorem reaches_advanceWhile (p : Char → Bool) (c : Cursor) : c.Reaches (c.advanceWhile p) := by
  fun_induction advanceWhile p c with
  | case1 c x _ _ ih => exact (reaches_advance c).trans ih
  | case2 => exact .refl _
  | case3 => exact .refl _

theorem length_advanceWhile {p : Char → Bool} {c : Cursor} {x : Char} (h : c.peek = some x) (hx : p x = true) :
    (c.advanceWhile p).rest.length < c.rest.length := by
  rw [advanceWhile]
  split
  · next y hy =>
    cases h.symm.trans hy
    rw [if_pos hx]
    exact Nat.lt_of_le_of_lt (reaches_advanceWhile p _).length_le (length_advance h)
  · next hnone => cases h.symm.trans hnone

end Cursor

end Stylebook.Lexer
