import Mathlib.Data.List.DropRight
import Stylebook.Proofs.LexerTiling

/-! Places counted afresh. However far a text has been read, over tokens and faults alike, the place that was
counted along the way is the one that a count of all characters in front of it gives. -/
namespace Stylebook

namespace Location

/-- The place behind some characters that begin at `origin`, counted afresh. The column of the origin counts in
its own line only. -/
def recount (origin : Location) (cs : List Char) : Location where
  line := origin.line + cs.count '\n'
  column := if '\n' ∈ cs then 1 + (cs.rtakeWhile (· ≠ '\n')).length else origin.column + cs.length
  offset := origin.offset + (String.ofList cs).utf8ByteSize

section Recount
variable (origin : Location) (cs : List Char)

@[simp] lemma recount_nil : origin.recount [] = origin := by simp [recount]

/-- One character more moves the place by one step. -/
lemma recount_concat (c : Char) : origin.recount (cs ++ [c]) = (origin.recount cs).step c := by
  have hsize : (String.ofList (cs ++ [c])).utf8ByteSize = (String.ofList cs).utf8ByteSize + c.utf8Size := by
    rw [String.ofList_append, String.utf8ByteSize_append, ← String.singleton_eq_ofList,
      String.utf8ByteSize_singleton]
  unfold recount step
  rw [hsize, List.count_append, List.rtakeWhile_concat]
  by_cases hc : c = '\n'
  · simp [hc, Nat.add_assoc]
  · by_cases hmem : '\n' ∈ cs <;> simp [hc, hmem, Ne.symm hc, Nat.add_assoc]

lemma past_eq_recount : origin.past cs = origin.recount cs := by
  induction cs using List.reverseRecOn with
  | nil => simp
  | append_singleton cs c ih =>
    rw [past_append, ih, recount_concat]
    rfl

/-- Any character moves the place. -/
lemma recount_eq_recount_append_iff (ds : List Char) : origin.recount cs = origin.recount (cs ++ ds) ↔ ds = [] := by
  constructor
  · intro h
    have hoffset : (origin.recount cs).offset = (origin.recount (cs ++ ds)).offset := congrArg offset h
    simp only [recount, String.ofList_append, String.utf8ByteSize_append] at hoffset
    by_contra hne
    have hpos := Lexer.Cursor.utf8ByteSize_pos hne
    omega
  · rintro rfl
    rw [List.append_nil]

end Recount

end Location

/-- The place behind a token or behind what a fault has taken. -/
def Reading.after : Reading → Location
  | lexeme l => l.after
  | fault _ after => after

namespace Lexer

namespace Cursor
variable {c d : Cursor}

lemma position_past (c : Cursor) (cs : List Char) :
    (c.past cs).position = c.position + (String.ofList cs).utf8ByteSize := by
  have hoffset := congrArg Location.offset (c.place_past cs)
  rw [Location.offset_past] at hoffset
  simp only [place, origin_past] at hoffset
  omega

/-- What has been passed since the origin is what is counted. -/
lemma Reaches.counted {origin : Location} {cs : List Char} (h : (withOrigin origin cs).Reaches c) :
    ∃ front, cs = front ++ c.rest ∧ c.position = (String.ofList front).utf8ByteSize ∧
      c.place = origin.recount front := by
  obtain ⟨front, hcs, hc⟩ := h
  refine ⟨front, hcs, ?_, ?_⟩
  · rw [hc, position_past]
    exact Nat.zero_add _
  · rw [hc, place_past, Location.past_eq_recount, place_withOrigin]

/-- A call leaves off behind what it has read. -/
lemma next_fst_after (c : Cursor) : c.next.1.after = c.next.2.place := by
  rw [next_eq]
  cases step c.rest <;> simp [report, Reading.after, Lexeme.after, Lexeme.start, place_past]

lemma getElem?_readings {n : ℕ} {r : Reading} (h : c.readings[n]? = some r) : r = (c.after n).next.1 := by
  obtain ⟨m, -, -, -, hread⟩ := c.exists_end
  rw [hread, List.getElem?_map, Option.map_eq_some_iff] at h
  obtain ⟨i, hi, rfl⟩ := h
  obtain ⟨hlt, rfl⟩ := List.getElem?_eq_some_iff.mp hi
  rw [List.getElem_range]

end Cursor

/-- After any number of calls, whatever they gave and also when the end was read long ago, the position counts the
bytes of the characters in front of what is left, and the place is the one counted afresh from the origin over these
characters. The readings of the text are what these calls give, each with the place at which the next call begins. -/
theorem places_eq_recount (origin : Location) (text : String) :
    let c := Cursor.withOrigin origin text.toList
    (∀ n, ∃ front, text.toList = front ++ (c.after n).rest ∧
      (c.after n).position = (String.ofList front).utf8ByteSize ∧ (c.after n).place = origin.recount front) ∧
    ∀ n r, (readings origin text.toList)[n]? = some r →
      r = (c.after n).next.1 ∧ r.after = (c.after (n + 1)).place := by
  intro c
  constructor
  · intro n
    exact (c.reaches_after n).counted
  · intro n r hr
    have hread : r = (c.after n).next.1 := Cursor.getElem?_readings hr
    refine ⟨hread, ?_⟩
    rw [hread, Cursor.next_fst_after, Cursor.after_succ]

/-- Looking for a quote behind the line feed does not move the place of what is read as a function. -/
example :
    let c := Cursor.withOrigin ⟨4, 7, 30⟩ "url(\n'é')".toList
    (c.after 1).place = ⟨4, 11, 34⟩ ∧ (c.after 2).place = ⟨5, 1, 35⟩ ∧ (c.after 3).place = ⟨5, 4, 39⟩ := by
  decide +kernel

end Lexer

end Stylebook
