/-! Places in a text, counted along with the characters that are read. -/
namespace Stylebook

/-- Line and column count from one, the column in characters; the offset counts bytes of UTF-8. -/
structure Location where
  line : Nat
  column : Nat
  offset : Nat
  deriving DecidableEq

namespace Location

/-- The place of the first character of a text. -/
def start : Location := ⟨1, 1, 0⟩

instance : Inhabited Location := ⟨start⟩

/-- The place behind a character. Only a line feed ends a line. -/
def step (p : Location) (c : Char) : Location :=
  if c = '\n' then ⟨p.line + 1, 1, p.offset + c.utf8Size⟩
  else ⟨p.line, p.column + 1, p.offset + c.utf8Size⟩

/-- The place behind a piece of text. -/
def past (p : Location) (cs : List Char) : Location := cs.foldl step p

@[simp] theorem past_nil (p : Location) : p.past [] = p := rfl

@[simp] theorem past_cons (p : Location) (c : Char) (cs : List Char) :
    p.past (c :: cs) = (p.step c).past cs := rfl

@[simp] theorem past_append (p : Location) (cs ds : List Char) :
    p.past (cs ++ ds) = (p.past cs).past ds := by
  simp [past]

/-- The place as it is handed out, in words of 64 bits. -/
def word (p : Location) : Location :=
  ⟨p.line % UInt64.size, p.column % UInt64.size, p.offset % UInt64.size⟩

theorem word_step (p : Location) (c : Char) : (p.word.step c).word = (p.step c).word := by
  unfold step
  split <;> simp only [word, Nat.mod_add_mod, Nat.mod_mod]

/-- Words that wrap around at each step come to the same place as unbounded counts. -/
theorem word_past (p : Location) (cs : List Char) : (p.word.past cs).word = (p.past cs).word := by
  induction cs generalizing p with
  | nil => simp only [past_nil, word, Nat.mod_mod]
  | cons c cs ih => rw [past_cons, past_cons, ← ih, word_step, ih]

/-- Line and column, as messages show a place. -/
def text (p : Location) : String := s!"{p.word.line}:{p.word.column}"

end Location

end Stylebook
