import Stylebook.Lexeme

/-! Source text put together again from its tokens, with comments left out. -/
namespace Stylebook

/-- The text so far, and whether a space is due in front of the next token. -/
structure RawText where
  text : List Char
  pending : Bool

namespace RawText

def empty : RawText := ⟨[], false⟩

/-- Blanks and comments between two tokens become one space; at either end they are dropped. -/
def push (r : RawText) (l : Lexeme) : RawText :=
  if l.token = .whitespace then { r with pending := true }
  else
    let spaced := (r.pending || !l.gap.isEmpty) && !r.text.isEmpty
    ⟨r.text ++ (if spaced then [' '] else []) ++ l.text, false⟩

/-- Source that gave no token separates like a blank. -/
def skip (r : RawText) : RawText := { r with pending := true }

def ofLexemes (ls : List Lexeme) : RawText := ls.foldl push empty

/-- The text of a run of readings, without its end. -/
def ofReadings (rs : List Reading) : RawText :=
  rs.foldl (fun r reading =>
    match reading with
    | .lexeme l => if l.token = .eof then r else r.push l
    | .fault _ _ => r.skip) empty

def toString (r : RawText) : String := String.ofList r.text

end RawText

end Stylebook
