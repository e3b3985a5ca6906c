import Stylebook.Number.Shortest
import Stylebook.Text.Quoted

/-! The words of stylesheet text. -/
namespace Stylebook

inductive Token
  | ident (name : String)
  /-- A name directly followed by an opening parenthesis, which belongs to the token. -/
  | function (name : String)
  | atKeyword (name : String)
  /-- A name behind `#`; `isId` when the name could also stand alone. -/
  | hash (name : String) (isId : Bool)
  /-- The text between the quotes, escapes resolved. -/
  | string (value : String)
  /-- The text between the parentheses of an unquoted `url(…)`, escapes resolved. -/
  | url (value : String)
  | number (value : Binary64)
  | percentage (value : Binary64)
  | dimension (value : Binary64) (unit : String)
  /-- A run of blanks, with the comments inside it. -/
  | whitespace
  | colon
  | semicolon
  | comma
  | leftBracket
  | rightBracket
  | leftParen
  | rightParen
  | leftBrace
  | rightBrace
  /-- Any other character. -/
  | delim (c : Char)
  | eof
  deriving DecidableEq

namespace Token

instance : Inhabited Token := ⟨eof⟩

/-- Numbers inside a shown token always have a point or an exponent. -/
def numberLayout : Layout :=
  { tie := .up, least := some (-4), most := some 15, pointZero := true, plusSign := false }

/-- A token as a message shows it. -/
def shown : Token → String
  | ident name => s!"Ident({Text.quotedString name})"
  | function name => s!"Function({Text.quotedString name})"
  | atKeyword name => s!"AtKeyword({Text.quotedString name})"
  | hash name true => s!"Hash({Text.quotedString name}, Id)"
  | hash name false => s!"Hash({Text.quotedString name}, Unrestricted)"
  | string value => s!"String({Text.quotedString value})"
  | url value => s!"Url({Text.quotedString value})"
  | number value => s!"Number({numberLayout.render value})"
  | percentage value => s!"Percentage({numberLayout.render value})"
  | dimension value unit => s!"Dimension({numberLayout.render value}, {Text.quotedString unit})"
  | whitespace => "Whitespace"
  | colon => "Colon"
  | semicolon => "Semicolon"
  | comma => "Comma"
  | leftBracket => "LeftBracket"
  | rightBracket => "RightBracket"
  | leftParen => "LeftParen"
  | rightParen => "RightParen"
  | leftBrace => "LeftBrace"
  | rightBrace => "RightBrace"
  | delim c => s!"Delim({Text.quotedChar c})"
  | eof => "Eof"

/-- The token that a character forms by itself, whatever follows. -/
def punctuation? : Char → Option Token
  | ':' => some colon
  | ';' => some semicolon
  | ',' => some comma
  | '[' => some leftBracket
  | ']' => some rightBracket
  | '(' => some leftParen
  | ')' => some rightParen
  | '{' => some leftBrace
  | '}' => some rightBrace
  | _ => none

end Token

end Stylebook
