import Stylebook.Text.Printable

/-! Text between quotes, in which what cannot be shown is escaped. -/
namespace Stylebook.Text

/-- A character inside the quote `quote`. The other kind of quote needs no escape. -/
def escapeIn (quote : Char) (c : Char) : List Char :=
  if c = '\x00' then ['\\', '0']
  else if c = '\t' then ['\\', 't']
  else if c = '\r' then ['\\', 'r']
  else if c = '\n' then ['\\', 'n']
  else if c = '\\' ∨ c = quote then ['\\', c]
  else if isPrintable c then [c]
  else ['\\', 'u', '\x7b'] ++ Nat.toDigits 16 c.toNat ++ ['\x7d']

def quotedString (s : String) : String :=
  String.ofList ('"' :: s.toList.flatMap (escapeIn '"') ++ ['"'])

def quotedChar (c : Char) : String := String.ofList ('\'' :: escapeIn '\'' c ++ ['\''])

end Stylebook.Text
