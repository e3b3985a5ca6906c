/-! White space in the sense of the Unicode property `White_Space`, and cutting text at it. -/
namespace Stylebook.Text

/-- The characters with the property `White_Space`. -/
def isBlank (c : Char) : Bool :=
  let n := c.toNat
  (0x9 ≤ n && n ≤ 0xd) || n == 0x20 || n == 0x85 || n == 0xa0 || n == 0x1680 ||
    (0x2000 ≤ n && n ≤ 0x200a) || n == 0x2028 || n == 0x2029 || n == 0x202f || n == 0x205f || n == 0x3000

/-- The text without blanks at either end. -/
def trim (cs : List Char) : List Char :=
  ((cs.dropWhile isBlank).reverse.dropWhile isBlank).reverse

def trimString (s : String) : String := String.ofList (trim s.toList)

/-- The text without any blanks. -/
def squeeze (cs : List Char) : List Char := cs.filter (!isBlank ·)

/-- The runs of other characters between the blanks, the word read so far in front. -/
def wordsFrom : List Char → List Char → List (List Char)
  | [], [] => []
  | word, [] => [word]
  | word, c :: rest =>
    if isBlank c then
      if word.isEmpty then wordsFrom [] rest else word :: wordsFrom [] rest
    else wordsFrom (word ++ [c]) rest

/-- The words of a text: its maximal runs without blanks. -/
def words (s : String) : List String := (wordsFrom [] s.toList).map String.ofList

end Stylebook.Text
