import Stylebook.Json

/-! Reading structured text. Nothing but the strict grammar is accepted. -/
namespace Stylebook.Json

def isBlank (c : Char) : Bool := c = ' ' || c = '\n' || c = '\t' || c = '\r'

def skipBlank (cs : List Char) : List Char := cs.dropWhile isBlank

def isHexDigit (c : Char) : Bool :=
  c.isDigit || ('a' ≤ c && c ≤ 'f') || ('A' ≤ c && c ≤ 'F')

def hexValue (c : Char) : Nat :=
  if c.isDigit then c.toNat - '0'.toNat
  else if 'a' ≤ c then c.toNat - 'a'.toNat + 10
  else c.toNat - 'A'.toNat + 10

/-- Where one is inside a string: between characters, behind a backslash, or with that many hexadecimal
digits still to come. -/
inductive Inside
  | plain
  | escape
  | hex (more : Nat)

/-- The characters up to the closing quote, and what follows it. -/
def stringBody : Inside → List Char → Option (List Char × List Char)
  | _, [] => none
  | .plain, c :: cs =>
    if c = '"' then some ([], cs)
    else if c.toNat < 32 then none
    else (stringBody (if c = '\\' then .escape else .plain) cs).map fun (s, rest) => (c :: s, rest)
  | .escape, c :: cs =>
    if c = 'u' then (stringBody (.hex 3) cs).map fun (s, rest) => (c :: s, rest)
    else if ['"', '\\', '/', 'b', 'f', 'n', 'r', 't'].contains c then
      (stringBody .plain cs).map fun (s, rest) => (c :: s, rest)
    else none
  | .hex more, c :: cs =>
    if isHexDigit c then
      (stringBody (if more = 0 then .plain else .hex (more - 1)) cs).map fun (s, rest) => (c :: s, rest)
    else none

/-- A character of a string, or a sixteen-bit code from an escape. -/
inductive Piece
  | char (c : Char)
  | code (n : Nat)

def escaped (c : Char) : Char :=
  if c = 'b' then '\x08'
  else if c = 'f' then '\x0c'
  else if c = 'n' then '\n'
  else if c = 'r' then '\r'
  else if c = 't' then '\t'
  else c

def pieces : List Char → List Piece
  | '\\' :: 'u' :: a :: b :: c :: d :: cs =>
    .code (4096 * hexValue a + 256 * hexValue b + 16 * hexValue c + hexValue d) :: pieces cs
  | '\\' :: c :: cs => .char (escaped c) :: pieces cs
  | c :: cs => .char c :: pieces cs
  | [] => []

def isHighHalf (n : Nat) : Bool := 0xD800 ≤ n && n < 0xDC00

def isLowHalf (n : Nat) : Bool := 0xDC00 ≤ n && n < 0xE000

/-- Puts two halves of a character together; a half alone is no character. -/
def characters : List Piece → Option (List Char)
  | [] => some []
  | .char c :: ps => (characters ps).map (c :: ·)
  | .code n :: ps =>
    if isHighHalf n then
      match ps with
      | .code m :: ps =>
        if isLowHalf m then
          (characters ps).map (Char.ofNat (0x10000 + 1024 * (n - 0xD800) + (m - 0xDC00)) :: ·)
        else none
      | _ => none
    else if isLowHalf n then none
    else (characters ps).map (Char.ofNat n :: ·)

/-- The text that a string stands for, unless it has half a character. -/
def unescape? (written : String) : Option String :=
  (characters (pieces written.toList)).map String.ofList

/-- Takes digits, at least one. -/
def digits (cs : List Char) : Option (List Char × List Char) :=
  let ds := cs.takeWhile Char.isDigit
  if ds.isEmpty then none else some (ds, cs.dropWhile Char.isDigit)

/-- The digits before the point: no zero leads others. -/
def whole : List Char → Option (List Char × List Char)
  | [] => none
  | c :: cs => if c = '0' then some ([c], cs) else digits (c :: cs)

/-- The digits behind the point, if there is one. -/
def fraction : List Char → Option (List Char × List Char)
  | [] => some ([], [])
  | c :: cs => if c = '.' then (digits cs).map fun (ds, rest) => (c :: ds, rest) else some ([], c :: cs)

def signed : List Char → List Char × List Char
  | [] => ([], [])
  | c :: cs => if c = '+' || c = '-' then ([c], cs) else ([], c :: cs)

def exponent : List Char → Option (List Char × List Char)
  | [] => some ([], [])
  | c :: cs =>
    if c = 'e' || c = 'E' then
      let (sign, cs) := signed cs
      (digits cs).map fun (ds, rest) => (c :: sign ++ ds, rest)
    else some ([], c :: cs)

def minus : List Char → List Char × List Char
  | [] => ([], [])
  | c :: cs => if c = '-' then ([c], cs) else ([], c :: cs)

def numeral (cs : List Char) : Option (Json × List Char) := do
  let (sign, cs) := minus cs
  let (a, cs) ← whole cs
  let (b, cs) ← fraction cs
  let (c, cs) ← exponent cs
  return (number (String.ofList (sign ++ a ++ b ++ c)), cs)

def literal (word : List Char) (j : Json) (cs : List Char) : Option (Json × List Char) :=
  if cs.take word.length = word then some (j, cs.drop word.length) else none

mutual

/-- A value at the front of a text. The first argument bounds the calls. -/
def value : Nat → List Char → Option (Json × List Char)
  | 0, _ => none
  | k + 1, cs =>
    match skipBlank cs with
    | [] => none
    | c :: rest =>
      if c = '"' then (stringBody .plain rest).map fun (s, rest) => (string (String.ofList s), rest)
      else if c = '[' then
        match skipBlank rest with
        | ']' :: rest => some (array [], rest)
        | rest => (items k rest).map fun (js, rest) => (array js, rest)
      else if c = '\x7b' then
        match skipBlank rest with
        | '\x7d' :: rest => some (object [], rest)
        | rest => (fields k rest).map fun (fs, rest) => (object fs, rest)
      else if c = 'n' then literal ['n', 'u', 'l', 'l'] null (c :: rest)
      else if c = 't' then literal ['t', 'r', 'u', 'e'] (bool true) (c :: rest)
      else if c = 'f' then literal ['f', 'a', 'l', 's', 'e'] (bool false) (c :: rest)
      else numeral (c :: rest)

/-- One or more values divided by commas, up to a closing bracket. -/
def items : Nat → List Char → Option (List Json × List Char)
  | 0, _ => none
  | k + 1, cs => do
    let (j, cs) ← value k cs
    match skipBlank cs with
    | ',' :: cs =>
      let (js, cs) ← items k cs
      return (j :: js, cs)
    | ']' :: cs => return ([j], cs)
    | _ => none

/-- One or more fields divided by commas, up to a closing brace. -/
def fields : Nat → List Char → Option (List (String × Json) × List Char)
  | 0, _ => none
  | k + 1, cs => do
    match skipBlank cs with
    | '"' :: cs =>
      let (key, cs) ← stringBody .plain cs
      match skipBlank cs with
      | ':' :: cs =>
        let (j, cs) ← value k cs
        match skipBlank cs with
        | ',' :: cs =>
          let (fs, cs) ← fields k cs
          return ((String.ofList key, j) :: fs, cs)
        | '\x7d' :: cs => return ([(String.ofList key, j)], cs)
        | _ => none
      | _ => none
    | _ => none

end

/-- The value that a text holds, with nothing but blanks around it. Two calls go with each character at
most, one of them for a value inside another. -/
def parse? (text : String) : Option Json :=
  let cs := text.toList
  match value (2 * cs.length + 1) cs with
  | some (j, rest) => if (skipBlank rest).isEmpty then some j else none
  | none => none

end Stylebook.Json
