import Stylebook.Ordered
import Stylebook.Term
import Stylebook.Text.CamelCase

/-! Identifiers by which a program can refer to the classes of a stylesheet. -/
namespace Stylebook.ClassNames

def isIdentifierChar (c : Char) : Bool := c.isAlphanum || c = '_'

/-- The name in camel case, with an underscore for each character that an identifier cannot hold. -/
def stem (name : String) : List Char :=
  (Text.camelCase name).toList.map fun c => if isIdentifierChar c then c else '_'

/-- The stem behind the letters that all identifiers start with, its own first letter then a capital. -/
def withPrefix (classPrefix : Option String) (stem : List Char) : List Char :=
  match classPrefix with
  | none => stem
  | some letters =>
    if letters.isEmpty then stem
    else letters.toList ++ match stem with
      | [] => []
      | c :: cs => c.toUpper :: cs

/-- An underscore stands before what is empty or starts with a digit. -/
def guard (cs : List Char) : List Char :=
  match cs with
  | [] => ['_']
  | c :: _ => if c.isDigit then '_' :: cs else cs

/-- The identifier that a class would have alone. -/
def identifier (classPrefix : Option String) (name : String) : String :=
  String.ofList (guard (withPrefix classPrefix (stem name)))

/-- The first of `base`, `base2`, `base3`, … that is not taken, trying `tries` of them from `n` on. -/
def firstFree (taken : List String) (base : String) : Nat → Nat → String
  | 0, n => s!"{base}{n}"
  | tries + 1, n =>
    let candidate := s!"{base}{n}"
    if taken.contains candidate then firstFree taken base tries (n + 1) else candidate

/-- An identifier that is not taken. One of as many as are taken, and one more, is free. -/
def free (taken : List String) (base : String) : String :=
  if taken.contains base then firstFree taken base taken.length 2 else base

/-- Gives each class, in turn, an identifier that those before it do not have. -/
def assign (classPrefix : Option String) (taken : List String) : List String → List (String × String)
  | [] => []
  | name :: names =>
    let chosen := free taken (identifier classPrefix name)
    (name, chosen) :: assign classPrefix (chosen :: taken) names

/-- Classes in increasing order with their identifiers. -/
def ofClasses (classPrefix : Option String) (names : List String) : List (String × String) :=
  assign classPrefix [] (Ordered.ofList Ordered.word names)

/-- The classes that the selectors mention. -/
def ofTerms (classPrefix : Option String) (terms : List Term) : List (String × String) :=
  ofClasses classPrefix (terms.flatMap Term.allClasses)

end Stylebook.ClassNames
