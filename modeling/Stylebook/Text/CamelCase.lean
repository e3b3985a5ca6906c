import Stylebook.Text.Upper

/-! Dashed names written as one word with inner capitals. -/
namespace Stylebook.Text

/-- The segments between dashes; there is always at least one. -/
def segments : List Char → List (List Char)
  | [] => [[]]
  | c :: rest =>
    if c = '-' then [] :: segments rest
    else match segments rest with
      | [] => [[c]]
      | s :: ss => (c :: s) :: ss

/-- The first segment as it is, each further one with a capital: `font-size` becomes `fontSize`. -/
def camelCase (name : String) : String :=
  match segments name.toList with
  | [] => ""
  | first :: rest => String.ofList (first ++ rest.flatMap capitalize)

end Stylebook.Text
