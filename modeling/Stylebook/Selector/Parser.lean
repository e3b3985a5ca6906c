import Stylebook.Feed
import Stylebook.RawText
import Stylebook.Selector

/-! Reading selector lists. A fault is reported behind the token in view. -/
namespace Stylebook

/-- A step that succeeded did so at every stage. -/
theorem of_bind_eq_ok {ε α β : Type} {x : Except ε α} {f : α → Except ε β} {b : β}
    (h : (x >>= f) = .ok b) : ∃ a, x = .ok a ∧ f a = .ok b := by
  cases x with
  | error e => cases h
  | ok a => exact ⟨a, rfl, h⟩

/-- The depth of parentheses behind a token. -/
def Token.nest (depth : Nat) : Token → Nat
  | leftParen => depth + 1
  | function _ => depth + 1
  | rightParen => depth - 1
  | _ => depth

namespace Selector

def refuse (f : Feed) (text : String) : Fault := ⟨.invalidSelector text, f.current.after⟩

/-- The lexemes of an argument up to the parenthesis that closes it. -/
def arguments (depth : Nat) (f : Feed) : Except Fault (List Lexeme × Feed) :=
  if _he : f.token = .eof then .error ⟨.unexpectedEnd, f.current.after⟩
  else match _h : f.advance with
    | .error fault => .error fault
    | .ok g =>
      if f.token = .rightParen ∧ depth = 0 then .ok ([], g)
      else do
        let (ls, rest) ← arguments (f.token.nest depth) g
        return (f.current :: ls, rest)
termination_by f.size
decreasing_by exact Feed.size_advance_lt _h _he

theorem arguments_size {depth : Nat} {f g : Feed} {ls : List Lexeme}
    (h : arguments depth f = .ok (ls, g)) : g.size < f.size := by
  fun_induction arguments depth f generalizing ls with
  | case1 => cases h
  | case2 => cases h
  | case3 depth f he g' ha _ => cases h; exact Feed.size_advance_lt ha he
  | case4 depth f he g' ha _ ih =>
    obtain ⟨⟨ls', g''⟩, hr, hk⟩ := of_bind_eq_ok h
    cases hk
    exact Nat.lt_trans (ih hr) (Feed.size_advance_lt ha he)

/-- The text of a function's argument, once the function's name has been passed. -/
def argumentText (f : Feed) : Except Fault (String × Feed) := do
  let (ls, rest) ← arguments 0 f
  return ((RawText.ofLexemes ls).toString, rest)

/-- The comparison inside an attribute selector, if one follows the name. -/
def attributeTest (name : String) (f : Feed) : Except Fault (Option AttributeTest × Feed) :=
  match f.token with
  | .delim c =>
    if c = '=' then do return (some .equals, ← f.advance)
    else match AttributeTest.ofChar? c with
      | none => .error (refuse f s!"[{name}{c}")
      | some test => do
        let g ← f.advance
        let h ← g.advance
        if g.token = .delim '=' then return (some test, h) else throw (refuse h s!"[{name}{c}")
  | _ => .ok (none, f)

/-- The value inside an attribute selector. Numbers keep their spelling. -/
def attributeValue (name : String) (f : Feed) : Except Fault (String × Feed) := do
  let g ← f.advance
  match f.token with
  | .ident value => return (value, g)
  | .string value => return (value, g)
  | .number _ | .percentage _ | .dimension _ _ => return (String.ofList f.current.text, g)
  | _ => throw (refuse g s!"[{name}=")

/-- The closing bracket of an attribute selector. -/
def closeAttribute (name : String) (f : Feed) : Except Fault Feed := do
  let g ← f.skipBlank
  let h ← g.advance
  if g.token = .rightBracket then return h else throw (refuse h s!"[{name}")

/-- An attribute selector behind its opening bracket, with its weight. -/
def attributePart (f : Feed) : Except Fault ((Part × Specificity) × Feed) := do
  let f ← f.skipBlank
  let g ← f.advance
  match f.token with
  | .ident name =>
    let g ← g.skipBlank
    match ← attributeTest name g with
    | (none, g) => return ((.attr name none, ⟨0, 1, 0⟩), ← closeAttribute name g)
    | (some test, g) =>
      let (value, g) ← attributeValue name (← g.skipBlank)
      return ((.attr name (some (test, value)), ⟨0, 1, 0⟩), ← closeAttribute name g)
  | _ => throw (refuse g "[")

/-- Names that mean a pseudo-element even behind a single colon. -/
def singleColonElements : List String := ["before", "after", "first-line", "first-letter"]

def lowercase (s : String) : String := String.ofList (s.toList.map Char.toLower)

/-- A pseudo-class or pseudo-element by its name, with its weight. The argument of an element is dropped. -/
def pseudoNamed (element : Bool) (name : String) (argument : Option String) : Part × Specificity :=
  if element || singleColonElements.contains name then (.pseudoElement name, ⟨0, 0, 1⟩)
  else (.pseudoClass name argument, ⟨0, 1, 0⟩)

/-- A pseudo-class or pseudo-element behind its colons. -/
def pseudoName (element : Bool) (f : Feed) : Except Fault ((Part × Specificity) × Feed) := do
  let g ← f.advance
  match f.token with
  | .ident name => return (pseudoNamed element (lowercase name) none, g)
  | .function name =>
    let (argument, h) ← argumentText g
    return (pseudoNamed element (lowercase name) (some argument), h)
  | _ => throw (refuse g ":")

/-- A pseudo-class or pseudo-element behind its first colon. -/
def pseudo (f : Feed) : Except Fault ((Part × Specificity) × Feed) :=
  if f.token = .colon then do pseudoName true (← f.advance) else pseudoName false f

/-- The class behind a full stop, with its weight. -/
def classPart (f : Feed) : Except Fault ((Part × Specificity) × Feed) := do
  let g ← f.advance
  match f.token with
  | .ident name => return ((.className name, ⟨0, 1, 0⟩), g)
  | _ => throw (refuse g ".")

/-- The simple selector in view with its weight, or `none` if the token cannot begin one. -/
def simple? (f : Feed) : Except Fault (Option ((Part × Specificity) × Feed)) :=
  match f.token with
  | .ident name => do return some ((.typeName name, ⟨0, 0, 1⟩), ← f.advance)
  | .hash name _ => do return some ((.id name, ⟨1, 0, 0⟩), ← f.advance)
  | .leftBracket => do return some (← attributePart (← f.advance))
  | .colon => do return some (← pseudo (← f.advance))
  | .delim c =>
    if c = '*' then do return some ((.universal, .zero), ← f.advance)
    else if c = '.' then do return some (← classPart (← f.advance))
    else .ok none
  | _ => .ok none

theorem attributeTest_size {name : String} {f g : Feed} {t : Option AttributeTest}
    (h : attributeTest name f = .ok (t, g)) : g.size ≤ f.size := by
  unfold attributeTest at h
  split at h
  · split at h
    · obtain ⟨g', ha, hk⟩ := of_bind_eq_ok h
      cases hk
      exact Feed.size_advance_le ha
    · split at h
      · cases h
      · obtain ⟨g₁, h₁, h⟩ := of_bind_eq_ok h
        obtain ⟨g₂, h₂, h⟩ := of_bind_eq_ok h
        split at h
        · cases h
          exact Nat.le_trans (Feed.size_advance_le h₂) (Feed.size_advance_le h₁)
        · cases h
  · cases h
    exact Nat.le_refl _

theorem attributeValue_size {name v : String} {f g : Feed}
    (h : attributeValue name f = .ok (v, g)) : g.size ≤ f.size := by
  obtain ⟨g₁, h₁, h⟩ := of_bind_eq_ok h
  split at h <;> cases h <;> exact Feed.size_advance_le h₁

theorem closeAttribute_size {name : String} {f g : Feed}
    (h : closeAttribute name f = .ok g) : g.size ≤ f.size := by
  obtain ⟨g₁, h₁, h⟩ := of_bind_eq_ok h
  obtain ⟨g₂, h₂, h⟩ := of_bind_eq_ok h
  split at h
  · cases h
    exact Nat.le_trans (Feed.size_advance_le h₂) (Feed.size_skipBlank_le h₁)
  · cases h

theorem attributePart_size {f g : Feed} {p : Part × Specificity} (h : attributePart f = .ok (p, g)) : g.size ≤ f.size := by
  obtain ⟨g₁, h₁, h⟩ := of_bind_eq_ok h
  obtain ⟨g₂, h₂, h⟩ := of_bind_eq_ok h
  have s₁ := Feed.size_skipBlank_le h₁
  have s₂ := Feed.size_advance_le h₂
  split at h
  · obtain ⟨g₃, h₃, h⟩ := of_bind_eq_ok h
    obtain ⟨⟨t, g₄⟩, h₄, h⟩ := of_bind_eq_ok h
    have s₃ := Feed.size_skipBlank_le h₃
    have s₄ := attributeTest_size h₄
    cases t with
    | none =>
      obtain ⟨g₅, h₅, h⟩ := of_bind_eq_ok h
      have s₅ := closeAttribute_size h₅
      cases h
      omega
    | some t =>
      obtain ⟨g₅, h₅, h⟩ := of_bind_eq_ok h
      obtain ⟨⟨v, g₆⟩, h₆, h⟩ := of_bind_eq_ok h
      obtain ⟨g₇, h₇, h⟩ := of_bind_eq_ok h
      have s₅ := Feed.size_skipBlank_le h₅
      have s₆ := attributeValue_size h₆
      have s₇ := closeAttribute_size h₇
      cases h
      omega
  · cases h

theorem pseudoName_size {element : Bool} {f g : Feed} {p : Part × Specificity}
    (h : pseudoName element f = .ok (p, g)) : g.size ≤ f.size := by
  obtain ⟨g₁, h₁, h⟩ := of_bind_eq_ok h
  have s₁ := Feed.size_advance_le h₁
  split at h
  · cases h; exact s₁
  · obtain ⟨⟨a, g₂⟩, h₂, h⟩ := of_bind_eq_ok h
    obtain ⟨⟨ls, g₃⟩, h₃, h₂⟩ := of_bind_eq_ok h₂
    have s₃ := arguments_size h₃
    cases h₂; cases h; omega
  · cases h

theorem pseudo_size {f g : Feed} {p : Part × Specificity} (h : pseudo f = .ok (p, g)) : g.size ≤ f.size := by
  unfold pseudo at h
  split at h
  · obtain ⟨g₁, h₁, h⟩ := of_bind_eq_ok h
    exact Nat.le_trans (pseudoName_size h) (Feed.size_advance_le h₁)
  · exact pseudoName_size h

theorem classPart_size {f g : Feed} {p : Part × Specificity} (h : classPart f = .ok (p, g)) : g.size ≤ f.size := by
  obtain ⟨g₁, h₁, h⟩ := of_bind_eq_ok h
  split at h
  · cases h; exact Feed.size_advance_le h₁
  · cases h

/-- Reading a simple selector passes at least one token. -/
theorem simple?_size {f g : Feed} {p : Part × Specificity} (h : simple? f = .ok (some (p, g))) :
    g.size < f.size := by
  have key : ∀ {f₁ : Feed}, f.advance = .ok f₁ → f.token ≠ .eof → f₁.size < f.size :=
    fun ha he => Feed.size_advance_lt ha he
  unfold simple? at h
  split at h
  · next ht =>
    obtain ⟨g₁, h₁, h⟩ := of_bind_eq_ok h
    cases h; exact key h₁ (by simp [ht])
  · next ht =>
    obtain ⟨g₁, h₁, h⟩ := of_bind_eq_ok h
    cases h; exact key h₁ (by simp [ht])
  · next ht =>
    obtain ⟨g₁, h₁, h⟩ := of_bind_eq_ok h
    obtain ⟨⟨q, g₂⟩, h₂, h⟩ := of_bind_eq_ok h
    cases h; exact Nat.lt_of_le_of_lt (attributePart_size h₂) (key h₁ (by simp [ht]))
  · next ht =>
    obtain ⟨g₁, h₁, h⟩ := of_bind_eq_ok h
    obtain ⟨⟨q, g₂⟩, h₂, h⟩ := of_bind_eq_ok h
    cases h; exact Nat.lt_of_le_of_lt (pseudo_size h₂) (key h₁ (by simp [ht]))
  · next ht =>
    split at h
    · obtain ⟨g₁, h₁, h⟩ := of_bind_eq_ok h
      cases h; exact key h₁ (by simp [ht])
    · split at h
      · obtain ⟨g₁, h₁, h⟩ := of_bind_eq_ok h
        obtain ⟨⟨q, g₂⟩, h₂, h⟩ := of_bind_eq_ok h
        cases h; exact Nat.lt_of_le_of_lt (classPart_size h₂) (key h₁ (by simp [ht]))
      · cases h
  · cases h

/-- The simple selectors in view, as many as follow each other. Their weights are added to the weight so far. -/
def simples (weight : Specificity) (f : Feed) : Except Fault (List Part × Specificity × Feed) :=
  match _h : simple? f with
  | .error fault => .error fault
  | .ok none => .ok ([], weight, f)
  | .ok (some ((p, w), g)) => do
    let (ps, sum, rest) ← simples (weight + w) g
    return (p :: ps, sum, rest)
termination_by f.size
decreasing_by exact simple?_size _h

theorem simples_size {weight sum : Specificity} {f g : Feed} {ps : List Part}
    (h : simples weight f = .ok (ps, sum, g)) : g.size ≤ f.size := by
  fun_induction simples weight f generalizing ps with
  | case1 => cases h
  | case2 => cases h; exact Nat.le_refl _
  | case3 weight f p w g' hs ih =>
    obtain ⟨⟨qs, sum', g''⟩, hr, hk⟩ := of_bind_eq_ok h
    cases hk
    exact Nat.le_trans (ih hr) (Nat.le_of_lt (simple?_size hs))

/-- A compound selector: at least one simple selector. -/
def compound (weight : Specificity) (f : Feed) : Except Fault (List Part × Specificity × Feed) :=
  match simple? f with
  | .error fault => .error fault
  | .ok none => .error (refuse f f.token.shown)
  | .ok (some ((p, w), g)) => do
    let (ps, sum, rest) ← simples (weight + w) g
    return (p :: ps, sum, rest)

theorem compound_size {weight sum : Specificity} {f g : Feed} {ps : List Part}
    (h : compound weight f = .ok (ps, sum, g)) : g.size < f.size := by
  unfold compound at h
  split at h
  · cases h
  · cases h
  · next hs =>
    obtain ⟨⟨qs, sum', g''⟩, hr, hk⟩ := of_bind_eq_ok h
    cases hk
    exact Nat.lt_of_le_of_lt (simples_size hr) (simple?_size hs)

def combinator? : Token → Option Combinator
  | .delim '>' => some .child
  | .delim '+' => some .nextSibling
  | .delim '~' => some .subsequentSibling
  | _ => none

/-- Whether a selector ends in front of this token. -/
def endsSelector (t : Token) : Bool := t = .eof || t = .comma

/-- What joins the compound that ends at `f` to the next one, whose first token is then in view;
blanks alone join as a descendant. `none` at the end of the selector. -/
def joint (f : Feed) : Except Fault (Option (List Part) × Feed) := do
  let g ← f.skipBlank
  if endsSelector g.token then return (none, g)
  else match combinator? g.token with
    | some c =>
      let h ← g.advance
      return (some [.combinator c], ← h.skipBlank)
    | none => return (some (if f.token = .whitespace then [.combinator .descendant] else []), g)

theorem joint_size {f g : Feed} {ps : Option (List Part)} (h : joint f = .ok (ps, g)) :
    g.size ≤ f.size := by
  obtain ⟨g₁, h₁, h⟩ := of_bind_eq_ok h
  have s₁ := Feed.size_skipBlank_le h₁
  split at h
  · cases h; exact s₁
  · split at h
    · obtain ⟨g₂, h₂, h⟩ := of_bind_eq_ok h
      obtain ⟨g₃, h₃, h⟩ := of_bind_eq_ok h
      have s₂ := Feed.size_advance_le h₂
      have s₃ := Feed.size_skipBlank_le h₃
      cases h; omega
    · cases h; exact s₁

/-- The parts behind a compound that ends at `f`, the weight with theirs added, where the last compound ends, and
the token that ends the selector. -/
def tail (weight : Specificity) (f : Feed) : Except Fault (List Part × Specificity × Feed × Feed) :=
  match _hj : joint f with
  | .error fault => .error fault
  | .ok (none, g) => .ok ([], weight, f, g)
  | .ok (some lead, g) =>
    match _hc : compound weight g with
    | .error fault => .error fault
    | .ok (ps, sum, h) => do
      let (rest, total, last, next) ← tail sum h
      return (lead ++ ps ++ rest, total, last, next)
termination_by f.size
decreasing_by exact Nat.lt_of_lt_of_le (compound_size _hc) (joint_size _hj)

theorem tail_size {weight total : Specificity} {f last next : Feed} {ps : List Part}
    (h : tail weight f = .ok (ps, total, last, next)) : next.size ≤ f.size := by
  fun_induction tail weight f generalizing ps with
  | case1 => cases h
  | case2 weight f g hj => cases h; exact joint_size hj
  | case3 => cases h
  | case4 weight f lead g hj qs sum g' hc ih =>
    obtain ⟨⟨rs, t, l, n⟩, hr, hk⟩ := of_bind_eq_ok h
    cases hk
    have := ih hr
    have := compound_size hc
    have := joint_size hj
    omega

/-- One selector, up to the comma or end behind it. It is not empty and begins with no combinator. -/
def complex (f : Feed) : Except Fault (Selector × Feed) :=
  if endsSelector f.token then .error (refuse f "")
  else match combinator? f.token with
    | some c => do throw (refuse (← f.advance) c.text)
    | none => do
      let (ps, sum, g) ← compound .zero f
      let (rest, total, last, next) ← tail sum g
      return (⟨ps ++ rest, total, String.ofList (Text.trim (f.slice last))⟩, next)

theorem complex_size {f g : Feed} {s : Selector} (h : complex f = .ok (s, g)) : g.size < f.size := by
  unfold complex at h
  split at h
  · cases h
  · split at h
    · obtain ⟨g₁, h₁, h⟩ := of_bind_eq_ok h
      cases h
    · obtain ⟨⟨ps, sum, g₁⟩, h₁, h⟩ := of_bind_eq_ok h
      obtain ⟨⟨rest, total, last, next⟩, h₂, h⟩ := of_bind_eq_ok h
      cases h
      exact Nat.lt_of_le_of_lt (tail_size h₂) (compound_size h₁)

/-- A list of selectors separated by commas. -/
def list (f : Feed) : Except Fault (List Selector) :=
  match _hb : f.skipBlank with
  | .error fault => .error fault
  | .ok g =>
    match _hc : complex g with
    | .error fault => .error fault
    | .ok (s, next) =>
      if next.token = .comma then
        match _ha : next.advance with
        | .error fault => .error fault
        | .ok after => do return s :: (← list after)
      else .ok [s]
termination_by f.size
decreasing_by
  have := Feed.size_skipBlank_le _hb
  have := complex_size _hc
  have := Feed.size_advance_le _ha
  omega

/-- The selectors of a text that begins at `place` in a larger one. -/
def parseListAt (place : Location) (text : List Char) : Except Fault (List Selector) := do
  list (← Feed.ofText place text)

def parseList (text : String) : Except Fault (List Selector) := parseListAt .start text.toList

/-- A text that holds a single selector. -/
def parse (text : String) : Except Fault Selector := do
  match ← parseList text with
  | [s] => return s
  | _ => throw ⟨.invalidSelector (Text.trimString text), .start⟩

end Selector

end Stylebook
