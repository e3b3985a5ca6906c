import Stylebook.Selector.Parser
import Stylebook.Stylesheet

/-! Reading stylesheets. A fault is reported in front of the token in view, and of the comments
skipped before it. -/
namespace Stylebook.Stylesheet

/-- Something else was expected than the token in view. -/
def expected (what : String) (f : Feed) : Fault :=
  if f.token = .eof then ⟨.unexpectedEnd, f.current.before⟩
  else ⟨.expected what (String.ofList f.current.text), f.current.before⟩

/-- Passes a token that must be in view. -/
def pass (token : Token) (what : String) (f : Feed) : Except Fault Feed :=
  if f.token = token then f.advance else .error (expected what f)

theorem pass_size {token : Token} {what : String} {f g : Feed} (h : pass token what f = .ok g) :
    g.size ≤ f.size := by
  unfold pass at h
  split at h
  · exact Feed.size_advance_le h
  · cases h

/-- The string inside `url(…)`, behind the parenthesis. -/
def quotedTarget (f : Feed) : Except Fault (String × Feed) := do
  let f ← f.skipBlank
  match f.token with
  | .string url =>
    let g ← f.advance
    return (url, ← pass .rightParen "')'" (← g.skipBlank))
  | _ => throw (expected "import target string" f)

/-- What is imported: a string, a url, or a string inside a url. -/
def importTarget (f : Feed) : Except Fault (String × Feed) :=
  match f.token with
  | .string url => do return (url, ← f.advance)
  | .url url => do return (url, ← f.advance)
  | .function name =>
    if Selector.lowercase name = "url" then do quotedTarget (← f.advance)
    else .error (expected "import target" f)
  | _ => .error (expected "import target" f)

/-- An import behind its keyword, which stands at `place`. -/
def importStatement (place : Location) (f : Feed) : Except Fault (Import × Feed) := do
  let (url, g) ← importTarget (← f.skipBlank)
  return (⟨url, place⟩, ← pass .semicolon "';'" (← g.skipBlank))

/-- Passes everything up to and with the next semicolon. -/
def skipStatement (f : Feed) : Except Fault Feed :=
  match _h : f.advance with
  | .error fault => .error fault
  | .ok g =>
    if f.token = .semicolon then .ok g
    else if _he : f.token = .eof then .error ⟨.unexpectedEnd, g.current.before⟩
    else skipStatement g
termination_by f.size
decreasing_by exact Feed.size_advance_lt _h _he

/-- The feed at the brace that opens a rule's block. -/
def prelude (f : Feed) : Except Fault Feed :=
  if f.token = .leftBrace then .ok f
  else if _he : f.token = .eof then .error (expected "'\x7b'" f)
  else if f.token = .rightBrace ∨ f.token = .semicolon then .error (expected "selector" f)
  else match _h : f.advance with
    | .error fault => .error fault
    | .ok g => prelude g
termination_by f.size
decreasing_by exact Feed.size_advance_lt _h _he

/-- Whether a value may end in front of this token. -/
def endsValue (t : Token) : Bool := t = .semicolon || t = .rightBrace

/-- The lexemes of a value, up to what ends it or an exclamation mark outside parentheses. -/
def valueLexemes (depth : Nat) (f : Feed) : Except Fault (List Lexeme × Feed) :=
  if _he : f.token = .eof then .error (expected "';' or '\x7d'" f)
  else if depth = 0 ∧ (endsValue f.token ∨ f.token = .delim '!') then .ok ([], f)
  else if f.token = .leftBrace then .error (expected "value" f)
  else match _h : f.advance with
    | .error fault => .error fault
    | .ok g => do
      let (ls, rest) ← valueLexemes (f.token.nest depth) g
      return (f.current :: ls, rest)
termination_by f.size
decreasing_by exact Feed.size_advance_lt _h _he

/-- A value that is a single string stands for what is between its quotes. -/
def valueText (ls : List Lexeme) : String :=
  match ls.filter (·.token ≠ .whitespace) with
  | [l] =>
    match l.token with
    | .string value => value
    | _ => (RawText.ofLexemes ls).toString
  | _ => (RawText.ofLexemes ls).toString

/-- The mark `!important`, if it follows the value. -/
def importance (f : Feed) : Except Fault (Bool × Feed) :=
  if f.token = .delim '!' then do
    let f ← f.advance
    let f ← f.skipBlank
    match f.token with
    | .ident word =>
      if Selector.lowercase word = "important" then
        let g ← f.advance
        let g ← g.skipBlank
        if endsValue g.token then return (true, g) else throw (expected "';' or '\x7d'" g)
      else throw (expected "'important'" f)
    | _ => throw (expected "'important'" f)
  else .ok (false, f)

/-- The value of a property, which must not be empty, and the semicolon behind it if there is one. -/
def settingValue (property : String) (f : Feed) : Except Fault (Setting × Feed) := do
  let (ls, g) ← valueLexemes 0 f
  let (important, h) ← importance g
  let value := valueText ls
  if value.isEmpty then throw ⟨.emptyValue property, f.current.before⟩
  else if h.token = .semicolon then return (⟨property, value, important⟩, ← h.advance)
  else return (⟨property, value, important⟩, h)

def setting (f : Feed) : Except Fault (Setting × Feed) :=
  match f.token with
  | .ident property => do
    let g ← f.advance
    let g ← pass .colon "':'" (← g.skipBlank)
    settingValue property (← g.skipBlank)
  | _ => .error (expected "property name" f)

theorem valueLexemes_size {depth : Nat} {f g : Feed} {ls : List Lexeme}
    (h : valueLexemes depth f = .ok (ls, g)) : g.size ≤ f.size := by
  fun_induction valueLexemes depth f generalizing ls with
  | case1 => cases h
  | case2 => cases h; exact Nat.le_refl _
  | case3 => cases h
  | case4 => cases h
  | case5 depth f he _ _ g' ha ih =>
    obtain ⟨⟨ls', g''⟩, hr, hk⟩ := of_bind_eq_ok h
    cases hk
    exact Nat.le_trans (ih hr) (Nat.le_of_lt (Feed.size_advance_lt ha he))

theorem importance_size {f g : Feed} {b : Bool} (h : importance f = .ok (b, g)) : g.size ≤ f.size := by
  unfold importance at h
  split at h
  · obtain ⟨g₁, h₁, h⟩ := of_bind_eq_ok h
    obtain ⟨g₂, h₂, h⟩ := of_bind_eq_ok h
    have s₁ := Feed.size_advance_le h₁
    have s₂ := Feed.size_skipBlank_le h₂
    split at h
    · split at h
      · obtain ⟨g₃, h₃, h⟩ := of_bind_eq_ok h
        obtain ⟨g₄, h₄, h⟩ := of_bind_eq_ok h
        have s₃ := Feed.size_advance_le h₃
        have s₄ := Feed.size_skipBlank_le h₄
        split at h
        · cases h; omega
        · cases h
      · cases h
    · cases h
  · cases h; exact Nat.le_refl _

theorem settingValue_size {property : String} {f g : Feed} {s : Setting}
    (h : settingValue property f = .ok (s, g)) : g.size ≤ f.size := by
  obtain ⟨⟨ls, g₁⟩, h₁, h⟩ := of_bind_eq_ok h
  obtain ⟨⟨b, g₂⟩, h₂, h⟩ := of_bind_eq_ok h
  have s₁ := valueLexemes_size h₁
  have s₂ := importance_size h₂
  simp only at h
  split at h
  · cases h
  · split at h
    · obtain ⟨g₃, h₃, h⟩ := of_bind_eq_ok h
      have s₃ := Feed.size_advance_le h₃
      cases h; omega
    · cases h; omega

/-- Reading a setting passes at least its property. -/
theorem setting_size {f g : Feed} {s : Setting} (h : setting f = .ok (s, g)) : g.size < f.size := by
  unfold setting at h
  split at h
  · next ht =>
    obtain ⟨g₁, h₁, h⟩ := of_bind_eq_ok h
    obtain ⟨g₂, h₂, h⟩ := of_bind_eq_ok h
    obtain ⟨g₃, h₃, h⟩ := of_bind_eq_ok h
    obtain ⟨g₄, h₄, h⟩ := of_bind_eq_ok h
    have s₁ := Feed.size_advance_lt h₁ (by simp [ht])
    have s₂ := Feed.size_skipBlank_le h₂
    have s₃ := pass_size h₃
    have s₄ := Feed.size_skipBlank_le h₄
    have s₅ := settingValue_size h
    omega
  · cases h

/-- The settings of a rule, up to and with the closing brace. -/
def block (f : Feed) : Except Fault (List Setting × Feed) :=
  match _hb : f.skipBlank with
  | .error fault => .error fault
  | .ok g =>
    if g.token = .rightBrace then do return ([], ← g.advance)
    else if _he : g.token = .eof then .error (expected "'\x7d'" g)
    else if g.token = .semicolon then
      match _ha : g.advance with
      | .error fault => .error fault
      | .ok h => block h
    else
      match _hs : setting g with
      | .error fault => .error fault
      | .ok (s, h) => do
        let (ss, rest) ← block h
        return (s :: ss, rest)
termination_by f.size
decreasing_by
  · exact Nat.lt_of_lt_of_le (Feed.size_advance_lt _ha _he) (Feed.size_skipBlank_le _hb)
  · exact Nat.lt_of_lt_of_le (setting_size _hs) (Feed.size_skipBlank_le _hb)

/-- A rule: its selectors are read from the source in front of the block, on its own. -/
def rule (f : Feed) : Except Fault (StyleRule × Feed) := do
  let place := f.current.before
  let g ← prelude f
  let source := f.slice g
  if (Text.trim source).isEmpty then throw ⟨.invalidSelector "", place⟩
  else
    let selectors ← Selector.parseListAt place source
    let (settings, rest) ← block (← g.advance)
    return (⟨selectors, settings, place⟩, rest)

theorem skipStatement_size {f g : Feed} (h : skipStatement f = .ok g) : g.size ≤ f.size := by
  fun_induction skipStatement f with
  | case1 => cases h
  | case2 f g' ha _ => cases h; exact Feed.size_advance_le ha
  | case3 => cases h
  | case4 f g' ha _ _ ih => exact Nat.le_trans (ih h) (Feed.size_advance_le ha)

theorem prelude_size {f g : Feed} (h : prelude f = .ok g) : g.size ≤ f.size ∧ g.token = .leftBrace := by
  fun_induction prelude f with
  | case1 f hf => cases h; exact ⟨Nat.le_refl _, hf⟩
  | case2 => cases h
  | case3 => cases h
  | case4 => cases h
  | case5 f _ _ _ g' ha ih => exact ⟨Nat.le_trans (ih h).1 (Feed.size_advance_le ha), (ih h).2⟩

theorem block_size {f g : Feed} {ss : List Setting} (h : block f = .ok (ss, g)) : g.size ≤ f.size := by
  fun_induction block f generalizing ss with
  | case1 => cases h
  | case2 f g' hb _ =>
    obtain ⟨g₁, h₁, h⟩ := of_bind_eq_ok h
    cases h
    exact Nat.le_trans (Feed.size_advance_le h₁) (Feed.size_skipBlank_le hb)
  | case3 => cases h
  | case4 => cases h
  | case5 f g' hb _ he _ g'' ha ih =>
    have := ih h
    have := Feed.size_advance_le ha
    have := Feed.size_skipBlank_le hb
    omega
  | case6 => cases h
  | case7 f g' hb _ _ _ s g'' hs ih =>
    obtain ⟨⟨ss', r⟩, hr, hk⟩ := of_bind_eq_ok h
    cases hk
    have := ih hr
    have := setting_size hs
    have := Feed.size_skipBlank_le hb
    omega

/-- Reading a rule passes at least the brace that opens its block. -/
theorem rule_size {f g : Feed} {r : StyleRule} (h : rule f = .ok (r, g)) : g.size < f.size := by
  obtain ⟨g₁, h₁, h⟩ := of_bind_eq_ok h
  obtain ⟨s₁, t₁⟩ := prelude_size h₁
  simp only at h
  split at h
  · cases h
  · obtain ⟨ss, h₂, h⟩ := of_bind_eq_ok h
    obtain ⟨g₃, h₃, h⟩ := of_bind_eq_ok h
    obtain ⟨⟨ds, g₄⟩, h₄, h⟩ := of_bind_eq_ok h
    have s₃ := Feed.size_advance_lt h₃ (by simp [t₁])
    have s₄ := block_size h₄
    cases h
    show g₄.size < f.size
    omega

theorem quotedTarget_size {f g : Feed} {url : String} (h : quotedTarget f = .ok (url, g)) :
    g.size ≤ f.size := by
  obtain ⟨g₁, h₁, h⟩ := of_bind_eq_ok h
  have s₁ := Feed.size_skipBlank_le h₁
  split at h
  · obtain ⟨g₂, h₂, h⟩ := of_bind_eq_ok h
    obtain ⟨g₃, h₃, h⟩ := of_bind_eq_ok h
    obtain ⟨g₄, h₄, h⟩ := of_bind_eq_ok h
    have s₂ := Feed.size_advance_le h₂
    have s₃ := Feed.size_skipBlank_le h₃
    have s₄ := pass_size h₄
    cases h; omega
  · cases h

theorem importTarget_size {f g : Feed} {url : String} (h : importTarget f = .ok (url, g)) :
    g.size ≤ f.size := by
  unfold importTarget at h
  split at h
  · obtain ⟨g₁, h₁, h⟩ := of_bind_eq_ok h
    cases h; exact Feed.size_advance_le h₁
  · obtain ⟨g₁, h₁, h⟩ := of_bind_eq_ok h
    cases h; exact Feed.size_advance_le h₁
  · split at h
    · obtain ⟨g₁, h₁, h⟩ := of_bind_eq_ok h
      exact Nat.le_trans (quotedTarget_size h) (Feed.size_advance_le h₁)
    · cases h
  · cases h

theorem importStatement_size {place : Location} {f g : Feed} {i : Import}
    (h : importStatement place f = .ok (i, g)) : g.size ≤ f.size := by
  obtain ⟨g₁, h₁, h⟩ := of_bind_eq_ok h
  obtain ⟨⟨url, g₂⟩, h₂, h⟩ := of_bind_eq_ok h
  obtain ⟨g₃, h₃, h⟩ := of_bind_eq_ok h
  obtain ⟨g₄, h₄, h⟩ := of_bind_eq_ok h
  have s₁ := Feed.size_skipBlank_le h₁
  have s₂ := importTarget_size h₂
  have s₃ := Feed.size_skipBlank_le h₃
  have s₄ := pass_size h₄
  cases h; omega

/-- What an at-keyword begins: an import, or a statement that says nothing. -/
def atStatement (name : String) (place : Location) (f : Feed) : Except Fault (Option Statement × Feed) :=
  match Selector.lowercase name with
  | "import" => do
    let (i, g) ← importStatement place f
    return (some (.importing i), g)
  | "charset" => do return (none, ← skipStatement f)
  | _ => .error ⟨.unsupportedAtRule name, place⟩

/-- The statement whose first token is in view. -/
def statement (f : Feed) : Except Fault (Option Statement × Feed) :=
  match f.token with
  | .atKeyword name => do atStatement name f.current.before (← f.advance)
  | _ => do
    let (r, g) ← rule f
    return (some (.rule r), g)

theorem statement_size {f g : Feed} {s : Option Statement} (h : statement f = .ok (s, g)) :
    g.size < f.size := by
  unfold statement at h
  split at h
  · next ht =>
    obtain ⟨g₁, h₁, h⟩ := of_bind_eq_ok h
    have s₁ := Feed.size_advance_lt h₁ (by simp [ht])
    unfold atStatement at h
    split at h
    · obtain ⟨⟨i, g₂⟩, h₂, h⟩ := of_bind_eq_ok h
      have s₂ := importStatement_size h₂
      cases h; omega
    · obtain ⟨g₂, h₂, h⟩ := of_bind_eq_ok h
      have s₂ := skipStatement_size h₂
      cases h; omega
    · cases h
  · obtain ⟨⟨r, g₁⟩, h₁, h⟩ := of_bind_eq_ok h
    have s₁ := rule_size h₁
    cases h; exact s₁

/-- The statements that were read, and the fault that ended the reading, if one did. -/
structure Outline where
  statements : List Statement
  fault : Option Fault

def Outline.push (s : Option Statement) (o : Outline) : Outline :=
  { o with statements := s.toList ++ o.statements }

def outlineOf (f : Feed) : Outline :=
  match _hb : f.skipBlank with
  | .error fault => ⟨[], some fault⟩
  | .ok g =>
    if g.token = .eof then ⟨[], none⟩
    else match _hs : statement g with
      | .error fault => ⟨[], some fault⟩
      | .ok (s, h) => (outlineOf h).push s
termination_by f.size
decreasing_by exact Nat.lt_of_lt_of_le (statement_size _hs) (Feed.size_skipBlank_le _hb)

def outline (text : String) : Outline :=
  match Feed.ofText .start text.toList with
  | .error fault => ⟨[], some fault⟩
  | .ok f => outlineOf f

/-- A text is a stylesheet when all of it can be read. -/
def parse (text : String) : Except Fault Stylesheet :=
  let o := outline text
  match o.fault with
  | some fault => .error fault
  | none => .ok (ofStatements o.statements)

/-- What reading a text reports: its imports, as far as it was read. -/
def events (text : String) : List Event :=
  ((outline text).statements.filterMap Statement.import?).map fun i =>
    ⟨.trace, s!"@import '{i.url}' at {i.place.text}"⟩

end Stylebook.Stylesheet
