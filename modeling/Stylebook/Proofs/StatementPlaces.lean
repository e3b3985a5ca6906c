import Stylebook.Proofs.Concatenation
import Stylebook.Proofs.PreludeSlice
import Stylebook.Proofs.Recount

/-! Where the statements of a stylesheet are said to stand. Their places are taken before the comments that may stand in
front of their first token. Blanks take the comments among them along, so a place is exact behind blanks; behind
comments alone it is where the comments begin. -/
namespace Stylebook

def Statement.place : Statement → Location
  | importing i => i.place
  | rule r => r.place

/-- A statement is written at the front of a text, with neither blanks nor comments before it: a rule with its
selectors up to the brace, an import with its keyword. -/
structure Statement.Opens (s : Statement) (cs : List Char) : Prop where
  visible : ∀ c ∈ cs.head?, Text.isBlank c = false
  uncommented : Lexer.opensComment cs = false
  written :
    match s with
    | importing _ => ∃ name more, cs = '@' :: (name.toList ++ more) ∧ Selector.lowercase name = "import"
    | rule r => ∃ selectors more, cs = selectors ++ '{' :: more ∧
        Selector.parseList (String.ofList selectors) = .ok r.selectors

/-- A statement stands in a text behind `front` and behind a run of blanks and comments that is no part of it; `blank`
when the run holds more than comments. -/
structure Statement.StandsIn (s : Statement) (text : String) (front run behind : List Char) (blank : Bool) : Prop where
  text_eq : text.toList = front ++ (run ++ behind)
  skipped : if blank then Lexer.Blanks run else Lexer.Comments run
  opens : s.Opens behind

namespace Lexer

lemma nameLike_ne_atKeyword {cs : List Char} {name : String} : (nameLike cs).value ≠ .ok (.atKeyword name) := by
  intro h
  unfold nameLike urlOrFunction at h
  simp only at h
  split at h
  · split_ifs at h
    · split at h
      · cases h
      · cases h
      · simp only at h
        split at h <;> cases h
    · cases h
  · cases h

lemma numeric_ne_atKeyword {cs : List Char} {name : String} : (numeric cs).value ≠ .ok (.atKeyword name) := by
  intro h
  unfold numeric at h
  simp only at h
  split at h
  · cases h
  · split at h
    · cases h
    · split_ifs at h <;> cases h

lemma atKeyword_eq {cs : List Char} {name : String} (h : (atKeyword cs).value = .ok (.atKeyword name)) :
    cs = name.toList ++ (atKeyword cs).rest := by
  cases cs with
  | nil => cases h
  | cons c cs =>
    rw [atKeyword_cons] at h ⊢
    split_ifs at h ⊢ with hc
    · cases h
      rw [String.toList_ofList, spanWhile_append]
    · cases h

/-- An at-keyword is its name behind an at sign. -/
lemma readToken_atKeyword {cs : List Char} {name : String} (h : (readToken cs).value = .ok (.atKeyword name)) :
    ∃ more, cs = '@' :: (name.toList ++ more) := by
  cases cs with
  | nil => cases h
  | cons c cs =>
    cases hp : Token.punctuation? c with
    | some t =>
      rw [readToken_of_mark hp] at h
      cases h
      unfold Token.punctuation? at hp
      split at hp <;> cases hp
    | none =>
      rw [readToken_of_word hp] at h
      split_ifs at h with hquote hhash hat hnumber hname
      · unfold string at h
        simp only at h
        split at h <;> cases h
      · unfold hash at h
        simp only at h
        split_ifs at h <;> cases h
      · rw [hat, atKeyword_eq h]
        exact ⟨_, rfl⟩
      · exact absurd h numeric_ne_atKeyword
      · exact absurd h nameLike_ne_atKeyword
      · cases h

section Reads
variable {p : Location} {cs : List Char} {l : Lexeme} {b ls : List Lexeme}

/-- Comments in front of a token belong to none, and its place is taken before them. -/
lemma Reads.comments (h : Reads p cs (l :: ls) none) (hl : l.token ≠ .whitespace) :
    ∃ behind, trivia cs = .run l.gap false behind ∧ l.before = p ∧
      Reads (p.past l.gap) behind (⟨l.token, [], l.text, p.past l.gap⟩ :: ls) none := by
  obtain ⟨hplace, rest, hs, -⟩ := h.step
  obtain ⟨hw, -⟩ | ⟨behind, htrivia, -⟩ := step_eq_token_iff.1 hs
  · exact absurd hw hl
  · have hcs := trivia_append cs
    rw [htrivia] at hcs
    rw [← hcs] at h
    have hdrop := Reads.dropGap h
    rw [Lexeme.start, hplace] at hdrop
    exact ⟨behind, htrivia, hplace, hdrop⟩

/-- The blanks and comments in front of a token. It is read at its own place if there is a blank among them, and
otherwise at the place where they begin. -/
lemma Reads.leading (h : Reads p cs (b ++ l :: ls) none) (hb : ∀ w ∈ b, w.token = .whitespace)
    (hl : l.token ≠ .whitespace) :
    ∃ run blank behind, trivia cs = .run run blank behind ∧ l.before = p.past (if blank then run else []) ∧
      Reads (p.past run) behind (⟨l.token, [], l.text, p.past run⟩ :: ls) none := by
  cases b with
  | nil =>
    obtain ⟨behind, htrivia, hplace, hreads⟩ := h.comments hl
    exact ⟨l.gap, false, behind, htrivia, by simp [hplace], hreads⟩
  | cons w b =>
    obtain ⟨hw, hb⟩ := List.forall_mem_cons.1 hb
    have hrow := Lexeme.row_of_ne_eof h.row (by simp [hw])
    obtain rfl : b = [] := by
      cases b with
      | nil => rfl
      | cons v b => exact absurd (hb v List.mem_cons_self) (hrow.2.1 hw v rfl)
    obtain ⟨rfl, rest, hs, hrest⟩ := h.step
    rw [if_neg (by simp [hw])] at hrest
    rw [hw] at hs
    have htrivia := trivia_of_step_whitespace hs
    have hafter : w.after = w.before.past w.text := by
      obtain ⟨-, hgap, -⟩ | ⟨cs', hcs', -⟩ := step_eq_token_iff.1 hs
      · rw [Lexeme.after, Lexeme.start, hgap, Location.past_nil]
      · exact absurd (htrivia.symm.trans hcs') (by simp)
    -- Blanks are taken as far as they go, so that no comments are left for the token behind them.
    obtain ⟨behind, hbehind, hplace, hreads⟩ := hrest.comments hl
    obtain ⟨hgap, -, rfl⟩ := Trivia.run.inj ((trivia_rest htrivia).symm.trans hbehind)
    rw [← hgap, hafter] at hreads
    exact ⟨w.text, true, rest, htrivia, by simpa [hafter] using hplace, hreads⟩

end Reads

end Lexer

namespace Stylesheet

section Around
variable {ls : List Lexeme} {ss : List Statement}

lemma Statements.of_blanks {b : List Lexeme} (h : Statements ls ss) (hb : ∀ w ∈ b, w.token = .whitespace) :
    Statements (b ++ ls) ss := by
  induction b with
  | nil => exact h
  | cons w b ih =>
    obtain ⟨hw, hb⟩ := List.forall_mem_cons.1 hb
    exact .blank hw (ih hb)

/-- What stands in front of a statement and behind it. -/
lemma Statements.around {s : Statement} {ss₁ ss₂ : List Statement} (h : Statements ls (ss₁ ++ s :: ss₂)) :
    ∃ done b item after, ls = done ++ (b ++ (item ++ after)) ∧ Complete done ss₁ ∧
      (∀ w ∈ b, w.token = .whitespace) ∧ Item item (some s) ∧ Statements after ss₂ := by
  generalize hss : ss₁ ++ s :: ss₂ = ss at h
  induction h generalizing ss₁ with
  | done he => simp at hss
  | @blank l ls ss hl _ ih =>
    obtain ⟨done, b, item, after, rfl, hdone, hb, hitem, hafter⟩ := ih hss
    by_cases hne : done = []
    · subst hne
      exact ⟨[], l :: b, item, after, rfl, hdone, List.forall_mem_cons.2 ⟨hl, hb⟩, hitem, hafter⟩
    · exact ⟨l :: done, b, item, after, rfl, hdone.blank hl hne, hb, hitem, hafter⟩
  | @item ls ms s' ss hi hms ih =>
    -- The statement is the first that this item gives, or it is found behind the item.
    by_cases hfirst : ss₁ = [] ∧ s' = some s
    · obtain ⟨rfl, rfl⟩ := hfirst
      cases hss
      exact ⟨[], [], ls, ms, rfl, complete_nil, by simp, hi, hms⟩
    · obtain ⟨ss₀, rfl, hss₀⟩ : ∃ ss₀, ss₁ = s'.toList ++ ss₀ ∧ ss₀ ++ s :: ss₂ = ss := by
        cases s' with
        | none => exact ⟨ss₁, rfl, hss⟩
        | some t =>
          cases ss₁ with
          | nil =>
            cases hss
            exact absurd ⟨rfl, rfl⟩ hfirst
          | cons u ss₁ =>
            obtain ⟨rfl, htail⟩ := List.cons.inj hss
            exact ⟨ss₁, rfl, htail⟩
      obtain ⟨done, b, item, after, rfl, hdone, hb, hitem, hafter⟩ := ih hss₀
      exact ⟨ls ++ done, b, item, after, by rw [List.append_assoc], hdone.item hi, hb, hitem, hafter⟩

end Around

section Item
variable {l : Lexeme} {ls : List Lexeme} {s : Statement}

lemma Item.place_eq (h : Item (l :: ls) (some s)) : s.place = l.before := by
  cases h with
  | importing _ _ _ _ _ _ => rfl
  | rule hr =>
    generalize hls : l :: ls = ms at hr
    cases hr with
    | mk _ _ _ _ _ _ =>
      cases hls
      rfl

/-- A text whose lexemes begin with a statement begins with what is written for it. -/
lemma Item.opens {p : Location} {cs : List Char} {after : List Lexeme} (h : Item (l :: ls) (some s))
    (hr : Lexer.Reads p cs (⟨l.token, [], l.text, p⟩ :: (ls ++ after)) none)
    (hstop : Lexer.trivia cs = .run [] false cs) : s.Opens cs where
  visible := by
    cases cs with
    | nil => simp
    | cons c cs => simpa using (Lexer.trivia_eq_stop hstop).1
  uncommented := by
    cases cs with
    | nil => rfl
    | cons c cs => exact (Lexer.trivia_eq_stop hstop).2
  written := by
    cases h with
    | importing hk hn _ _ _ _ =>
      obtain ⟨-, rest, hs, -⟩ := hr.step
      obtain ⟨hw, -⟩ | ⟨cs', htrivia, hread⟩ := Lexer.step_eq_token_iff.1 hs
      · simp [hk] at hw
      · obtain ⟨-, -, rfl⟩ := Lexer.Trivia.run.inj (hstop.symm.trans htrivia)
        obtain ⟨more, hcs⟩ := Lexer.readToken_atKeyword (by rw [hread, hk])
        exact ⟨_, more, hcs, (Selector.lowercase_eq _).trans hn⟩
    | rule hrule =>
      generalize hls : l :: ls = ms at hrule
      cases hrule with
      | @mk k o ps body selectors settings _ _ _ ho hselectors _ =>
        obtain ⟨rfl, rfl⟩ := List.cons.inj hls
        have hbrace : Lexer.Reads p cs ((⟨l.token, [], l.text, p⟩ :: ps) ++ o :: (body ++ after)) none := by
          simpa using hr
        obtain ⟨more, hcs, -⟩ := hbrace.cut ho
        refine ⟨Lexeme.writing (l :: ps) o, more, ?_, hselectors⟩
        simpa [Lexeme.writing, Lexeme.source] using hcs

end Item

/-- A text that is a stylesheet has its statements one behind the other. Each of them stands behind `front`, which is
empty or ends with the statement before, and behind a run of comments, or of blanks and comments. Its place is exact
behind blanks and where nothing is skipped, and otherwise the place where the comments begin. -/
theorem parse_places_statements (text : String) (sheet : Stylesheet) (h : parse text = .ok sheet) :
    ∃ ls ss, Lexer.Reads .start text.toList ls none ∧ Statements ls ss ∧ sheet = ofStatements ss ∧
      ∀ ss₁ s ss₂, ss = ss₁ ++ s :: ss₂ → ∃ done rest, ls = done ++ rest ∧ Complete done ss₁ ∧
        Statements rest (s :: ss₂) ∧ ∃ front run behind blank, front = done.flatMap Lexeme.source ∧
          s.StandsIn text front run behind blank ∧
          s.place = Location.start.recount (if blank then front ++ run else front) ∧
          (s.place = Location.start.recount (front ++ run) ↔ blank = true ∨ run = []) := by
  obtain ⟨ss, houtline, rfl⟩ := parse_eq_ok_iff.1 h
  obtain ⟨ls, hr, hs⟩ := outline_eq_iff.1 houtline
  refine ⟨ls, ss, hr, hs, rfl, ?_⟩
  rintro ss₁ s ss₂ rfl
  obtain ⟨done, b, item, after, rfl, hdone, hb, hitem, hafter⟩ := hs.around
  refine ⟨done, b ++ (item ++ after), rfl, hdone, (Statements.item hitem hafter).of_blanks hb, ?_⟩
  obtain ⟨l, item, rfl, hl⟩ := hitem.head
  have hrow : Lexeme.Row none ((done ++ b) ++ l :: (item ++ after)) := by
    rw [List.append_assoc]
    exact hr.row
  obtain ⟨rest, htext, hrest⟩ := hr.behind fun m hm => hrow.ne_eof m (List.mem_append_left b hm)
  obtain ⟨run, blank, behind, htrivia, hplace, hreads⟩ := hrest.leading hb hl
  have hrun := Lexer.trivia_append rest
  rw [htrivia] at hrun
  rw [← hrun] at htext
  have hrecount : s.place =
      Location.start.recount (done.flatMap Lexeme.source ++ if blank then run else []) := by
    rw [hitem.place_eq, hplace, ← Location.past_append, Location.past_eq_recount]
  have hskipped : if blank then Lexer.Blanks run else Lexer.Comments run := by
    cases blank with
    | false => exact Lexer.comments_of_trivia htrivia
    | true => exact Lexer.blanks_of_trivia htrivia
  have hopens := hitem.opens hreads (Lexer.trivia_rest htrivia)
  refine ⟨_, run, behind, blank, rfl, ⟨htext, hskipped, hopens⟩, ?_, ?_⟩
  · cases blank with
    | false => simpa using hrecount
    | true => simpa using hrecount
  · cases blank with
    | false => simp [hrecount, Location.recount_eq_recount_append_iff]
    | true => simp [hrecount]

/-- The place of the first rule is where the comment in front of it begins; the second stands behind blanks, and its
place is exact. -/
theorem parse_places_statements_comments :
    let text := "@import 'a';/*é*/p\x7bb:c\x7d\n/*d*/ q\x7be:f\x7d"
    ∃ sheet, parse text = .ok sheet ∧ sheet.imports.map Import.place = [⟨1, 1, 0⟩] ∧
      sheet.rules.map StyleRule.place = [⟨1, 13, 12⟩, ⟨2, 7, 31⟩] ∧
      ∃ ls ss, Lexer.Reads .start text.toList ls none ∧ Statements ls ss ∧ sheet = ofStatements ss ∧
        ∀ ss₁ s ss₂, ss = ss₁ ++ s :: ss₂ → ∃ done rest, ls = done ++ rest ∧ Complete done ss₁ ∧
          Statements rest (s :: ss₂) ∧ ∃ front run behind blank, front = done.flatMap Lexeme.source ∧
            s.StandsIn text front run behind blank ∧
            s.place = Location.start.recount (if blank then front ++ run else front) ∧
            (s.place = Location.start.recount (front ++ run) ↔ blank = true ∨ run = []) := by
  intro text
  have hread : ((parse text).map fun sheet => (sheet.imports.map Import.place, sheet.rules.map StyleRule.place)) =
      .ok ([⟨1, 1, 0⟩], [⟨1, 13, 12⟩, ⟨2, 7, 31⟩]) := by decide +kernel
  cases hparse : parse text with
  | error fault =>
    rw [hparse] at hread
    cases hread
  | ok sheet =>
    rw [hparse] at hread
    obtain ⟨himports, hrules⟩ := Prod.mk.inj (Except.ok.inj hread)
    exact ⟨sheet, rfl, himports, hrules, parse_places_statements text sheet hparse⟩

/-- A rule and an import that stand behind a comment are said to stand in front of it. -/
theorem places_precede_comments :
    let styled := "p\x7ba:b\x7d"
    let imported := "@import 'a';"
    (parse ("/*c*/" ++ styled)).map (·.rules.map StyleRule.place) = .ok [⟨1, 1, 0⟩] ∧
      (parse ("/*c*/" ++ imported)).map (·.imports.map Import.place) = .ok [⟨1, 1, 0⟩] ∧
      Location.start.recount "/*c*/".toList = ⟨1, 6, 5⟩ := by
  decide +kernel

end Stylesheet

end Stylebook
