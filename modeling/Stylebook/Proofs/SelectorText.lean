import Mathlib.Data.List.Induction
import Stylebook.Proofs.PreludeSlice
import Stylebook.Proofs.TokenText

/-! The text that a selector keeps, read again on its own. It is the source from the selector's first token to the end
of its last, or of the comments behind it, without blanks at the ends. As some blanks are characters of names, a last
name can lose its end in this way; in all other cases the text has the same lexemes as the source. -/
namespace Stylebook

namespace Lexer
open Text

/-! ## The source of an entry -/

section Slice
variable {p : Location} {cs : List Char} {es b after : List Lexeme} {next : Lexeme} {stop : Option Fault}

/-- In front of a comma or of the end only comments are left, or nothing if there are blanks. -/
lemma Reads.condenses_gap (h : Reads p cs (b ++ next :: after) stop) (hb : Lexeme.Blank b)
    (hn : next.token = .comma ∨ next.token = .eof) :
    Condenses cs (b.headD next).gap ∧ Lexer.step (b.headD next).gap = .token (b.headD next).gap .eof [] [] := by
  cases hb with
  | none =>
    obtain ⟨-, rest, hs, -⟩ := h.step
    rw [List.headD_nil]
    rcases hn with hn | hn
    · rw [hn] at hs
      exact (step_mark (c := ',') rfl rfl hs).2
    · rw [hn] at hs
      have hend := (Condenses.dropped trivia_nil).append next.gap
      rw [List.append_nil] at hend
      refine ⟨gap_eq_of_step_eof hs ▸ hend, ?_⟩
      exact step_eq_token_iff.2 (.inr ⟨[], trivia_taken (trivia_of_step_eof hs), rfl⟩)
  | @run w hw =>
    obtain ⟨-, rest, hs, hrest⟩ := h.step
    rw [if_neg (by simp [hw])] at hrest
    rw [hw] at hs
    have hblanks := trivia_of_step_whitespace hs
    have hgap : w.gap = [] := by
      obtain ⟨-, hgap, -⟩ | ⟨cs₁, htrivia, -⟩ := step_eq_token_iff.1 hs
      · exact hgap
      · simp [hblanks] at htrivia
    obtain ⟨-, rest₁, hs₁, -⟩ := hrest.step
    have hstop := trivia_rest hblanks
    rw [List.headD_cons, hgap]
    refine ⟨?_, step_nil⟩
    rcases hn with hn | hn
    · rw [hn] at hs₁
      obtain ⟨-, -, rfl⟩ := Trivia.run.inj (hstop.symm.trans (trivia_of_step_mark (c := ',') rfl hs₁))
      exact .cut hblanks (by decide)
    · rw [hn] at hs₁
      obtain ⟨-, -, rfl⟩ := Trivia.run.inj (hstop.symm.trans (trivia_of_step_eof hs₁))
      have hcs := trivia_append cs
      rw [hblanks, Trivia.taken, Trivia.rest, List.append_nil] at hcs
      rw [hcs] at hblanks
      exact .dropped hblanks

/-- What is written from some lexemes on up to the blanks behind them has these lexemes, and then the end. -/
lemma Reads.slice (h : Reads p cs (es ++ (b ++ next :: after)) stop) (hes : ∀ l ∈ es.getLast?, l.token ≠ .whitespace)
    (hb : Lexeme.Blank b) (hn : next.token = .comma ∨ next.token = .eof) :
    ∃ e : Lexeme, e.token = .eof ∧ e.gap = (b.headD next).gap ∧
      Reads p (es.flatMap Lexeme.source ++ (b.headD next).gap) (es ++ [e]) none := by
  have hinner : ∀ l ∈ es, l.token ≠ .eof := by
    have hrow := h.row
    cases hb with
    | none => exact hrow.ne_eof
    | run _ => exact hrow.ne_eof
  obtain ⟨rest, rfl, hrest⟩ := h.behind hinner
  obtain ⟨hcondenses, hstep⟩ := hrest.condenses_gap hb hn
  refine ⟨⟨.eof, (b.headD next).gap, [], _⟩, rfl, rfl, h.replace hinner hcondenses ?_ (reads_of_step_eof hstep)⟩
  intro l hl hblank
  exact absurd hblank (hes l hl)

/-- What the last lexeme in front of the end was read from. -/
lemma Reads.last {front : List Lexeme} {m e : Lexeme} (h : Reads p cs (front ++ [m] ++ [e]) none)
    (hm : m.token ≠ .whitespace ∧ m.token ≠ .eof) (he : e.token = .eof) :
    cs = front.flatMap Lexeme.source ++ (m.gap ++ (m.text ++ e.gap)) ∧
      trivia (m.gap ++ (m.text ++ e.gap)) = .run m.gap false (m.text ++ e.gap) ∧
      readToken (m.text ++ e.gap) = ⟨.ok m.token, m.text, e.gap⟩ ∧ trivia e.gap = .run e.gap false [] := by
  rw [List.append_assoc] at h
  obtain ⟨rest, rfl, hrest⟩ := h.behind h.row.ne_eof
  obtain ⟨-, rest₁, hs, hrest₁⟩ := hrest.step
  rw [if_neg hm.2] at hrest₁
  obtain ⟨-, rest₂, hs₁, -⟩ := hrest₁.step
  rw [he] at hs₁
  obtain rfl := gap_eq_of_step_eof hs₁
  obtain ⟨hblank, -, -⟩ | ⟨cs', htrivia, hread⟩ := step_eq_token_iff.1 hs
  · exact absurd hblank hm.1
  · obtain rfl : m.text ++ e.gap = cs' := by
      have htiles := readToken_tiles cs'
      rwa [hread] at htiles
    have hcs := trivia_append rest
    rw [htrivia] at hcs
    obtain rfl := hcs
    exact ⟨rfl, htrivia, hread, trivia_of_step_eof hs₁⟩

/-- Some characters are cut off a name at the end of a text. -/
lemma Reads.clip {front : List Lexeme} {m e : Lexeme} {written blanks : List Char} {name : String}
    (h : Reads p cs (front ++ [m] ++ [e]) none) (hname : m.token.name? = some name) (he : e.token = .eof)
    (hgap : e.gap = []) (hm : m.text = written ++ blanks) (hne : written ≠ []) (hnone : blanks ≠ [])
    (hblanks : ∀ c ∈ blanks, isBlank c = true) :
    ∃ m' e' : Lexeme, Reads p (front.flatMap Lexeme.source ++ (m.gap ++ written)) (front ++ [m', e']) none ∧
      ((∃ name', m'.token.name? = some name' ∧ name'.length < name.length) ∨ ∃ c, m'.token = .delim c ∧ c ≠ '*') := by
  have hword : m.token ≠ .whitespace ∧ m.token ≠ .eof := by
    constructor <;> (intro ht; simp [ht, Token.name?] at hname)
  obtain ⟨rfl, htrivia, hread, -⟩ := h.last hword he
  rw [hgap, List.append_nil, hm] at htrivia
  obtain ⟨t', hread', ht'⟩ := (hm ▸ spelling_of_readToken hread hword.2).clip hname hne hnone
  have hdropped (cs : List Char) : Condenses (cs ++ blanks) cs := by
    have happend := (Condenses.dropped (trivia_of_blanks hblanks)).append cs
    rwa [List.append_nil] at happend
  have htrivia' : trivia (m.gap ++ written) = .run m.gap false written := by
    obtain ⟨c, tail, rfl⟩ := List.exists_cons_of_ne_nil hne
    rw [trivia_more (c :: tail) (trivia_taken htrivia), List.nil_append,
      trivia_stop_condenses (trivia_rest htrivia) (hdropped tail)]
    simp [Trivia.push]
  have hstep : Lexer.step (m.gap ++ written) = .token m.gap t' written [] :=
    step_eq_token_iff.2 (.inr ⟨written, htrivia', hread'⟩)
  have hend : t' ≠ .eof := by
    rintro rfl
    simp [Token.name?] at ht'
  rw [hgap, List.append_nil, hm, ← List.append_assoc m.gap] at h
  rw [List.append_assoc front] at h
  have hinner := h.row.ne_eof
  refine ⟨⟨t', m.gap, written, _⟩, _, h.replace hinner (hdropped _) ?_
    (reads_of_step hstep hend (reads_of_step_eof step_nil)), ht'⟩
  intro w hw hblank
  have hstop := h.stop_of_whitespace hinner hw hblank rfl
  rw [List.append_assoc, htrivia] at hstop
  obtain ⟨hnil, -⟩ := Trivia.run.inj hstop
  rw [hnil, List.nil_append] at htrivia' ⊢
  exact htrivia'

end Slice

/-! ## Ends of texts -/

section Ends
variable {cs body comment taken rest : List Char}

lemma getLast?_closeComment (h : closeComment cs = some (body, rest)) : body.getLast? = some '/' := by
  fun_induction closeComment cs generalizing body rest with
  | case1 => cases h
  | case2 => cases h; rfl
  | case3 c tail _ ih =>
    obtain ⟨⟨b, r⟩, hb, he⟩ := Option.map_eq_some_iff.1 h
    cases he
    rw [List.getLast?_cons, ih hb]
    rfl

lemma getLast?_comment (h : comment? cs = some (comment, rest)) : comment.getLast? = some '/' := by
  unfold comment? at h
  split at h
  · obtain ⟨⟨b, r⟩, hb, he⟩ := Option.map_eq_some_iff.1 h
    cases he
    rw [List.getLast?_cons, List.getLast?_cons, getLast?_closeComment hb]
    rfl
  · cases h

/-- Comments without blanks end in a slash. -/
lemma getLast?_comments (h : trivia cs = .run taken false rest) (hne : taken ≠ []) : taken.getLast? = some '/' := by
  fun_induction trivia cs generalizing taken rest with
  | case1 =>
    cases h
    exact absurd rfl hne
  | case2 c tail _ ih =>
    cases ht : trivia tail <;> simp [ht, Trivia.push] at h
  | case3 c tail _ comment after hcomment ih =>
    cases ht : trivia after with
    | run taken' blank' rest' =>
      simp only [ht, Trivia.push, Bool.false_or, Trivia.run.injEq] at h
      obtain ⟨rfl, rfl, rfl⟩ := h
      rw [List.getLast?_append]
      by_cases hnil : taken' = []
      · simp [hnil, getLast?_comment hcomment]
      · simp [ih ht hnil]
    | unclosed before comment => simp [ht, Trivia.push] at h
  | case4 => cases h
  | case5 =>
    cases h
    exact absurd rfl hne

end Ends

end Lexer

namespace Text

/-- A text that ends in a blank. -/
def endsBlank (cs : List Char) : Bool := cs.getLast?.any isBlank

lemma exists_blanks (cs : List Char) :
    ∃ front blanks, cs = front ++ blanks ∧ endsBlank front = false ∧ ∀ c ∈ blanks, isBlank c = true := by
  induction cs using List.reverseRecOn with
  | nil => exact ⟨[], [], rfl, rfl, by simp⟩
  | append_singleton cs c ih =>
    by_cases hc : isBlank c = true
    · obtain ⟨front, blanks, rfl, hfront, hblanks⟩ := ih
      refine ⟨front, blanks ++ [c], by rw [List.append_assoc], hfront, ?_⟩
      intro d hd
      rcases List.mem_append.1 hd with hd | hd
      · exact hblanks d hd
      · rwa [List.mem_singleton.1 hd]
    · exact ⟨cs ++ [c], [], by simp, by simpa [endsBlank] using hc, by simp⟩

lemma endsBlank_append {cs ds : List Char} (h : ds ≠ []) : endsBlank (cs ++ ds) = endsBlank ds := by
  rw [endsBlank, List.getLast?_append_of_ne_nil _ h, endsBlank]

lemma not_isBlank_of_le {c : Char} (hleast : 33 ≤ c.toNat) (hgreatest : c.toNat ≤ 126) : isBlank c = false := by
  simp only [isBlank, Bool.or_eq_false_iff, Bool.and_eq_false_iff, decide_eq_false_iff_not, beq_eq_false_iff_ne]
  omega

lemma isBlank_toLower (c : Char) : isBlank c.toLower = isBlank c := by
  delta Char.toLower
  split_ifs with hupper
  · obtain ⟨hleast, hgreatest⟩ := hupper
    have hleast : 65 ≤ c.toNat := hleast
    have hgreatest : c.toNat ≤ 90 := hgreatest
    have hlower : (c.val + ('a'.val - 'A'.val)).toNat = c.toNat + 32 := by
      rw [UInt32.toNat_add]
      exact Nat.mod_eq_of_lt (by change c.toNat + 32 < 2 ^ 32; omega)
    have hc : isBlank c = false := not_isBlank_of_le (by omega) (by omega)
    rw [hc, not_isBlank_of_le]
    · exact le_of_le_of_eq (by omega) hlower.symm
    · exact le_of_eq_of_le hlower (by omega)
  · rfl

lemma endsBlank_lowercase (s : String) : endsBlank (Selector.lowercase s).toList = endsBlank s.toList := by
  rw [Selector.lowercase, String.toList_ofList, endsBlank, endsBlank, List.getLast?_map]
  cases s.toList.getLast? with
  | none => rfl
  | some c => exact isBlank_toLower c

/-- Blanks at the end are all that is cut off a text that does not begin with one. -/
lemma trim_append {front blanks : List Char} (hhead : ∀ c ∈ front.head?, isBlank c = false)
    (hlast : endsBlank front = false) (hblanks : ∀ c ∈ blanks, isBlank c = true) (hne : front ≠ []) :
    trim (front ++ blanks) = front := by
  have hstart : (front ++ blanks).dropWhile isBlank = front ++ blanks := by
    obtain ⟨c, tail, rfl⟩ := List.exists_cons_of_ne_nil hne
    exact List.dropWhile_cons_of_neg (by simp [hhead c rfl])
  have hend : front.reverse.dropWhile isBlank = front.reverse := by
    obtain ⟨init, d, rfl⟩ := (List.eq_nil_or_concat' front).resolve_left hne
    rw [List.reverse_append, List.reverse_singleton, List.singleton_append]
    exact List.dropWhile_cons_of_neg (by simpa [endsBlank] using hlast)
  rw [trim, hstart, List.reverse_append, List.dropWhile_append_of_pos (by simpa using hblanks), hend,
    List.reverse_reverse]

end Text

/-- The name that a simple selector is made with. -/
def Part.name? : Part → Option String
  | typeName name | className name | id name | pseudoElement name => some name
  | pseudoClass name _ => some name
  | universal | attr _ _ | combinator _ => none

namespace Selector
open Lexeme (Blank)

/-! ## The last lexeme of a selector -/

/-- What the last lexeme of a simple selector has to do with its part: it is the name, or a mark. A part whose last
mark is not a parenthesis has no name. -/
inductive Ends (l : Lexeme) (p : Part) : Prop
  | name {written name : String} (h : l.token.name? = some written) (hp : p.name? = some name)
      (hn : name = written ∨ name = lowercase written)
  | mark (h : l.token = .delim '*' ∨ l.token = .rightBracket) (hp : p.name? = none)
  | paren (h : l.token = .rightParen)

section Ends
variable {l l' : Lexeme} {ls : List Lexeme} {p : Part} {ps : List Part}

lemma Ends.token_ne (h : Ends l p) : l.token ≠ .whitespace ∧ l.token ≠ .eof := by
  cases h with
  | name h _ _ => constructor <;> (intro ht; simp [ht, Token.name?] at h)
  | mark h _ => rcases h with h | h <;> simp [h]
  | paren h => simp [h]

lemma Names.name?_eq {element : Bool} {written : String} {argument : Option String}
    (h : Names element written argument p) : p.name? = some (lowercase written) := by
  rw [lowercase_eq]
  cases h <;> rfl

/-- The name in a part ends in a blank where the lexeme does. -/
lemma Ends.endsBlank_eq {name : String} (h : Ends l p) (hs : Lexer.Spelling l.token l.text)
    (hname : p.name? = some name) (hparen : l.token ≠ .rightParen) :
    Text.endsBlank name.toList = Text.endsBlank l.text ∧ ∀ c ∈ l.text, c ≠ ')' ∧ c ≠ '/' := by
  cases h with
  | @name written name' hwritten hp hn =>
    obtain rfl : name' = name := Option.some.inj (hp.symm.trans hname)
    have hlower : Text.endsBlank name'.toList = Text.endsBlank written.toList := by
      rcases hn with rfl | rfl
      · rfl
      · exact Text.endsBlank_lowercase written
    obtain ⟨hne, hall, htext⟩ := hs.of_name? hwritten
    have hchar : ∀ c ∈ written.toList, c ≠ ')' ∧ c ≠ '/' := by
      intro c hc
      have hc := hall c hc
      constructor <;> (rintro rfl; exact absurd hc (by decide))
    rcases htext with ⟨-, htext, -⟩ | ⟨-, htext⟩
    · rw [htext]
      exact ⟨hlower, hchar⟩
    · rw [htext, hlower, ← List.singleton_append, Text.endsBlank_append hne]
      exact ⟨rfl, List.forall_mem_cons.2 ⟨by decide, hchar⟩⟩
  | mark _ hp => simp [hp] at hname
  | paren h => exact absurd h hparen

/-- Only a name can end in a blank. -/
lemma Ends.name_of_endsBlank (h : Ends l p) (hs : Lexer.Spelling l.token l.text)
    (hb : Text.endsBlank l.text = true) :
    ∃ written name, l.token.name? = some written ∧ p.name? = some name ∧ l.token ≠ .rightParen := by
  have hmark : ¬ (l.token = .delim '*' ∨ l.token = .rightBracket ∨ l.token = .rightParen) := by
    intro hmark
    obtain ⟨c, hc, hblank, -⟩ := hs.of_mark hmark
    simp [hc, Text.endsBlank, hblank] at hb
  cases h with
  | @name written name h hp _ => exact ⟨written, name, h, hp, by rintro ht; simp [ht, Token.name?] at h⟩
  | mark h _ => exact absurd (h.imp_right .inl) hmark
  | paren h => exact absurd (.inr (.inr h)) hmark

lemma Simple.ends (h : Simple ls p) : ∃ front l, ls = front ++ [l] ∧ Ends l p := by
  cases h with
  | @universal l h => exact ⟨[], l, rfl, .mark (.inl h) rfl⟩
  | @typeName l _ h => exact ⟨[], l, rfl, .name (by rw [h]; rfl) rfl (.inl rfl)⟩
  | @id l _ _ h => exact ⟨[], l, rfl, .name (by rw [h]; rfl) rfl (.inl rfl)⟩
  | @className dot l _ _ h => exact ⟨[dot], l, rfl, .name (by rw [h]; rfl) rfl (.inl rfl)⟩
  | @named l n r b₁ b₂ _ _ _ _ _ hr => exact ⟨l :: (b₁ ++ n :: b₂), r, by simp, .mark (.inr hr) rfl⟩
  | @compared l n v r b₁ b₂ op b₃ b₄ _ _ _ _ _ _ _ _ _ _ _ hr =>
    exact ⟨l :: (b₁ ++ n :: (b₂ ++ (op ++ (b₃ ++ v :: b₄)))), r, by simp, .mark (.inr hr) rfl⟩
  | @pseudo cs _ l _ _ _ hl hn => exact ⟨cs, l, rfl, .name (by rw [hl]; rfl) hn.name?_eq (.inr rfl)⟩
  | @pseudoFunction cs args _ l r _ _ _ _ _ _ _ hr _ => exact ⟨cs ++ l :: args, r, by simp, .paren hr⟩

lemma Compound.ends (h : Compound ls ps) : ∃ front l, ls = front ++ [l] ∧ ∃ p ∈ ps.getLast?, Ends l p := by
  induction h with
  | single h =>
    obtain ⟨front, l, rfl, hl⟩ := h.ends
    exact ⟨front, l, rfl, _, rfl, hl⟩
  | @more ls ms p ps _ _ ih =>
    obtain ⟨front, l, rfl, q, hq, hl⟩ := ih
    refine ⟨ls ++ front, l, by simp, q, ?_, hl⟩
    rw [Option.mem_def.1 List.getLast?_cons, Option.mem_def.1 hq]
    rfl

lemma Complex.ends (h : Complex ls ps) : ∃ front l, ls = front ++ [l] ∧ ∃ p ∈ ps.getLast?, Ends l p := by
  induction h with
  | compound h => exact h.ends
  | @join ls ms ns ps qs c _ _ _ ih =>
    obtain ⟨front, l, rfl, q, hq, hl⟩ := ih
    refine ⟨ls ++ (ms ++ front), l, by simp, q, ?_, hl⟩
    rw [List.getLast?_append, List.getLast?_cons, Option.mem_def.1 hq]
    rfl

lemma Ends.length_name {written : String} (h : Ends l p) (hwritten : l.token.name? = some written) :
    ∃ name, p.name? = some name ∧ name.length = written.length := by
  cases h with
  | @name written' name h hp hn =>
    obtain rfl : written' = written := Option.some.inj (h.symm.trans hwritten)
    refine ⟨name, hp, ?_⟩
    rcases hn with rfl | rfl
    · rfl
    · rw [lowercase, String.length_ofList, List.length_map, String.length_toList]
  | mark h _ => rcases h with h | h <;> simp [h, Token.name?] at hwritten
  | paren h => simp [h, Token.name?] at hwritten

lemma Listed.ends {e : Lexeme} {s : Selector} (h : Listed (ls ++ [l] ++ [e]) [s]) (hl : l.token ≠ .whitespace) :
    ∃ p ∈ s.parts.getLast?, Ends l p := by
  generalize hms : ls ++ [l] ++ [e] = ms at h
  generalize hss : [s] = ss at h
  cases h with
  | last h _ =>
    obtain rfl := List.singleton_inj.1 hss
    cases h with
    | mk _ hc hb =>
      have hinit := (List.append_inj' hms rfl).1
      cases hb with
      | none =>
        obtain ⟨front, m, rfl, p, hp, hends⟩ := hc.ends
        rw [List.append_nil, ← List.append_assoc] at hinit
        obtain rfl := List.singleton_inj.1 (List.append_inj' hinit rfl).2
        exact ⟨p, hp, hends⟩
      | run hw =>
        rw [← List.append_assoc] at hinit
        obtain rfl := List.singleton_inj.1 (List.append_inj' hinit rfl).2
        exact absurd hw hl
  | more _ _ hrest =>
    obtain ⟨-, rfl⟩ := List.cons.inj hss
    cases hrest

/-- The first lexeme of a selector counts with its token only. -/
lemma Simple.congr_head (h : Simple (l :: ls) p) (ht : l'.token = l.token) : Simple (l' :: ls) p := by
  generalize hms : l :: ls = ms at h
  cases h with
  | universal h => cases hms; exact .universal (ht.trans h)
  | typeName h => cases hms; exact .typeName (ht.trans h)
  | id h => cases hms; exact .id (ht.trans h)
  | className hd h => cases hms; exact .className (ht.trans hd) h
  | named hl h₁ hn h₂ hr => cases hms; exact .named (ht.trans hl) h₁ hn h₂ hr
  | compared hl h₁ hn h₂ hop h₃ hv h₄ hr =>
    cases hms
    exact .compared (ht.trans hl) h₁ hn h₂ hop h₃ hv h₄ hr
  | pseudo hc hl hn =>
    cases hc with
    | single h => cases hms; exact .pseudo (.single (ht.trans h)) hl hn
    | double h hm => cases hms; exact .pseudo (.double (ht.trans h) hm) hl hn
  | pseudoFunction hc hl ha hw hr hn =>
    cases hc with
    | single h => cases hms; exact .pseudoFunction (.single (ht.trans h)) hl ha hw hr hn
    | double h hm => cases hms; exact .pseudoFunction (.double (ht.trans h) hm) hl ha hw hr hn

lemma Compound.congr_head (h : Compound (l :: ls) ps) (ht : l'.token = l.token) : Compound (l' :: ls) ps := by
  generalize hms : l :: ls = ms at h
  cases h with
  | single h =>
    subst hms
    exact .single (h.congr_head ht)
  | more h hs =>
    obtain ⟨m, rest, rfl, -⟩ := h.startsSimple_head
    cases hms
    exact .more (h.congr_head ht) hs

lemma Complex.congr_head (h : Complex (l :: ls) ps) (ht : l'.token = l.token) : Complex (l' :: ls) ps := by
  generalize hms : l :: ls = ms at h
  cases h with
  | compound h =>
    subst hms
    exact .compound (h.congr_head ht)
  | join h hj hs =>
    obtain ⟨m, rest, rfl, -⟩ := h.startsSimple_head
    cases hms
    exact .join (h.congr_head ht) hj hs

end Ends

/-! ## The source of a selector -/

/-- A text that begins and ends with the lexemes of one selector, but for comments at its end. -/
structure Source (cs : List Char) (ps : List Part) (ls : List Lexeme) (e : Lexeme) : Prop where
  reads : Lexer.Reads .start cs (ls ++ [e]) none
  complex : Complex ls ps
  eof : e.token = .eof
  stop : Lexer.trivia cs = .run [] false cs
  writing : Lexeme.writing ls e = cs

section Source
variable {place : Location} {cs : List Char} {ls es b after : List Lexeme} {next : Lexeme} {ps : List Part}
  {ss : List Selector} {s : Selector}

lemma Listed.exists_entry (h : Listed ls ss) (hs : s ∈ ss) :
    ∃ front es b next after, ls = front ++ (es ++ (b ++ next :: after)) ∧ Complex es s.parts ∧ Blank b ∧
      (next.token = .comma ∨ next.token = .eof) ∧
      s.text = String.ofList (Text.trim (Lexeme.writing es (b.headD next))) := by
  induction h with
  | @last ls e s' h he =>
    obtain rfl := List.mem_singleton.1 hs
    cases h with
    | @mk b₁ es b₂ _ ps h₁ hc h₂ =>
      exact ⟨b₁, es, b₂, e, [], by simp, hc, h₂, .inr he, rfl⟩
  | @more ls ms c s' ss h hcomma _ ih =>
    rcases List.mem_cons.1 hs with rfl | hs
    · cases h with
      | @mk b₁ es b₂ _ ps h₁ hc h₂ => exact ⟨b₁, es, b₂, c, ms, by simp, hc, h₂, .inl hcomma, rfl⟩
    · obtain ⟨front, es, b, next, after, rfl, hentry⟩ := ih hs
      exact ⟨ls ++ c :: front, es, b, next, after, by simp, hentry⟩

/-- The source of a selector in a list has the lexemes that the list has for it. -/
lemma Complex.exists_source (hc : Complex es ps) (h : Lexer.Reads place cs (es ++ (b ++ next :: after)) none)
    (hb : Blank b) (hn : next.token = .comma ∨ next.token = .eof) :
    ∃ ls e, Source (Lexeme.writing es (b.headD next)) ps ls e := by
  obtain ⟨init, m, hm, p, -, hends⟩ := hc.ends
  have hlast : ∀ l ∈ es.getLast?, l.token ≠ .whitespace := by
    intro l hl
    rw [hm, List.getLast?_concat] at hl
    cases hl
    exact hends.token_ne.1
  obtain ⟨e, he, hgap, hslice⟩ := h.slice hlast hb hn
  obtain ⟨l, tail, rfl, hl⟩ := hc.startsSimple_head
  have hwriting : (l :: tail).flatMap Lexeme.source ++ (b.headD next).gap =
      l.gap ++ Lexeme.writing (l :: tail) (b.headD next) := by
    simp [Lexeme.writing, Lexeme.source]
  rw [hwriting, List.cons_append] at hslice
  have hdrop := hslice.dropGap
  obtain ⟨ms, hms, hlike⟩ := hdrop.relocate .start
  rw [← List.cons_append] at hlike
  obtain ⟨ls, _, rfl, hls, hend⟩ := hlike.exists_append
  obtain ⟨e', rfl, he'⟩ := hend.exists_singleton
  have hhead : Complex (⟨l.token, [], l.text, l.start⟩ :: tail) ps := hc.congr_head rfl
  refine ⟨ls, e', hms, hhead.alike hls, (Lexeme.token_eq_of_bare he').trans he, ?_, ?_⟩
  · obtain ⟨-, rest, hs, -⟩ := hdrop.step
    obtain ⟨hblank, -, -⟩ | ⟨cs', htrivia, -⟩ := Lexer.step_eq_token_iff.1 hs
    · exact absurd hblank (of_startsSimple hl).1
    · have hcs := Lexer.trivia_append (Lexeme.writing (l :: tail) (b.headD next))
      rw [htrivia, Lexer.Trivia.taken, Lexer.Trivia.rest, List.nil_append] at hcs
      rwa [hcs] at htrivia
  · rw [hls.writing_eq he', Lexeme.writing, Lexeme.writing, hgap]

end Source

/-- The text ends inside the last name: the blanks at the end of the name are missing, as no comment and no argument
stands behind them. -/
def Clipped (s : Selector) : Prop :=
  ∃ p ∈ s.parts.getLast?, ∃ name ∈ p.name?, Text.endsBlank name.toList = true ∧
    ∀ c ∈ s.text.toList.getLast?, c ≠ ')' ∧ c ≠ '/'

instance (s : Selector) : Decidable s.Clipped :=
  -- only the last character is looked at, not all that there are
  have : Decidable (∀ c ∈ s.text.toList.getLast?, c ≠ ')' ∧ c ≠ '/') := Option.decidableForallMem _
  inferInstanceAs (Decidable (∃ p ∈ s.parts.getLast?, ∃ name ∈ p.name?, _ ∧ ∀ c ∈ s.text.toList.getLast?, _))

section Clipped
variable {front written blanks : List Char} {l : Lexeme} {p : Part} {ps : List Part} {w : Specificity}

lemma Ends.not_clipped (h : Ends l p) (hs : Lexer.Spelling l.token l.text) (hp : p ∈ ps.getLast?)
    (hne : l.text ≠ []) (hlast : Text.endsBlank l.text = false) :
    ¬ Clipped ⟨ps, w, String.ofList (front ++ l.text)⟩ := by
  rintro ⟨q, hq, name, hname, hblank, hend⟩
  obtain rfl : p = q := Option.some.inj (hp.symm.trans hq)
  by_cases hparen : l.token = .rightParen
  · obtain ⟨c, hc, -, hclose⟩ := hs.of_mark (.inr (.inr hparen))
    rw [String.toList_ofList, List.getLast?_append_of_ne_nil _ hne, hc] at hend
    exact (hend c rfl).1 (hclose hparen)
  · rw [(h.endsBlank_eq hs hname hparen).1, hlast] at hblank
    cases hblank

lemma Ends.clipped (h : Ends l p) (hs : Lexer.Spelling l.token l.text) (hp : p ∈ ps.getLast?)
    (hlast : Text.endsBlank l.text = true) (htext : l.text = written ++ blanks) (hne : written ≠ []) :
    Clipped ⟨ps, w, String.ofList (front ++ written)⟩ := by
  obtain ⟨-, name, -, hname, hparen⟩ := h.name_of_endsBlank hs hlast
  obtain ⟨heq, hchars⟩ := h.endsBlank_eq hs hname hparen
  refine ⟨p, hp, name, hname, heq.trans hlast, ?_⟩
  rw [String.toList_ofList, List.getLast?_append_of_ne_nil _ hne]
  intro c hc
  exact hchars c (htext ▸ List.mem_append_left _ (List.mem_of_getLast? hc))

end Clipped

namespace Source
variable {cs : List Char} {ps : List Part} {w : Specificity} {ls : List Lexeme} {e : Lexeme}

lemma head_not_blank (h : Source cs ps ls e) : ∀ c ∈ cs.head?, Text.isBlank c = false := by
  intro c hc
  obtain ⟨tail, rfl⟩ := List.head?_eq_some_iff.1 (Option.mem_def.1 hc)
  exact (Lexer.trivia_eq_stop h.stop).1

lemma parseList_eq (h : Source cs ps ls e) :
    parseList (String.ofList cs) = .ok [⟨ps, Part.tally ps, String.ofList (Text.trim cs)⟩] := by
  apply parseListAt_eq_ok_iff.2
  have hentry : Entry ([] ++ (ls ++ [])) e ⟨ps, Part.tally ps, String.ofList (Text.trim (Lexeme.writing ls e))⟩ :=
    .mk .none h.complex .none
  rw [List.append_nil, List.nil_append, h.writing] at hentry
  exact ⟨ls ++ [e], by rw [String.toList_ofList]; exact h.reads, .last hentry h.eof⟩

lemma ne_nil (h : Source cs ps ls e) : cs ≠ [] := by
  obtain ⟨front, m, rfl, p, -, hends⟩ := h.complex.ends
  obtain ⟨hcs, -⟩ := h.reads.last hends.token_ne h.eof
  have htext : m.text ≠ [] := h.reads.row.text_ne_nil h.reads.row.ne_eof m (by simp)
  simp [hcs, htext]

lemma trim_eq_self (h : Source cs ps ls e) (hlast : Text.endsBlank cs = false) : Text.trim cs = cs := by
  have htrim : Text.trim (cs ++ []) = cs := Text.trim_append h.head_not_blank hlast (by simp) h.ne_nil
  rwa [List.append_nil] at htrim

/-- Behind comments nothing is cut off, and else only what the last lexeme has at its end. -/
lemma trim_cases (h : Source cs ps ls e) :
    (Text.trim cs = cs ∧ ¬ Clipped ⟨ps, w, String.ofList cs⟩) ∨
      ∃ front m name written blanks, ls = front ++ [m] ∧ m.token.name? = some name ∧ m.text = written ++ blanks ∧
        written ≠ [] ∧ blanks ≠ [] ∧ (∀ c ∈ blanks, Text.isBlank c = true) ∧ e.gap = [] ∧
        Text.trim cs = front.flatMap Lexeme.source ++ (m.gap ++ written) ∧
        Clipped ⟨ps, w, String.ofList (Text.trim cs)⟩ := by
  obtain ⟨front, m, rfl, p, hp, hends⟩ := h.complex.ends
  obtain ⟨hcs, htrivia, hread, hgap⟩ := h.reads.last hends.token_ne h.eof
  have hspelling := Lexer.spelling_of_readToken hread hends.token_ne.2
  have htext : m.text ≠ [] := h.reads.row.text_ne_nil h.reads.row.ne_eof m (by simp)
  by_cases hnil : e.gap = []
  · rw [hnil, List.append_nil] at htrivia
    rw [hnil, List.append_nil, ← List.append_assoc] at hcs
    obtain ⟨written, blanks, hm, hwritten, hblanks⟩ := Text.exists_blanks m.text
    have hne : written ≠ [] := by
      rintro rfl
      obtain ⟨c, tail, htail⟩ := List.exists_cons_of_ne_nil htext
      have hstop := Lexer.trivia_rest htrivia
      rw [htail] at hstop
      have hblank := hblanks c (by rw [← List.nil_append blanks, ← hm, htail]; exact List.mem_cons_self)
      rw [(Lexer.trivia_eq_stop hstop).1] at hblank
      cases hblank
    by_cases hnone : blanks = []
    · left
      rw [hnone, List.append_nil] at hm
      rw [← hm] at hwritten
      have hlast : Text.endsBlank cs = false := by rwa [hcs, Text.endsBlank_append htext]
      exact ⟨h.trim_eq_self hlast, hcs ▸ hends.not_clipped hspelling hp htext hwritten⟩
    · right
      have hblank : Text.endsBlank m.text = true := by
        obtain ⟨init, c, rfl⟩ := (List.eq_nil_or_concat' blanks).resolve_left hnone
        rw [hm, Text.endsBlank_append hnone, Text.endsBlank, List.getLast?_concat]
        exact hblanks c (by simp)
      obtain ⟨name, -, hname, -⟩ := hends.name_of_endsBlank hspelling hblank
      have hkept : front.flatMap Lexeme.source ++ m.gap ++ written ≠ [] := by simp [hne]
      rw [hm, ← List.append_assoc] at hcs
      have htrim : Text.trim cs = front.flatMap Lexeme.source ++ m.gap ++ written := by
        have hhead := h.head_not_blank
        rw [hcs, List.head?_append_of_ne_nil _ hkept] at hhead
        rw [hcs]
        exact Text.trim_append hhead (by rwa [Text.endsBlank_append hne]) hblanks hkept
      have hclipped : Clipped ⟨ps, w, String.ofList (front.flatMap Lexeme.source ++ m.gap ++ written)⟩ :=
        hends.clipped hspelling hp hblank hm hne
      refine ⟨front, m, name, written, blanks, rfl, hname, hm, hne, hnone, hblanks, hnil, ?_, htrim ▸ hclipped⟩
      rw [htrim, List.append_assoc]
  · left
    have hslash := Lexer.getLast?_comments hgap hnil
    have hend : cs.getLast? = some '/' := by
      rw [hcs, ← List.append_assoc, ← List.append_assoc, List.getLast?_append_of_ne_nil _ hnil, hslash]
    refine ⟨h.trim_eq_self (by rw [Text.endsBlank, hend]; rfl), ?_⟩
    rintro ⟨q, -, name, -, -, hlast⟩
    rw [String.toList_ofList, hend] at hlast
    exact (hlast '/' rfl).2 rfl

/-- With its last name clipped the source is not that of the same selector. -/
lemma parts_ne_of_clipped (h : Source cs ps ls e) (hclipped : Clipped ⟨ps, w, String.ofList (Text.trim cs)⟩)
    {ms : List Lexeme} {s : Selector} (hms : Lexer.Reads .start (Text.trim cs) ms none) (hs : Listed ms [s]) :
    s.parts ≠ ps := by
  obtain ⟨htrim, hnot⟩ | ⟨front, m, name, written, blanks, rfl, hname, hm, hne, hnone, hblanks, hgap, htrim, -⟩ :=
    h.trim_cases (w := w)
  · rw [htrim] at hclipped
    exact absurd hclipped hnot
  · obtain ⟨m', e', hreads, hm'⟩ := h.reads.clip hname h.eof hgap hm hne hnone hblanks
    rw [htrim] at hms
    obtain rfl := hms.unique hreads
    have hword : m'.token ≠ .whitespace := by
      intro hblank
      simp [hblank, Token.name?] at hm'
    have hs' : Listed (front ++ [m'] ++ [e']) [s] := by simpa using hs
    obtain ⟨p', hp', hends'⟩ := hs'.ends hword
    rintro rfl
    obtain ⟨front', l, hl, p, hp, hends⟩ := h.complex.ends
    obtain rfl := List.singleton_inj.1 (List.append_inj' hl rfl).2
    obtain rfl : p = p' := Option.some.inj (hp.symm.trans hp')
    obtain ⟨full, hfull, hlength⟩ := hends.length_name hname
    rcases hm' with ⟨name', hname', hless⟩ | ⟨c, hc, hstar⟩
    · obtain ⟨short, hshort, hlength'⟩ := hends'.length_name hname'
      obtain rfl : full = short := Option.some.inj (hfull.symm.trans hshort)
      omega
    · cases hends' with
      | name h _ _ => simp [hc, Token.name?] at h
      | mark h _ => simp [hc, hstar] at h
      | paren h => simp [hc] at h

end Source

lemma parse_eq_ok_iff {text : String} {s : Selector} : parse text = .ok s ↔ parseList text = .ok [s] := by
  constructor
  · intro h
    obtain ⟨ss, hss, h⟩ := of_bind_eq_ok h
    split at h
    · cases h
      exact hss
    · cases h
  · intro h
    rw [parse, h]
    rfl

/-- A selector of a list is read again from its own text, with the same parts and the same text, exactly if its last
name has not lost blanks at its end. -/
theorem parse_text_eq_ok_iff_not_clipped {input : String} {ss : List Selector} (h : parseList input = .ok ss) :
    ∀ s ∈ ss, parse s.text = .ok s ↔ ¬ s.Clipped := by
  intro s hs
  obtain ⟨ls, hreads, hlisted⟩ := parseListAt_eq_ok_iff.1 h
  obtain ⟨front, es, b, next, after, rfl, hc, hb, hn, htext⟩ := hlisted.exists_entry hs
  obtain ⟨l, tail, rfl, -⟩ := hc.startsSimple_head
  obtain ⟨rest, -, hentry⟩ := hreads.behind hreads.row.ne_eof
  obtain ⟨ms, e, hsource⟩ := hc.exists_source hentry hb hn
  have hweight := (hlisted.joined_and_weight s hs).2
  obtain ⟨ps, w, text⟩ := s
  obtain rfl : w = Part.tally ps := hweight
  obtain rfl : text = _ := htext
  rw [parse_eq_ok_iff]
  constructor
  · intro hparse hclipped
    obtain ⟨ms, hms, hlisted⟩ := parseListAt_eq_ok_iff.1 hparse
    rw [String.toList_ofList] at hms
    exact hsource.parts_ne_of_clipped hclipped hms hlisted rfl
  · intro hnot
    obtain ⟨htrim, -⟩ | ⟨_, _, _, _, _, _, _, _, _, _, _, _, _, hclipped⟩ := hsource.trim_cases
    · have hparse := hsource.parseList_eq
      rw [htrim] at hparse ⊢
      exact hparse
    · exact absurd hclipped hnot

/-- A comment keeps the blank at the end of the first name from being cut off. -/
theorem parse_text_eq_ok_iff_not_clipped_comment :
    let kept : Selector := ⟨[.typeName "a\u00a0"], ⟨0, 0, 1⟩, "a\u00a0/**/"⟩
    let cut : Selector := ⟨[.className "on", .pseudoClass "b\u00a0" none], ⟨0, 2, 0⟩, ".on:B"⟩
    parseList " a\u00a0/**/,.on:B\u00a0\n" = .ok [kept, cut] ∧ parse kept.text = .ok kept ∧ parse cut.text ≠ .ok cut := by
  intro kept cut
  have hparse : parseList " a\u00a0/**/,.on:B\u00a0\n" = .ok [kept, cut] := by decide +kernel
  have hiff := parse_text_eq_ok_iff_not_clipped hparse
  have hkept : ¬ kept.Clipped := by decide +kernel
  have hcut : cut.Clipped := by decide +kernel
  refine ⟨hparse, (hiff kept (by simp)).2 hkept, ?_⟩
  intro hread
  exact (hiff cut (by simp)).1 hread hcut

/-- A name with a blank at its end is cut off in the text. -/
theorem parse_text_shortens_name :
    parseList "a\u00a0" = .ok [⟨[.typeName "a\u00a0"], ⟨0, 0, 1⟩, "a"⟩] ∧
      parse "a" = .ok ⟨[.typeName "a"], ⟨0, 0, 1⟩, "a"⟩ := by
  decide +kernel

end Selector

end Stylebook
