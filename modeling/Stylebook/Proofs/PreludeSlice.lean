import Stylebook.Proofs.CondensedText
import Stylebook.Proofs.LexerTiling
import Stylebook.Proofs.StylesheetGrammar

/-! The source in front of a rule's block is read twice: with the rest of the stylesheet in view, and once more on its
own, cut off in front of the brace. Both give the same lexemes, so the second reading meets no defect of a token. -/
namespace Stylebook

/-- The same token in a text of which `n` bytes have been taken off the front. -/
structure Lexeme.Shifted (n : ℕ) (m l : Lexeme) : Prop where
  token : m.token = l.token
  text : m.text = l.text
  start : m.start.offset + n = l.start.offset
  after : m.after.offset + n = l.after.offset

namespace Lexer

section Trivia
variable {cs taken rest : List Char} {blank : Bool}

/-- A comment is complete without what follows it. -/
lemma closeComment_body {body : List Char} (h : closeComment cs = some (body, rest)) :
    closeComment body = some (body, []) := by
  fun_induction closeComment cs generalizing body rest with
  | case1 => cases h
  | case2 tail =>
    cases h
    rfl
  | case3 c tail hc ih =>
    obtain ⟨⟨b, r⟩, hb, he⟩ := Option.map_eq_some_iff.1 h
    cases he
    rw [closeComment]
    · simp [ih hb]
    · rintro b' hc' rfl
      exact hc (b' ++ rest) hc' (closeComment_append hb).symm

lemma comment?_self {comment : List Char} (h : comment? cs = some (comment, rest)) :
    comment? comment = some (comment, []) := by
  unfold comment? at h
  split at h
  · obtain ⟨⟨b, r⟩, hb, he⟩ := Option.map_eq_some_iff.1 h
    cases he
    simp [comment?, closeComment_body hb]
  · cases h

/-- So are blanks with the comments among them. -/
lemma trivia_taken (h : trivia cs = .run taken blank rest) : trivia taken = .run taken blank [] := by
  fun_induction trivia cs generalizing taken blank rest with
  | case1 =>
    cases h
    exact trivia_nil
  | case2 c tail hc ih =>
    cases ht : trivia tail with
    | run taken' blank' rest' =>
      simp only [ht, Trivia.push, Trivia.run.injEq] at h
      obtain ⟨rfl, rfl, rfl⟩ := h
      rw [List.singleton_append, trivia_of_isBlank hc, ih ht]
      rfl
    | unclosed before comment => simp [ht, Trivia.push] at h
  | case3 c tail hc comment after hcomment ih =>
    cases ht : trivia after with
    | run taken' blank' rest' =>
      simp only [ht, Trivia.push, Trivia.run.injEq] at h
      obtain ⟨rfl, rfl, rfl⟩ := h
      have hself := comment?_more taken' (comment?_self hcomment)
      obtain ⟨d, body, rfl⟩ := List.exists_cons_of_ne_nil (comment?_ne_nil hcomment)
      obtain rfl : d = c := by
        have hhead := comment?_append hcomment
        exact (List.cons.inj hhead).1
      rw [List.nil_append, List.cons_append] at hself
      rw [List.cons_append, trivia_of_comment (by simpa using hc) hself, ih ht]
      rfl
    | unclosed before comment => simp [ht, Trivia.push] at h
  | case4 => cases h
  | case5 =>
    cases h
    exact trivia_nil

end Trivia

/-! ## Text behind some lexemes, replaced -/

section Replace
variable {p : Location} {cs cs' rest rest' gap text : List Char} {t : Token}

lemma trivia_stop_condenses {c : Char} (h : trivia (c :: cs) = .run [] false (c :: cs)) (hcs : Condenses cs cs') :
    trivia (c :: cs') = .run [] false (c :: cs') := by
  obtain ⟨hblank, hopens⟩ := trivia_eq_stop h
  exact trivia_of_stop hblank (opensComment_condenses hcs hopens)

/-- A token is read as it was in front of condensed text. Behind blanks the text must not go on with more of them. -/
lemma step_replace (h : step cs = .token gap t text rest) (ht : t ≠ .eof) (hr : Condenses rest rest')
    (hw : t = .whitespace → trivia rest' = .run [] false rest') :
    step (gap ++ text ++ rest') = .token gap t text rest' := by
  apply step_eq_token_iff.2
  obtain ⟨rfl, rfl, hblank⟩ | ⟨cs₁, htrivia, hread⟩ := step_eq_token_iff.1 h
  · left
    refine ⟨rfl, rfl, ?_⟩
    rw [List.nil_append, trivia_more rest' (trivia_taken hblank), List.nil_append, hw rfl]
    simp [Trivia.push]
  · right
    obtain rfl : text ++ rest = cs₁ := by
      have htiles := readToken_tiles cs₁
      rwa [hread] at htiles
    obtain ⟨c, text, rfl⟩ := List.exists_cons_of_ne_nil (step_text_ne_nil h ht)
    have hread' := readToken_condenses (by rw [hread])
      (show Condenses (readToken (c :: text ++ rest)).rest rest' by rwa [hread])
    rw [hread] at hread'
    have hstop : trivia (c :: text ++ rest') = .run [] false (c :: text ++ rest') :=
      trivia_stop_condenses (trivia_rest htrivia) (hr.append text)
    refine ⟨c :: text ++ rest', ?_, hread'⟩
    rw [List.append_assoc, trivia_more (c :: text ++ rest') (trivia_taken htrivia), List.nil_append, hstop]
    simp [Trivia.push]

/-- The lexemes in front of condensed text are those in front of the text itself. -/
lemma Reads.replace {ls tail ms : List Lexeme} {stop stop' : Option Fault}
    (h : Reads p (ls.flatMap Lexeme.source ++ rest) (ls ++ tail) stop) (hls : ∀ l ∈ ls, l.token ≠ .eof)
    (hr : Condenses rest rest') (hw : ∀ l ∈ ls.getLast?, l.token = .whitespace → trivia rest' = .run [] false rest')
    (hms : Reads (p.past (ls.flatMap Lexeme.source)) rest' ms stop') :
    Reads p (ls.flatMap Lexeme.source ++ rest') (ls ++ ms) stop' := by
  induction ls generalizing p with
  | nil => exact hms
  | cons l ls ih =>
    obtain ⟨hl, hls⟩ := List.forall_mem_cons.1 hls
    obtain ⟨rfl, rest₁, hs, hrest⟩ := h.step
    rw [if_neg hl] at hrest
    obtain rfl : ls.flatMap Lexeme.source ++ rest = rest₁ := by
      have hcs := step_append ((l :: ls).flatMap Lexeme.source ++ rest)
      rw [hs] at hcs
      simpa [Step.taken, Step.rest, Lexeme.source] using hcs.symm
    have hafter : l.after.past (ls.flatMap Lexeme.source) = l.before.past ((l :: ls).flatMap Lexeme.source) := by
      simp [Lexeme.after, Lexeme.start, Lexeme.source]
    have hcondenses := hr.append (ls.flatMap Lexeme.source)
    have hnext : l.token = .whitespace → trivia (ls.flatMap Lexeme.source ++ rest') =
        .run [] false (ls.flatMap Lexeme.source ++ rest') := by
      intro hblank
      cases ls with
      | nil => exact hw l rfl hblank
      | cons m ls =>
        have hm : m.text ≠ [] := hrest.row.text_ne_nil hls m List.mem_cons_self
        obtain ⟨c, cs, hsource⟩ : ∃ c cs, (m :: ls).flatMap Lexeme.source = c :: cs := by
          apply List.exists_cons_of_ne_nil
          simp [Lexeme.source, hm]
        rw [hblank] at hs
        have hstop := trivia_rest (trivia_of_step_whitespace hs)
        rw [hsource] at hstop ⊢
        exact trivia_stop_condenses hstop (hr.append cs)
    have hstep := step_replace hs hl hcondenses hnext
    have hlast : ∀ m ∈ ls.getLast?, m.token = .whitespace → trivia rest' = .run [] false rest' := by
      intro m hm
      exact hw m (by rw [List.getLast?_cons, Option.mem_def.1 hm]; rfl)
    have hreads := reads_of_step hstep hl (ih hrest hls hlast (by rwa [hafter]))
    simpa [Lexeme.source] using hreads

end Replace

/-! ## Up to a mark -/

section Mark
variable {cs gap text rest : List Char} {c : Char} {t : Token}

/-- A mark is read from its own character. -/
lemma readToken_eq_mark (hc : Token.punctuation? c = some t) (h : readToken cs = ⟨.ok t, text, rest⟩) :
    cs = c :: rest := by
  have ht : t.isWord = false ∧ t ≠ .eof := by
    unfold Token.punctuation? at hc
    split at hc <;> cases hc <;> exact ⟨rfl, nofun⟩
  cases cs with
  | nil =>
    cases h
    exact absurd rfl ht.2
  | cons d cs =>
    obtain hd | hw := readToken_cons (by rw [h] : (readToken (d :: cs)).value = .ok t)
    · rw [readToken_of_mark hd] at h
      cases h
      unfold Token.punctuation? at hc hd
      split at hd <;> cases hd <;> (split at hc <;> cases hc; rfl)
    · simp [ht.1] at hw

lemma trivia_of_step_mark (hc : Token.punctuation? c = some t) (h : step cs = .token gap t text rest) :
    trivia cs = .run gap false (c :: rest) := by
  obtain ⟨rfl, -, -⟩ | ⟨cs', htrivia, hread⟩ := step_eq_token_iff.1 h
  · unfold Token.punctuation? at hc
    split at hc <;> cases hc
  · obtain rfl := readToken_eq_mark hc hread
    exact htrivia

/-- In front of a comma or a brace there may be comments, which end the text that is cut off there. -/
lemma step_mark (hc : Token.punctuation? c = some t) (hcut : isCutMark c = true)
    (h : step cs = .token gap t text rest) :
    cs = gap ++ c :: rest ∧ Condenses cs gap ∧ step gap = .token gap .eof [] [] := by
  have htrivia := trivia_of_step_mark hc h
  have hcs := trivia_append cs
  rw [htrivia] at hcs
  have hcondenses := (Condenses.cut (trivia_rest htrivia) hcut).append gap
  rw [List.append_nil] at hcondenses
  exact ⟨hcs.symm, hcs ▸ hcondenses, step_eq_token_iff.2 (.inr ⟨[], trivia_taken htrivia, rfl⟩)⟩

end Mark

section Reads
variable {p q : Location} {cs : List Char} {l b : Lexeme} {ls tail : List Lexeme} {stop : Option Fault}

/-- Behind blanks there are neither more of them nor comments. -/
lemma Reads.stop_of_whitespace {w : Lexeme} {rest : List Char} (h : Reads p cs (ls ++ tail) stop)
    (hls : ∀ l ∈ ls, l.token ≠ .eof) (hlast : w ∈ ls.getLast?) (hw : w.token = .whitespace)
    (hcs : cs = ls.flatMap Lexeme.source ++ rest) : trivia rest = .run [] false rest := by
  obtain ⟨front, rfl⟩ := List.getLast?_eq_some_iff.1 (Option.mem_def.1 hlast)
  rw [List.append_assoc] at h
  obtain ⟨cs₁, rfl, hfront⟩ := h.behind (fun l hl => hls l (List.mem_append_left _ hl))
  obtain ⟨-, rest₁, hs, -⟩ := hfront.step
  have htaken := step_append cs₁
  rw [hs] at htaken
  obtain rfl : rest₁ = rest := by
    rw [← htaken] at hcs
    simpa [Step.taken, Step.rest, Lexeme.source] using hcs
  rw [hw] at hs
  exact trivia_rest (trivia_of_step_whitespace hs)

/-- The lexemes in front of a brace are read from the text that is cut off there. -/
lemma Reads.cut (h : Reads p cs (ls ++ b :: tail) stop) (hb : b.token = .leftBrace) :
    ∃ more, cs = ls.flatMap Lexeme.source ++ b.gap ++ '{' :: more ∧
      Reads p (ls.flatMap Lexeme.source ++ b.gap) (ls ++ [⟨.eof, b.gap, [], b.before⟩]) none := by
  have hinner : ∀ l ∈ ls, l.token ≠ .eof := h.row.ne_eof
  obtain ⟨rest, rfl, hrest⟩ := h.behind hinner
  obtain ⟨hbefore, more, hs, -⟩ := hrest.step
  rw [hb] at hs
  obtain ⟨rfl, hcondenses, hend⟩ := step_mark (c := '{') rfl rfl hs
  refine ⟨more, by simp, h.replace hinner hcondenses ?_ (hbefore ▸ reads_of_step_eof hend)⟩
  -- behind blanks there is no comment, and the brace follows them at once
  intro w hw hblank
  have hstop := h.stop_of_whitespace hinner hw hblank rfl
  obtain ⟨hgap, -, -⟩ := Trivia.run.inj (hstop.symm.trans (trivia_of_step_mark (c := '{') rfl hs))
  rw [← hgap]
  exact trivia_nil

/-- A text may begin at its first token as well as at the comments in front of it. -/
lemma Reads.dropGap (h : Reads p (l.gap ++ cs) (l :: ls) none) :
    Reads l.start cs (⟨l.token, [], l.text, l.start⟩ :: ls) none := by
  obtain ⟨rfl, rest, hs, hrest⟩ := h.step
  have hstep : Lexer.step cs = .token [] l.token l.text rest := by
    obtain ⟨ht, hgap, hblank⟩ | ⟨cs', htrivia, hread⟩ := step_eq_token_iff.1 hs
    · rwa [hgap, List.nil_append] at hs
    · obtain rfl : cs' = cs := by
        have hcs := trivia_append (l.gap ++ cs)
        rw [htrivia] at hcs
        exact List.append_cancel_left hcs
      exact step_eq_token_iff.2 (Or.inr ⟨cs', trivia_rest htrivia, hread⟩)
  split_ifs at hrest with he
  · obtain ⟨rfl, -⟩ := hrest
    rw [he] at hstep ⊢
    exact reads_of_step_eof hstep
  · exact reads_of_step hstep he hrest

/-- A text that begins earlier by some bytes has its lexemes earlier by as many. -/
lemma Reads.shift {n : ℕ} (h : Reads p cs ls none) (hq : q.offset + n = p.offset) :
    ∃ ms, Reads q cs ms none ∧ List.Forall₂ (Lexeme.Shifted n) ms ls := by
  induction ls generalizing p q cs with
  | nil => cases h.stop_isSome
  | cons l ls ih =>
    obtain ⟨rfl, rest, hs, hrest⟩ := h.step
    have hshifted : Lexeme.Shifted n ⟨l.token, l.gap, l.text, q⟩ l := by
      constructor
      · rfl
      · rfl
      · simp only [Lexeme.start, Location.offset_past]
        omega
      · simp only [Lexeme.after, Lexeme.start, Location.offset_past]
        omega
    split_ifs at hrest with hl
    · obtain ⟨rfl, -⟩ := hrest
      rw [hl] at hs hshifted
      exact ⟨_, reads_of_step_eof hs, .cons hshifted .nil⟩
    · obtain ⟨ms, hms, htail⟩ := ih hrest hshifted.after
      exact ⟨_, reads_of_step hs hl hms, .cons hshifted htail⟩

/-- What is written from the first of some lexemes up to a brace has these lexemes, and no others. -/
lemma Reads.again {n : ℕ} (h : Reads p cs (ls ++ b :: tail) stop) (hb : b.token = .leftBrace)
    (hn : ∀ l ∈ ls.head?, l.start.offset = n) :
    ∃ ms e, Reads .start (Lexeme.writing ls b) (ms ++ [e]) none ∧ List.Forall₂ (Lexeme.Shifted n) ms ls ∧
      e.token = .eof := by
  cases ls with
  | nil => exact ⟨[], _, reads_of_step_eof step_nil, .nil, rfl⟩
  | cons l ls =>
    obtain ⟨more, -, hcut⟩ := h.cut hb
    have hwriting : (l :: ls).flatMap Lexeme.source ++ b.gap = l.gap ++ Lexeme.writing (l :: ls) b := by
      simp [Lexeme.writing, Lexeme.source]
    rw [hwriting] at hcut
    have hstart : Location.start.offset + n = l.start.offset := by
      rw [hn l rfl]
      exact Nat.zero_add n
    obtain ⟨ms, hms, hshifted⟩ := hcut.dropGap.shift hstart
    obtain ⟨m, ms, hm, htail, rfl⟩ := List.forall₂_cons_right_iff.1 hshifted
    have hfront := List.forall₂_take_append _ ls _ htail
    obtain ⟨e, _, he, hnil, hlast⟩ := List.forall₂_cons_right_iff.1 (List.forall₂_drop_append _ ls _ htail)
    cases hnil
    refine ⟨m :: ms.take ls.length, e, ?_, .cons ⟨hm.token, hm.text, hm.start, hm.after⟩ hfront, he.token⟩
    rw [List.cons_append, ← hlast, List.take_append_drop]
    exact hms

/-- It lies between the first of them and the brace. -/
lemma Reads.covers_writing {text : String} {passed : List Char} {first : Lexeme} (htext : text.toList = passed ++ cs)
    (h : Reads (Location.start.past passed) cs (ls ++ b :: tail) stop) (hb : b.token = .leftBrace)
    (hf : (ls ++ b :: tail).head? = some first) :
    Covers text first.start.offset b.start.offset (Lexeme.writing ls b) := by
  obtain ⟨more, rfl, -⟩ := h.cut hb
  obtain ⟨rest, -, hrest⟩ := h.behind (h.row.ne_eof)
  have hbefore : b.before = (Location.start.past passed).past (ls.flatMap Lexeme.source) := hrest.step.1
  cases ls with
  | nil =>
    cases hf
    have hgap : text.toList = (passed ++ b.gap) ++ ([] ++ '{' :: more) := by simpa using htext
    exact covers_of_past _ hgap (by simp [Lexeme.start, hbefore]) rfl
  | cons l ls =>
    obtain rfl : l = first := Option.some.inj hf
    have hfirst : l.before = Location.start.past passed := h.step.1
    have hwriting : text.toList = (passed ++ l.gap) ++ (Lexeme.writing (l :: ls) b ++ '{' :: more) := by
      simpa [Lexeme.writing, Lexeme.source] using htext
    apply covers_of_past _ hwriting
    · simp [Lexeme.start, hfirst]
    · simp [Lexeme.start, Lexeme.writing, Lexeme.source, hbefore, hfirst]

end Reads

end Lexer

/-! ## What selectors are refused for -/

/-- Whether a text is refused for its tokens, before anything is made of them. -/
def Cause.isLexical : Cause → Bool
  | .unterminatedString | .unterminatedComment | .invalidNumber _ | .url _ => true
  | _ => false

/-- A result has a property, or it is refused for something else than a token. -/
def Clean {α : Type} (post : α → Prop) : Except Fault α → Prop
  | .ok a => post a
  | .error fault => fault.cause.isLexical = false

lemma Clean.bind {α β : Type} {P : α → Prop} {Q : β → Prop} {x : Except Fault α} {k : α → Except Fault β}
    (hx : Clean P x) (hk : ∀ a, P a → Clean Q (k a)) : Clean Q (x >>= k) := by
  cases x with
  | error fault => exact hx
  | ok a => exact hk a hx

lemma Clean.of_eq {α : Type} {P : α → Prop} {x y : Except Fault α} (hx : Clean P x) (h : x = y) : Clean P y :=
  h ▸ hx

namespace Feed
variable {f : Feed}

/-- Without a fault ahead, there is none behind the next lexeme either. -/
lemma advance_clean (hf : f.stop = none) : Clean (fun g => g.stop = none) f.advance := by
  unfold advance
  rw [hf]
  split
  · rfl
  · next h => cases h
  · rfl

lemma skipBlank_clean (hf : f.stop = none) : Clean (fun g => g.stop = none) f.skipBlank := by
  unfold skipBlank
  split_ifs
  · exact advance_clean hf
  · exact hf

end Feed

namespace Selector
open Feed (advance_clean skipBlank_clean)

section Clean
variable {f : Feed} {name : String}

lemma arguments_clean {depth : Nat} (hf : f.stop = none) :
    Clean (fun r => r.2.stop = none) (arguments depth f) := by
  fun_induction arguments depth f with
  | case1 => rfl
  | case2 depth f he fault ha => exact (advance_clean hf).of_eq ha
  | case3 depth f he g ha hend => exact (advance_clean hf).of_eq ha
  | case4 depth f he g ha hend ih =>
    have hg : g.stop = none := (advance_clean hf).of_eq ha
    exact (ih hg).bind fun r hr => hr

lemma argumentText_clean (hf : f.stop = none) : Clean (fun r => r.2.stop = none) (argumentText f) :=
  (arguments_clean hf).bind fun _ hr => hr

lemma attributeTest_clean (hf : f.stop = none) : Clean (fun r => r.2.stop = none) (attributeTest name f) := by
  unfold attributeTest
  split
  · split_ifs
    · exact (advance_clean hf).bind fun g hg => hg
    · split
      · rfl
      · apply (advance_clean hf).bind
        intro g hg
        apply (advance_clean hg).bind
        intro h hh
        split_ifs
        · exact hh
        · rfl
  · exact hf

lemma attributeValue_clean (hf : f.stop = none) : Clean (fun r => r.2.stop = none) (attributeValue name f) := by
  apply (advance_clean hf).bind
  intro g hg
  split
  · exact hg
  · exact hg
  · exact hg
  · exact hg
  · exact hg
  · rfl

lemma closeAttribute_clean (hf : f.stop = none) : Clean (fun g => g.stop = none) (closeAttribute name f) := by
  apply (skipBlank_clean hf).bind
  intro g hg
  apply (advance_clean hg).bind
  intro h hh
  split_ifs
  · exact hh
  · rfl

lemma attributePart_clean (hf : f.stop = none) : Clean (fun r => r.2.stop = none) (attributePart f) := by
  apply (skipBlank_clean hf).bind
  intro f₁ h₁
  apply (advance_clean h₁).bind
  intro f₂ h₂
  split
  · apply (skipBlank_clean h₂).bind
    intro f₃ h₃
    apply (attributeTest_clean h₃).bind
    rintro ⟨test, f₄⟩ h₄
    cases test with
    | none => exact (closeAttribute_clean h₄).bind fun g hg => hg
    | some test =>
      apply (skipBlank_clean h₄).bind
      intro f₅ h₅
      apply (attributeValue_clean h₅).bind
      rintro ⟨value, f₆⟩ h₆
      exact (closeAttribute_clean h₆).bind fun g hg => hg
  · rfl

lemma pseudoName_clean {element : Bool} (hf : f.stop = none) :
    Clean (fun r => r.2.stop = none) (pseudoName element f) := by
  apply (advance_clean hf).bind
  intro g hg
  split
  · exact hg
  · exact (argumentText_clean hg).bind fun r hr => hr
  · rfl

lemma pseudo_clean (hf : f.stop = none) : Clean (fun r => r.2.stop = none) (pseudo f) := by
  unfold pseudo
  split_ifs
  · exact (advance_clean hf).bind fun g hg => pseudoName_clean hg
  · exact pseudoName_clean hf

lemma classPart_clean (hf : f.stop = none) : Clean (fun r => r.2.stop = none) (classPart f) := by
  apply (advance_clean hf).bind
  intro g hg
  split
  · exact hg
  · rfl

lemma simple?_clean (hf : f.stop = none) : Clean (fun r => ∀ q ∈ r, q.2.stop = none) (simple? f) := by
  have hadvance := advance_clean hf
  have hsome {p : Part × Specificity} {g : Feed} (hg : g.stop = none) : ∀ q ∈ some (p, g), q.2.stop = none := by
    simpa using hg
  have hnone : ∀ q ∈ (none : Option ((Part × Specificity) × Feed)), q.2.stop = none := by simp
  unfold simple?
  split
  · exact hadvance.bind fun g hg => hsome hg
  · exact hadvance.bind fun g hg => hsome hg
  · exact hadvance.bind fun g hg => (attributePart_clean hg).bind fun r hr => hsome hr
  · exact hadvance.bind fun g hg => (pseudo_clean hg).bind fun r hr => hsome hr
  · split_ifs
    · exact hadvance.bind fun g hg => hsome hg
    · exact hadvance.bind fun g hg => (classPart_clean hg).bind fun r hr => hsome hr
    · exact hnone
  · exact hnone

lemma simples_clean {weight : Specificity} (hf : f.stop = none) :
    Clean (fun r => r.2.2.stop = none) (simples weight f) := by
  fun_induction simples weight f with
  | case1 weight f fault hs => exact (simple?_clean hf).of_eq hs
  | case2 => exact hf
  | case3 weight f p w g hs ih =>
    have hg : g.stop = none := (simple?_clean hf).of_eq hs _ rfl
    exact (ih hg).bind fun r hr => hr

lemma compound_clean {weight : Specificity} (hf : f.stop = none) :
    Clean (fun r => r.2.2.stop = none) (compound weight f) := by
  unfold compound
  split
  · next hs => exact (simple?_clean hf).of_eq hs
  · rfl
  · next p w g hs =>
    have hg : g.stop = none := (simple?_clean hf).of_eq hs _ rfl
    exact (simples_clean hg).bind fun r hr => hr

lemma joint_clean (hf : f.stop = none) : Clean (fun r => r.2.stop = none) (joint f) := by
  apply (skipBlank_clean hf).bind
  intro g hg
  split
  · exact hg
  · split
    · exact (advance_clean hg).bind fun h hh => (skipBlank_clean hh).bind fun r hr => hr
    · exact hg

lemma tail_clean {weight : Specificity} (hf : f.stop = none) :
    Clean (fun r => r.2.2.2.stop = none) (tail weight f) := by
  fun_induction tail weight f with
  | case1 weight f fault hj => exact (joint_clean hf).of_eq hj
  | case2 weight f g hj => exact (joint_clean hf).of_eq hj
  | case3 weight f lead g hj fault hc =>
    have hg : g.stop = none := (joint_clean hf).of_eq hj
    exact (compound_clean hg).of_eq hc
  | case4 weight f lead g hj ps sum h hc ih =>
    have hg : g.stop = none := (joint_clean hf).of_eq hj
    have hh : h.stop = none := (compound_clean hg).of_eq hc
    exact (ih hh).bind fun r hr => hr

lemma complex_clean (hf : f.stop = none) : Clean (fun r => r.2.stop = none) (complex f) := by
  unfold complex
  split_ifs
  · rfl
  · split
    · exact (advance_clean hf).bind fun g _ => rfl
    · apply (compound_clean hf).bind
      rintro ⟨ps, sum, g⟩ hg
      exact (tail_clean hg).bind fun r hr => hr

lemma list_clean (hf : f.stop = none) : Clean (fun _ => True) (list f) := by
  fun_induction list f with
  | case1 f fault hb => exact (skipBlank_clean hf).of_eq hb
  | case2 f g hb fault hc =>
    have hg : g.stop = none := (skipBlank_clean hf).of_eq hb
    exact (complex_clean hg).of_eq hc
  | case3 f g hb s next hc ht fault ha =>
    have hg : g.stop = none := (skipBlank_clean hf).of_eq hb
    have hnext : next.stop = none := (complex_clean hg).of_eq hc
    exact (advance_clean hnext).of_eq ha
  | case4 f g hb s next hc ht after ha ih =>
    have hg : g.stop = none := (skipBlank_clean hf).of_eq hb
    have hnext : next.stop = none := (complex_clean hg).of_eq hc
    have hafter : after.stop = none := (advance_clean hnext).of_eq ha
    exact (ih hafter).bind fun _ _ => trivial
  | case5 => trivial

end Clean

/-- A text without defects is refused for its selectors alone, wherever it stands. -/
lemma parseListAt_clean {p : Location} {cs : List Char} {ls : List Lexeme} (h : Lexer.Reads p cs ls none)
    (place : Location) : Clean (fun _ => True) (parseListAt place cs) := by
  obtain ⟨ms, hms, -⟩ := h.relocate place
  cases ms with
  | nil => cases hms.stop_isSome
  | cons m ms =>
    have hfeed : Feed.ofText place cs = .ok ⟨m, ms, none⟩ := Feed.ofText_eq_ok_iff.2 hms
    rw [parseListAt, hfeed]
    exact list_clean rfl

end Selector

namespace Stylesheet

/-- The source that is read again as a rule's selectors lies in the stylesheet between the first token of the rule and
the brace. On its own it is read without a fault into the lexemes that the stylesheet has there, earlier by as many
bytes as stand in front of it, and the end; so its selectors are never refused for a token. -/
theorem prelude_slice_reads_again (text : String) (f₀ f g : Feed) (before : List Lexeme)
    (h₀ : Feed.ofText .start text.toList = .ok f₀) (hf : f₀.Passes before f) (hg : prelude f = .ok g) :
    g.token = .leftBrace ∧ Lexer.Covers text f.current.start.offset g.current.start.offset (f.slice g) ∧
      (∃ ls ms e, f.Passes ls g ∧ Lexer.Reads .start (f.slice g) (ms ++ [e]) none ∧
        List.Forall₂ (Lexeme.Shifted f.current.start.offset) ms ls ∧ e.token = .eof) ∧
      ∀ place fault, Selector.parseListAt place (f.slice g) = .error fault → fault.cause.isLexical = false := by
  have hreads := Feed.ofText_eq_ok_iff.1 h₀
  obtain ⟨ls, hls, hbrace, -⟩ := prelude_sound (hf.proper (Feed.proper_of_ofText h₀)) hg
  rw [hf.row, hls.row] at hreads
  obtain ⟨rest, htext, hrest⟩ := hreads.behind hf.inner
  have hcurrent : (ls ++ g.current :: g.ahead).head? = some f.current := by rw [← hls.row]; rfl
  have hfirst : ∀ l ∈ ls.head?, l.start.offset = f.current.start.offset := by
    intro l hl
    rw [List.head?_append, Option.mem_def.1 hl] at hcurrent
    cases hcurrent
    rfl
  obtain ⟨ms, e, hms, hshifted, he⟩ := hrest.again hbrace hfirst
  rw [← hls.slice_eq] at hms
  refine ⟨hbrace, ?_, ⟨ls, ms, e, hls, hms, hshifted, he⟩, ?_⟩
  · rw [hls.slice_eq]
    exact hrest.covers_writing htext hbrace hcurrent
  · intro place fault hfault
    exact (Selector.parseListAt_clean hms place).of_eq hfault

/-- Braces in a string, in a url and in a comment do not end what is read again; here it begins at byte 5. -/
theorem prelude_slice_reads_again_braces :
    let text := "/*c*/a '\x7b'url(\x7b)/*\x7b*/\x7bb:c\x7d"
    let written := "a '\x7b'url(\x7b)/*\x7b*/".toList
    ∃ f g, Feed.ofText .start text.toList = .ok f ∧ f.Passes [] f ∧ prelude f = .ok g ∧ f.slice g = written ∧
      f.current.start.offset = 5 ∧ g.token = .leftBrace ∧
      Lexer.Covers text f.current.start.offset g.current.start.offset written ∧
      (∃ ls ms e, f.Passes ls g ∧ Lexer.Reads .start written (ms ++ [e]) none ∧
        List.Forall₂ (Lexeme.Shifted f.current.start.offset) ms ls ∧ e.token = .eof) ∧
      ∀ place fault, Selector.parseListAt place written = .error fault → fault.cause.isLexical = false := by
  intro text written
  have hread : (Feed.ofText .start text.toList >>= fun f => prelude f >>= fun g =>
      .ok (f.slice g, f.current.start.offset)) = .ok (written, 5) := by decide +kernel
  obtain ⟨f, h₀, hread⟩ := of_bind_eq_ok hread
  obtain ⟨g, hg, hslice⟩ := of_bind_eq_ok hread
  obtain ⟨hwritten, hoffset⟩ := Prod.mk.inj (Except.ok.inj hslice)
  have hmain := prelude_slice_reads_again text f f g [] h₀ (.refl f) hg
  rw [hwritten] at hmain
  exact ⟨f, g, h₀, .refl f, hg, hwritten, hoffset, hmain⟩

end Stylesheet

end Stylebook
