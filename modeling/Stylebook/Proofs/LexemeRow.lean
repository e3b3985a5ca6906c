import Mathlib.Tactic.SplitIfs
import Stylebook.Feed
import Stylebook.Proofs.CursorCuts

/-! The lexemes of a text form a row: the end stands last and nowhere else, every other lexeme has characters
of its own, and two runs of blanks never stand side by side. A feed is described by the lexemes that are
passed on the way to a later one. -/
namespace Stylebook

/-- Whether a token is read from characters of its own choice: neither a mark that one character forms by
itself, nor blanks, nor the end. -/
def Token.isWord : Token → Bool
  | ident _ | function _ | atKeyword _ | hash _ _ | string _ | url _ => true
  | number _ | percentage _ | dimension _ _ | delim _ => true
  | _ => false

namespace Lexer

/-- Behind blanks and comments there are no more of them. -/
lemma trivia_rest {cs taken rest : List Char} {blank : Bool} (h : trivia cs = .run taken blank rest) :
    trivia rest = .run [] false rest := by
  fun_induction trivia cs generalizing taken blank rest with
  | case1 =>
    cases h
    exact trivia_nil
  | case2 c tail _ ih =>
    cases ht : trivia tail with
    | run taken' blank' rest' =>
      simp only [ht, Trivia.push, Trivia.run.injEq] at h
      obtain ⟨-, -, rfl⟩ := h
      exact ih ht
    | unclosed before comment => simp [ht, Trivia.push] at h
  | case3 c tail _ comment after hc ih =>
    cases ht : trivia after with
    | run taken' blank' rest' =>
      simp only [ht, Trivia.push, Trivia.run.injEq] at h
      obtain ⟨-, -, rfl⟩ := h
      exact ih ht
    | unclosed before comment => simp [ht, Trivia.push] at h
  | case4 => cases h
  | case5 c tail hb hc ho =>
    cases h
    exact trivia_of_stop (by simpa using hb) (by simpa using ho)

lemma nameLike_isWord {cs : List Char} {t : Token} (h : (nameLike cs).value = .ok t) : t.isWord = true := by
  unfold nameLike at h
  simp only at h
  split at h
  · split_ifs at h
    · unfold urlOrFunction at h
      simp only at h
      split at h
      · cases h
        rfl
      · cases h
        rfl
      · simp only at h
        split at h
        · cases h
          rfl
        · cases h
    · cases h
      rfl
  · cases h
    rfl

lemma numeric_isWord {cs : List Char} {t : Token} (h : (numeric cs).value = .ok t) : t.isWord = true := by
  unfold numeric at h
  simp only at h
  split at h
  · cases h
  · split at h
    · cases h
      rfl
    · split_ifs at h
      · cases h
        rfl
      · cases h
        rfl

/-- In front of the end, a token is a mark or a word. -/
lemma readToken_cons {c : Char} {rest : List Char} {t : Token} (h : (readToken (c :: rest)).value = .ok t) :
    Token.punctuation? c = some t ∨ t.isWord = true := by
  unfold readToken at h
  simp only at h
  split at h
  · next hp =>
    cases h
    exact Or.inl hp
  · right
    split_ifs at h
    · unfold string at h
      simp only at h
      split at h
      · cases h
        rfl
      · cases h
    · unfold hash at h
      simp only at h
      cases h
      split_ifs <;> rfl
    · unfold atKeyword at h
      split at h
      · split_ifs at h
        · cases h
          rfl
        · cases h
          rfl
      · cases h
        rfl
    · exact numeric_isWord h
    · exact nameLike_isWord h
    · cases h
      rfl

lemma readToken_ne_whitespace (cs : List Char) : (readToken cs).value ≠ .ok .whitespace := by
  cases cs with
  | nil => simp [readToken]
  | cons c rest =>
    intro h
    obtain hp | hw := readToken_cons h
    · unfold Token.punctuation? at hp
      split at hp <;> cases hp
    · cases hw

/-- Only the end itself is read as the end. -/
lemma readToken_eq_eof {cs : List Char} (h : (readToken cs).value = .ok .eof) : cs = [] := by
  cases cs with
  | nil => rfl
  | cons c rest =>
    obtain hp | hw := readToken_cons h
    · unfold Token.punctuation? at hp
      split at hp <;> cases hp
    · cases hw

/-- Blanks are a token of their own; any other token is read behind the comments in front of it. -/
lemma step_eq_token_iff {cs gap text rest : List Char} {t : Token} :
    step cs = .token gap t text rest ↔
      (t = .whitespace ∧ gap = [] ∧ trivia cs = .run text true rest) ∨
      ∃ cs', trivia cs = .run gap false cs' ∧ readToken cs' = ⟨.ok t, text, rest⟩ := by
  unfold step
  constructor
  · intro h
    split at h
    · cases h
    · next ht =>
      cases h
      exact Or.inl ⟨rfl, rfl, ht⟩
    · next cs' ht =>
      simp only at h
      split at h
      · next hv =>
        cases h
        exact Or.inr ⟨cs', ht, by rw [← hv]⟩
      · cases h
  · rintro (⟨rfl, rfl, ht⟩ | ⟨cs', ht, hr⟩)
    · rw [ht]
    · rw [ht]
      simp only [hr]

lemma step_text_ne_nil {cs gap text rest : List Char} {t : Token} (h : step cs = .token gap t text rest)
    (ht : t ≠ .eof) : text ≠ [] := by
  obtain ⟨-, -, hb⟩ | ⟨cs', -, hr⟩ := step_eq_token_iff.1 h
  · exact trivia_run_blank hb
  · cases cs' with
    | nil =>
      simp only [readToken, Cut.mk.injEq, Except.ok.injEq] at hr
      exact absurd hr.1.symm ht
    | cons c cs'' =>
      have hne := readToken_taken_ne_nil c cs''
      rwa [hr] at hne

lemma trivia_of_step_whitespace {cs gap text rest : List Char} (h : step cs = .token gap .whitespace text rest) :
    trivia cs = .run text true rest := by
  obtain ⟨-, -, hb⟩ | ⟨cs', -, hr⟩ := step_eq_token_iff.1 h
  · exact hb
  · exact absurd (by rw [hr]) (readToken_ne_whitespace cs')

lemma trivia_of_step_eof {cs gap text rest : List Char} (h : step cs = .token gap .eof text rest) :
    trivia cs = .run gap false [] := by
  obtain ⟨hw, -, -⟩ | ⟨cs', ht, hr⟩ := step_eq_token_iff.1 h
  · cases hw
  · have hnil : cs' = [] := readToken_eq_eof (by rw [hr])
    rwa [hnil] at ht

/-- The end is read behind all that is left. -/
lemma gap_eq_of_step_eof {cs gap text rest : List Char} (h : step cs = .token gap .eof text rest) : gap = cs := by
  have hcs := trivia_append cs
  rwa [trivia_of_step_eof h, Trivia.taken, Trivia.rest, List.append_nil] at hcs

/-- Blanks are taken as far as they go. -/
lemma step_after_whitespace {cs gap text rest gap' text' rest' : List Char} {t : Token}
    (h : step cs = .token gap .whitespace text rest) (h' : step rest = .token gap' t text' rest') :
    t ≠ .whitespace := by
  rintro rfl
  have hb := trivia_of_step_whitespace h'
  rw [trivia_rest (trivia_of_step_whitespace h)] at hb
  cases hb

/-- From `place` on, the lexemes of a text in front of its first fault are `ls`; without a fault they are
all its lexemes, with the end. -/
def Reads (place : Location) (cs : List Char) (ls : List Lexeme) (stop : Option Fault) : Prop :=
  Reading.untilFault (readings place cs) = (ls, stop)

lemma Reads.unique {place : Location} {cs : List Char} {ls ms : List Lexeme} {stop stop' : Option Fault}
    (h : Reads place cs ls stop) (h' : Reads place cs ms stop') : ls = ms :=
  congrArg Prod.fst (h.symm.trans h')

lemma reads_of_step {place : Location} {cs gap text rest : List Char} {t : Token} {ls : List Lexeme}
    {stop : Option Fault} (hs : step cs = .token gap t text rest) (ht : t ≠ .eof)
    (h : Reads (Lexeme.after ⟨t, gap, text, place⟩) rest ls stop) :
    Reads place cs (⟨t, gap, text, place⟩ :: ls) stop := by
  unfold Reads at h ⊢
  rw [readings_eq]
  split
  · next hs' =>
    cases hs.symm.trans hs'
    simp only [if_neg ht, Reading.untilFault, h]
  · next hs' => cases hs.symm.trans hs'

lemma reads_of_step_eof {place : Location} {cs gap text rest : List Char}
    (hs : step cs = .token gap .eof text rest) : Reads place cs [⟨.eof, gap, text, place⟩] none := by
  unfold Reads
  rw [readings_eq]
  split
  · next hs' =>
    cases hs.symm.trans hs'
    simp only [if_true, Reading.untilFault]
  · next hs' => cases hs.symm.trans hs'

/-- Reading on behind the first lexeme. -/
lemma Reads.step {place : Location} {cs : List Char} {l : Lexeme} {ls : List Lexeme} {stop : Option Fault}
    (h : Reads place cs (l :: ls) stop) :
    l.before = place ∧ ∃ rest, step cs = .token l.gap l.token l.text rest ∧
      if l.token = .eof then ls = [] ∧ stop = none else Reads l.after rest ls stop := by
  unfold Reads at h ⊢
  rw [readings_eq] at h
  split at h
  · next gap t text rest hs =>
    simp only at h
    split_ifs at h with ht
    · simp only [Reading.untilFault, Prod.mk.injEq, List.cons.injEq] at h
      obtain ⟨⟨rfl, rfl⟩, rfl⟩ := h
      exact ⟨rfl, rest, hs, by simp [ht]⟩
    · simp only [Reading.untilFault, Prod.mk.injEq, List.cons.injEq] at h
      obtain ⟨⟨rfl, rfl⟩, rfl⟩ := h
      exact ⟨rfl, rest, hs, by simp [ht]⟩
  · simp [Reading.untilFault] at h

/-- A text in which no lexeme can be read has a fault. -/
lemma Reads.stop_isSome {place : Location} {cs : List Char} {stop : Option Fault}
    (h : Reads place cs [] stop) : stop.isSome = true := by
  unfold Reads at h
  rw [readings_eq] at h
  split at h
  · simp only at h
    split_ifs at h <;> simp [Reading.untilFault] at h
  · simp only [Reading.untilFault, Prod.mk.injEq] at h
    simp [← h.2]

end Lexer

namespace Lexeme

/-- What the lexemes in front of a fault, or of the end if there is no fault, have in common. -/
def Row (stop : Option Fault) : List Lexeme → Prop
  | [] => stop.isSome
  | l :: ls =>
    if l.token = .eof then ls = [] ∧ stop = none
    else l.text ≠ [] ∧ (l.token = .whitespace → ∀ m ∈ ls.head?, m.token ≠ .whitespace) ∧ Row stop ls

section Row
variable {stop : Option Fault} {l : Lexeme} {ls : List Lexeme}

lemma row_of_eof (h : Row stop (l :: ls)) (hl : l.token = .eof) : ls = [] ∧ stop = none := by
  rw [Row, if_pos hl] at h
  exact h

lemma row_of_ne_eof (h : Row stop (l :: ls)) (hl : l.token ≠ .eof) :
    l.text ≠ [] ∧ (l.token = .whitespace → ∀ m ∈ ls.head?, m.token ≠ .whitespace) ∧ Row stop ls := by
  rw [Row, if_neg hl] at h
  exact h

lemma Row.text_ne_nil {ms : List Lexeme} (h : Row stop (ls ++ ms)) (hls : ∀ l ∈ ls, l.token ≠ .eof) :
    ∀ l ∈ ls, l.text ≠ [] := by
  induction ls with
  | nil => simp
  | cons l ls ih =>
    obtain ⟨hl, hls⟩ := List.forall_mem_cons.1 hls
    obtain ⟨htext, -, hrest⟩ := row_of_ne_eof h hl
    exact List.forall_mem_cons.2 ⟨htext, ih hrest hls⟩

lemma Row.tail {ms : List Lexeme} (h : Row stop (ls ++ ms)) (hls : ∀ l ∈ ls, l.token ≠ .eof) :
    Row stop ms := by
  induction ls with
  | nil => exact h
  | cons l ls ih =>
    apply ih
    · exact (row_of_ne_eof h (hls l List.mem_cons_self)).2.2
    · intro m hm
      exact hls m (List.mem_cons_of_mem l hm)

/-- The end stands last. -/
lemma Row.ne_eof {m : Lexeme} {ms : List Lexeme} (h : Row stop (ls ++ m :: ms)) : ∀ l ∈ ls, l.token ≠ .eof := by
  induction ls with
  | nil => simp
  | cons l ls ih =>
    have hl : l.token ≠ .eof := by
      intro hl
      simpa using (row_of_eof h hl).1
    exact List.forall_mem_cons.2 ⟨hl, ih (row_of_ne_eof h hl).2.2⟩

end Row

end Lexeme

namespace Lexer

lemma Reads.row {place : Location} {cs : List Char} {ls : List Lexeme} {stop : Option Fault}
    (h : Reads place cs ls stop) : Lexeme.Row stop ls := by
  induction ls generalizing place cs with
  | nil => exact h.stop_isSome
  | cons l ls ih =>
    obtain ⟨-, rest, hs, hrest⟩ := h.step
    unfold Lexeme.Row
    split_ifs at hrest ⊢ with ht
    · exact hrest
    · refine ⟨step_text_ne_nil hs ht, ?_, ih hrest⟩
      intro hw m hm
      obtain ⟨ms, rfl⟩ := List.head?_eq_some_iff.1 (Option.mem_def.1 hm)
      obtain ⟨-, _, hs', -⟩ := hrest.step
      rw [hw] at hs
      exact step_after_whitespace hs hs'

/-- Reading on behind some lexemes of which none is the end. -/
lemma Reads.behind {place : Location} {cs : List Char} {ls ms : List Lexeme} {stop : Option Fault}
    (h : Reads place cs (ls ++ ms) stop) (hls : ∀ l ∈ ls, l.token ≠ .eof) :
    ∃ rest, cs = ls.flatMap Lexeme.source ++ rest ∧ Reads (place.past (ls.flatMap Lexeme.source)) rest ms stop := by
  induction ls generalizing place cs with
  | nil => exact ⟨cs, rfl, h⟩
  | cons l ls ih =>
    obtain ⟨rfl, rest, hs, hrest⟩ := h.step
    rw [if_neg (hls l List.mem_cons_self)] at hrest
    obtain ⟨rest', rfl, hms⟩ := ih hrest fun m hm => hls m (List.mem_cons_of_mem l hm)
    have hcs := step_append cs
    rw [hs] at hcs
    refine ⟨rest', ?_, ?_⟩
    · rw [← hcs]
      simp [Step.taken, Step.rest, Lexeme.source]
    · simpa [Lexeme.after, Lexeme.start, Lexeme.source] using hms

end Lexer

namespace Lexeme

/-- Optional blanks: none, or one run of them. -/
inductive Blank : List Lexeme → Prop
  | none : Blank []
  | run {l : Lexeme} (h : l.token = .whitespace) : Blank [l]

/-- The source from the first of some lexemes, without the comments in front of it, up to the token that
follows them. -/
def writing (ls : List Lexeme) (next : Lexeme) : List Char :=
  match ls with
  | [] => []
  | l :: ls => l.text ++ ls.flatMap source ++ next.gap

end Lexeme

namespace Feed

/-- A feed as a text gives it. -/
def Proper (f : Feed) : Prop := Lexeme.Row f.stop (f.current :: f.ahead)

/-- The lexemes `ls`, none of them the end, lie between what is in view in `f` and what is in view in `g`. -/
structure Passes (f : Feed) (ls : List Lexeme) (g : Feed) : Prop where
  row : f.current :: f.ahead = ls ++ g.current :: g.ahead
  stop : g.stop = f.stop
  inner : ∀ l ∈ ls, l.token ≠ .eof

section Passes
variable {f g h : Feed} {l : Lexeme} {ls ms : List Lexeme}

lemma Passes.refl (f : Feed) : f.Passes [] f := ⟨rfl, rfl, by simp⟩

lemma Passes.trans (hls : f.Passes ls g) (hms : g.Passes ms h) : f.Passes (ls ++ ms) h := by
  refine ⟨?_, hms.stop.trans hls.stop, ?_⟩
  · rw [hls.row, hms.row, List.append_assoc]
  · intro l hl
    obtain hl | hl := List.mem_append.1 hl
    · exact hls.inner l hl
    · exact hms.inner l hl

lemma Passes.eq_of_nil (hf : f.Passes [] g) : f = g := by
  obtain ⟨current, ahead, stop⟩ := f
  obtain ⟨current', ahead', stop'⟩ := g
  obtain ⟨hrow, hstop, -⟩ := hf
  simp only [List.nil_append, List.cons.injEq] at hrow hstop
  rw [hrow.1, hrow.2, hstop]

/-- Every place on the way is a feed of its own. -/
lemma Passes.split (hf : f.Passes (ls ++ ms) h) : ∃ g, f.Passes ls g ∧ g.Passes ms h := by
  obtain ⟨l, rest, hrest⟩ := List.exists_cons_of_ne_nil (List.append_ne_nil_of_right_ne_nil ms
    (List.cons_ne_nil h.current h.ahead))
  refine ⟨⟨l, rest, f.stop⟩, ⟨?_, rfl, ?_⟩, ⟨hrest.symm, hf.stop, ?_⟩⟩
  · rw [hf.row, List.append_assoc, hrest]
  · intro m hm
    exact hf.inner m (List.mem_append_left ms hm)
  · intro m hm
    exact hf.inner m (List.mem_append_right ls hm)

lemma Passes.current_eq (hf : f.Passes (l :: ls) g) : f.current = l :=
  (List.cons.inj hf.row).1

lemma Passes.token_eq (hf : f.Passes (l :: ls) g) : f.token = l.token := by
  rw [token, hf.current_eq]

lemma Passes.token_ne_eof (hf : f.Passes (l :: ls) g) : f.token ≠ .eof := by
  rw [hf.token_eq]
  exact hf.inner l List.mem_cons_self

lemma Passes.proper (hf : f.Passes ls g) (hp : f.Proper) : g.Proper := by
  unfold Proper at hp ⊢
  rw [hf.row] at hp
  rw [hf.stop]
  exact hp.tail hf.inner

lemma Passes.text_ne_nil (hf : f.Passes ls g) (hp : f.Proper) : ∀ l ∈ ls, l.text ≠ [] := by
  unfold Proper at hp
  rw [hf.row] at hp
  exact hp.text_ne_nil hf.inner

/-- The lexemes that lie between two feeds are the ones counted by the parser. -/
lemma Passes.slice_eq (hf : f.Passes ls g) : f.slice g = Lexeme.writing ls g.current := by
  have hlen : f.ahead.length - g.ahead.length = ls.length := by
    have := congrArg List.length hf.row
    simp only [List.length_cons, List.length_append] at this
    omega
  have hpassed : f.passed g = ls := by rw [passed, hf.row, hlen, List.take_left]
  rw [slice, hpassed]
  cases ls <;> rfl

lemma advance_of_passes (hf : f.Passes (l :: ls) g) : ∃ m, f.advance = .ok m ∧ f.Passes [l] m ∧ m.Passes ls g := by
  obtain ⟨m, hl, hls⟩ := (show f.Passes ([l] ++ ls) g from hf).split
  refine ⟨m, ?_, hl, hls⟩
  obtain ⟨hrow, hstop, -⟩ := hl
  unfold advance
  simp only [List.singleton_append, List.cons.injEq] at hrow
  rw [hrow.2]
  simp only
  rw [← hstop]

/-- In front of the end, advancing passes the lexeme in view. -/
lemma Proper.advance (hp : f.Proper) (ht : f.token ≠ .eof) (ha : f.advance = .ok g) :
    f.Passes [f.current] g := by
  unfold Feed.advance at ha
  split at ha
  · next l ls hl =>
    cases ha
    refine ⟨?_, rfl, ?_⟩
    · simp [hl]
    · simpa [token] using ht
  · cases ha
  · next hl hs =>
    have hrow := (Lexeme.row_of_ne_eof hp ht).2.2
    rw [hl, hs] at hrow
    cases hrow

/-- Two runs of blanks never stand side by side, so all blanks in view are passed. -/
lemma Proper.skipBlank (hp : f.Proper) (hb : f.skipBlank = .ok g) :
    ∃ ls, Lexeme.Blank ls ∧ f.Passes ls g ∧ g.token ≠ .whitespace := by
  unfold Feed.skipBlank at hb
  split_ifs at hb with ht
  · have hpass := hp.advance (by simp [ht]) hb
    refine ⟨[f.current], .run ht, hpass, ?_⟩
    have hrow := (Lexeme.row_of_ne_eof hp (by rw [show f.current.token = .whitespace from ht]; simp)).2.1 ht
    apply hrow
    have := hpass.row
    simp only [List.singleton_append, List.cons.injEq, true_and] at this
    rw [this]
    rfl
  · cases hb
    exact ⟨[], .none, Passes.refl f, ht⟩

lemma skipBlank_of_passes (hb : Lexeme.Blank ls) (hf : f.Passes ls g) (hg : g.token ≠ .whitespace) :
    f.skipBlank = .ok g := by
  unfold Feed.skipBlank
  cases hb with
  | none =>
    rw [hf.eq_of_nil, if_neg hg]
  | run hl =>
    rw [if_pos (hf.token_eq.trans hl)]
    obtain ⟨m, ha, -, hm⟩ := advance_of_passes hf
    rw [ha, hm.eq_of_nil]

lemma skipBlank_of_ne (ht : f.token ≠ .whitespace) : f.skipBlank = .ok f :=
  skipBlank_of_passes .none (Passes.refl f) ht

/-- Behind blanks there are no more to pass. -/
lemma Proper.skipBlank_run (hp : f.Proper) (hf : f.Passes [l] g) (hl : l.token = .whitespace) :
    f.skipBlank = .ok g ∧ g.skipBlank = .ok g := by
  obtain ⟨m, ha, -, hm⟩ := advance_of_passes hf
  have hb : f.skipBlank = .ok g := by
    rw [Feed.skipBlank, if_pos (hf.token_eq.trans hl), ha, hm.eq_of_nil]
  obtain ⟨-, -, -, hne⟩ := hp.skipBlank hb
  exact ⟨hb, skipBlank_of_ne hne⟩

/-- Optional blanks in front of a lexeme that is none. -/
lemma skipBlank_cons (hb : Lexeme.Blank ls) (hf : f.Passes (ls ++ l :: ms) g) (hl : l.token ≠ .whitespace) :
    ∃ m, f.skipBlank = .ok m ∧ f.Passes ls m ∧ m.Passes (l :: ms) g := by
  obtain ⟨m, hfm, hmg⟩ := hf.split
  refine ⟨m, skipBlank_of_passes hb hfm ?_, hfm, hmg⟩
  rw [hmg.token_eq]
  exact hl

/-- No blanks are passed where none are in view. -/
lemma Passes.blank_eq_nil (hf : f.Passes (ls ++ ms) g) (hb : Lexeme.Blank ls) (ht : f.token ≠ .whitespace) :
    ls = [] := by
  cases hb with
  | none => rfl
  | run hl => exact absurd (hf.token_eq.trans hl) ht

/-- Every lexeme of a feed can be brought into view. -/
lemma Proper.passes (hp : f.Proper) (hrow : f.current :: f.ahead = ls ++ l :: ms) :
    f.Passes ls ⟨l, ms, f.stop⟩ := by
  refine ⟨hrow, rfl, ?_⟩
  unfold Proper at hp
  rw [hrow] at hp
  exact hp.ne_eof

end Passes

lemma ofText_eq_ok_iff {place : Location} {cs : List Char} {f : Feed} :
    ofText place cs = .ok f ↔ Lexer.Reads place cs (f.current :: f.ahead) f.stop := by
  unfold ofText Lexer.Reads
  constructor
  · intro h
    split at h
    · next hr =>
      cases h
      exact hr
    · cases h
    · next hr =>
      have hstop := Lexer.Reads.stop_isSome hr
      cases hstop
  · intro h
    rw [h]

lemma proper_of_ofText {place : Location} {cs : List Char} {f : Feed} (h : ofText place cs = .ok f) :
    f.Proper :=
  (ofText_eq_ok_iff.1 h).row

end Feed

end Stylebook
