import Stylebook.Proofs.LexerExtension
import Stylebook.Proofs.StylesheetGrammar

/-! Stylesheets written one behind the other. Every statement ends with a mark of its own, so nothing that is
read of the first text goes on into the second. -/
namespace Stylebook

/-- A statement without its place. -/
def Statement.bare : Statement → Statement
  | importing i => importing { i with place := .start }
  | rule r => rule { r with place := .start }

namespace Stylesheet
open Lexeme (Alike Blank token_eq_of_bare text_eq_of_bare)

/-! ## The same statements at other places -/

section Alike
variable {ls ms : List Lexeme}

lemma Target.alike {url : String} (ht : Target ls url) (h : Alike ls ms) : Target ms url := by
  cases ht with
  | string hl =>
    obtain ⟨m, rfl, hm⟩ := h.exists_singleton
    exact .string ((token_eq_of_bare hm).trans hl)
  | url hl =>
    obtain ⟨m, rfl, hm⟩ := h.exists_singleton
    exact .url ((token_eq_of_bare hm).trans hl)
  | quoted hl hn h₁ hm h₂ hr =>
    obtain ⟨l', _, rfl, hl', h⟩ := h.exists_cons
    obtain ⟨b₁', _, rfl, hb₁, h⟩ := h.exists_append
    obtain ⟨m', _, rfl, hm', h⟩ := h.exists_cons
    obtain ⟨b₂', _, rfl, hb₂, h⟩ := h.exists_append
    obtain ⟨r', rfl, hr'⟩ := h.exists_singleton
    exact .quoted ((token_eq_of_bare hl').trans hl) hn (h₁.alike hb₁) ((token_eq_of_bare hm').trans hm)
      (h₂.alike hb₂) ((token_eq_of_bare hr').trans hr)

lemma Contained.alike {d : Nat} (hc : Contained d ls) (h : Alike ls ms) : Contained d ms := by
  induction ls generalizing d ms with
  | nil => rwa [h.eq_nil]
  | cons l ls ih =>
    obtain ⟨m, ms, rfl, hm, hms⟩ := h.exists_cons
    obtain ⟨hbrace, hcloses, hrest⟩ := contained_cons.1 hc
    rw [← token_eq_of_bare hm] at hbrace hcloses hrest
    exact contained_cons.2 ⟨hbrace, hcloses, ih hrest hms⟩

lemma words_alike (h : Alike ls ms) :
    (ms.filter (·.token ≠ .whitespace)).map Lexeme.token = (ls.filter (·.token ≠ .whitespace)).map Lexeme.token := by
  have hfilter (ls : List Lexeme) : (ls.filter (·.token ≠ .whitespace)).map Lexeme.token =
      (ls.map Lexeme.token).filter (· ≠ .whitespace) := by
    rw [List.filter_map]
    rfl
  rw [hfilter, h.tokens_eq, ← hfilter]

lemma Spells.alike {text : String} (hs : Spells ls text) (h : Alike ls ms) : Spells ms text := by
  have hwords := words_alike h
  cases hs with
  | quoted hs => exact .quoted (hwords.trans hs)
  | written hs hw => exact .written (hwords ▸ hs) (h.written hw)

lemma Value.alike (hv : Value ls) (h : Alike ls ms) : Value ms := by
  refine ⟨hv.contained.alike h, ?_, ?_⟩
  · obtain ⟨l, hl, ht⟩ := hv.written
    have hmem : l.token ∈ ms.map Lexeme.token := by
      rw [h.tokens_eq]
      exact List.mem_map_of_mem hl
    obtain ⟨m, hm, hmt⟩ := List.mem_map.1 hmem
    exact ⟨m, hm, by rwa [hmt]⟩
  · rw [words_alike h]
    exact hv.content

lemma Importance.alike {important : Bool} (hi : Importance ls important) (h : Alike ls ms) :
    Importance ms important := by
  cases hi with
  | plain => rw [h.eq_nil]; exact .plain
  | important he h₁ hw hword h₂ =>
    obtain ⟨e', _, rfl, he', h⟩ := h.exists_cons
    obtain ⟨b₁', _, rfl, hb₁, h⟩ := h.exists_append
    obtain ⟨w', b₂', rfl, hw', hb₂⟩ := h.exists_cons
    exact .important ((token_eq_of_bare he').trans he) (h₁.alike hb₁) ((token_eq_of_bare hw').trans hw) hword
      (h₂.alike hb₂)

lemma Declares.alike {s : Setting} (hd : Declares ls s) (h : Alike ls ms) : Declares ms s := by
  cases hd with
  | mk hp hb hc hv ht hi =>
    obtain ⟨p', _, rfl, hp', h⟩ := h.exists_cons
    obtain ⟨b', _, rfl, hb', h⟩ := h.exists_append
    obtain ⟨c', _, rfl, hc', h⟩ := h.exists_cons
    obtain ⟨v', i', rfl, hv', hi'⟩ := h.exists_append
    exact .mk ((token_eq_of_bare hp').trans hp) (hb.alike hb') ((token_eq_of_bare hc').trans hc)
      (hv.alike hv') (ht.alike hv') (hi.alike hi')

lemma Block.alike {ss : List Setting} (hb : Block ls ss) (h : Alike ls ms) : Block ms ss := by
  induction hb generalizing ms with
  | close hl =>
    obtain ⟨m, rfl, hm⟩ := h.exists_singleton
    exact .close ((token_eq_of_bare hm).trans hl)
  | blank hl _ ih =>
    obtain ⟨m, ms, rfl, hm, hms⟩ := h.exists_cons
    exact .blank ((token_eq_of_bare hm).trans hl) (ih hms)
  | semicolon hl _ ih =>
    obtain ⟨m, ms, rfl, hm, hms⟩ := h.exists_cons
    exact .semicolon ((token_eq_of_bare hm).trans hl) (ih hms)
  | setting hd hl _ ih =>
    obtain ⟨ds', _, rfl, hds, h⟩ := h.exists_append
    obtain ⟨m, ms, rfl, hm, -⟩ := h.exists_cons
    rw [← token_eq_of_bare hm] at hl
    exact .setting (hd.alike hds) hl (ih h)

end Alike

section Resume
variable {l m : Lexeme} {ls ms : List Lexeme}

/-- A rule does not look at the comments in front of it. -/
lemma Rule.resume {r : StyleRule} (hr : Rule (l :: ls) r) (ht : m.token = l.token) (hx : m.text = l.text)
    (h : Alike ls ms) : Rule (m :: ms) { r with place := m.before } := by
  cases hr with
  | @mk _ o ps body selectors settings hp hb ha ho hs hbody =>
    obtain ⟨ps', _, rfl, hps, h⟩ := h.exists_append
    obtain ⟨o', body', rfl, ho', hbody'⟩ := h.exists_cons
    obtain ⟨hl, hp⟩ := List.forall_mem_cons.1 hp
    rw [← ht] at hl hb ha
    have hwriting : Lexeme.writing (m :: ps') o' = Lexeme.writing (l :: ps) o := by
      rw [Lexeme.writing, Lexeme.writing, hx, hps.sources_eq, Lexeme.gap_eq_of_bare ho']
    rw [← hwriting] at hs
    have hps' := hps.forall_token (P := fun t => t ≠ .leftBrace ∧ t ≠ .rightBrace ∧ t ≠ .semicolon) hp
    exact .mk (List.forall_mem_cons.2 ⟨hl, hps'⟩) hb ha ((token_eq_of_bare ho').trans ho) hs
      (hbody.alike hbody')

lemma Item.resume {s : Option Statement} (hi : Item (l :: ls) s) (ht : m.token = l.token) (hx : m.text = l.text)
    (h : Alike ls ms) :
    ∃ s', Item (m :: ms) s' ∧ s'.toList.map Statement.bare = s.toList.map Statement.bare := by
  cases hi with
  | importing hk hn h₁ htarget h₂ hc =>
    obtain ⟨b₁', _, rfl, hb₁, h⟩ := h.exists_append
    obtain ⟨t', _, rfl, ht', h⟩ := h.exists_append
    obtain ⟨b₂', _, rfl, hb₂, h⟩ := h.exists_append
    obtain ⟨c', rfl, hc'⟩ := h.exists_singleton
    refine ⟨_, .importing (ht.trans hk) hn (h₁.alike hb₁) (htarget.alike ht') (h₂.alike hb₂)
      ((token_eq_of_bare hc').trans hc), rfl⟩
  | charset hk hn hls hc =>
    obtain ⟨ls', _, rfl, hls', h⟩ := h.exists_append
    obtain ⟨c', rfl, hc'⟩ := h.exists_singleton
    have hne := hls'.forall_token (P := (· ≠ .semicolon)) hls
    exact ⟨_, .charset (ht.trans hk) hn hne ((token_eq_of_bare hc').trans hc), rfl⟩
  | rule hr => exact ⟨_, .rule (hr.resume ht hx h), rfl⟩

/-- Statements are the same behind other blanks and comments, and at another place. -/
lemma Statements.resume {ss : List Statement} (hs : Statements (l :: ls) ss) (ht : m.token = l.token)
    (hx : l.token ≠ .whitespace → m.text = l.text) (h : Alike ls ms) :
    ∃ ss', Statements (m :: ms) ss' ∧ ss'.map Statement.bare = ss.map Statement.bare := by
  generalize hrow : l :: ls = row at hs
  induction hs generalizing l ls m ms with
  | done he =>
    cases hrow
    rw [h.eq_nil]
    exact ⟨[], .done (ht.trans he), rfl⟩
  | blank hl hs ih =>
    cases hrow
    obtain ⟨l', ls', rfl⟩ := List.exists_cons_of_ne_nil hs.ne_nil
    obtain ⟨m', ms', rfl, hm, hms⟩ := h.exists_cons
    obtain ⟨ss', hss, hbare⟩ := ih (token_eq_of_bare hm) (fun _ => text_eq_of_bare hm) hms rfl
    exact ⟨ss', .blank (ht.trans hl) hss, hbare⟩
  | @item is ns s ss hi hs ih =>
    obtain ⟨k, is, rfl, hk⟩ := hi.head
    cases hrow
    obtain ⟨is', _, rfl, his, h⟩ := h.exists_append
    obtain ⟨n, ns, rfl⟩ := List.exists_cons_of_ne_nil hs.ne_nil
    obtain ⟨n', ns', rfl, hn, hns⟩ := h.exists_cons
    obtain ⟨s', hitem, hs'⟩ := hi.resume ht (hx hk) his
    obtain ⟨ss', hss, hbare⟩ := ih (token_eq_of_bare hn) (fun _ => text_eq_of_bare hn) hns rfl
    refine ⟨s'.toList ++ ss', Statements.item hitem hss, ?_⟩
    rw [List.map_append, List.map_append, hs', hbare]

/-- Blanks in front change nothing either. -/
lemma Statements.of_resumes {ss : List Statement} (hs : Statements ls ss) (h : Lexer.Resumes ls ms) :
    ∃ ss', Statements ms ss' ∧ ss'.map Statement.bare = ss.map Statement.bare := by
  cases h with
  | mk hw ht hx h =>
    obtain ⟨ss', hss, hbare⟩ := hs.resume ht hx h
    refine ⟨ss', ?_, hbare⟩
    cases hw with
    | none => exact hss
    | run hw => exact .blank hw hss

end Resume

/-! ## Where a stylesheet ends -/

/-- Lexemes whose last one is a mark that ends statements or blocks. -/
def EndsInStop (ls : List Lexeme) : Prop := ∃ init z, ls = init ++ [z] ∧ z.token.isStop = true

lemma EndsInStop.append {ls ms : List Lexeme} (h : EndsInStop ms) : EndsInStop (ls ++ ms) := by
  obtain ⟨init, z, rfl, hz⟩ := h
  exact ⟨ls ++ init, z, by rw [List.append_assoc], hz⟩

lemma Block.endsInStop {ls : List Lexeme} {ss : List Setting} (h : Block ls ss) : EndsInStop ls := by
  induction h with
  | close hl => exact ⟨[], _, rfl, by simp [Token.isStop, hl]⟩
  | @blank l ls _ _ _ ih => exact (ih.append : EndsInStop ([l] ++ ls))
  | @semicolon l ls _ _ _ ih => exact (ih.append : EndsInStop ([l] ++ ls))
  | setting _ _ _ ih => exact ih.append

lemma Item.endsInStop {ls : List Lexeme} {s : Option Statement} (h : Item ls s) : EndsInStop ls := by
  cases h with
  | @importing k c b₁ t b₂ _ _ _ _ _ _ _ hc =>
    exact ⟨k :: (b₁ ++ (t ++ b₂)), c, by simp, by simp [Token.isStop, hc]⟩
  | @charset k c ls _ _ _ _ hc => exact ⟨k :: ls, c, rfl, by simp [Token.isStop, hc]⟩
  | rule hr =>
    cases hr with
    | @mk p o ps body _ _ _ _ _ _ _ hbody =>
      have hend : EndsInStop ((p :: ps ++ [o]) ++ body) := hbody.endsInStop.append
      simpa using hend

/-- Whole statements, and nothing behind the last of them. Others can follow. -/
structure Complete (ls : List Lexeme) (ss : List Statement) : Prop where
  ends : ls = [] ∨ EndsInStop ls
  joins : ∀ ms ss', Statements ms ss' → Statements (ls ++ ms) (ss ++ ss')

section Complete
variable {l : Lexeme} {ls ms : List Lexeme} {ss : List Statement}

lemma complete_nil : Complete [] [] where
  ends := Or.inl rfl
  joins _ _ h := h

lemma Complete.blank (h : Complete ls ss) (hl : l.token = .whitespace) (hne : ls ≠ []) : Complete (l :: ls) ss where
  ends := Or.inr ((h.ends.resolve_left hne).append : EndsInStop ([l] ++ ls))
  joins ms ss' hms := .blank hl (h.joins ms ss' hms)

lemma Complete.item {s : Option Statement} (h : Complete ms ss) (hi : Item ls s) :
    Complete (ls ++ ms) (s.toList ++ ss) where
  ends := by
    right
    obtain rfl | hms := h.ends
    · rw [List.append_nil]
      exact hi.endsInStop
    · exact hms.append
  joins ns ss' hns := by
    rw [List.append_assoc, List.append_assoc]
    exact .item hi (h.joins ns ss' hns)

end Complete

/-- A stylesheet is the statements in it, blanks, and the end. -/
lemma Statements.split {ls : List Lexeme} {ss : List Statement} (h : Statements ls ss) :
    ∃ body blanks e, ls = body ++ (blanks ++ [e]) ∧ Complete body ss ∧
      (∀ l ∈ blanks, l.token = .whitespace) ∧ e.token = .eof := by
  induction h with
  | @done e he => exact ⟨[], [], e, rfl, complete_nil, by simp, he⟩
  | @blank l ls ss hl _ ih =>
    obtain ⟨body, blanks, e, rfl, hbody, hblanks, he⟩ := ih
    by_cases hne : body = []
    · subst hne
      exact ⟨[], l :: blanks, e, rfl, hbody, List.forall_mem_cons.2 ⟨hl, hblanks⟩, he⟩
    · exact ⟨l :: body, blanks, e, rfl, hbody.blank hl hne, hblanks, he⟩
  | @item is ns s ss hi _ ih =>
    obtain ⟨body, blanks, e, rfl, hbody, hblanks, he⟩ := ih
    exact ⟨is ++ body, blanks, e, by rw [List.append_assoc], hbody.item hi, hblanks, he⟩

/-- Two stylesheets written one behind the other have the statements of the first and then those of the second,
the latter at other places. -/
lemma outline_append {A B : String} {ss ss' : List Statement} (hA : outline A = ⟨ss, none⟩)
    (hB : outline B = ⟨ss', none⟩) :
    ∃ ss'', outline (A ++ B) = ⟨ss ++ ss'', none⟩ ∧ ss''.map Statement.bare = ss'.map Statement.bare := by
  obtain ⟨ls, hreadA, hsA⟩ := outline_eq_iff.1 hA
  obtain ⟨ms, hreadB, hsB⟩ := outline_eq_iff.1 hB
  obtain ⟨body, blanks, e, rfl, hbody, hblanks, he⟩ := hsA.split
  have hlast : ∀ l ∈ body.getLast?, l.token.isStop = true := by
    intro l hl
    obtain rfl | ⟨init, z, rfl, hz⟩ := hbody.ends
    · cases hl
    · rw [List.getLast?_concat, Option.mem_some_iff] at hl
      rwa [← hl]
  obtain ⟨q, rest, hend, hmore⟩ := hreadA.more hlast
  obtain ⟨blank, htrivia⟩ := hend.trivia_eq hblanks he
  obtain ⟨ns, hns, hresumes⟩ := hreadB.resume htrivia q
  obtain ⟨ss'', hss, hbare⟩ := hsB.of_resumes hresumes
  refine ⟨ss'', outline_eq_iff.2 ⟨body ++ ns, ?_, hbody.joins ns ss'' hss⟩, hbare⟩
  rw [String.toList_append]
  exact hmore B.toList ns hns

/-- What the imports and rules among some statements say, without their places. -/
def contents (ss : List Statement) : List String × List (List Selector × List Setting) :=
  ((ss.filterMap Statement.import?).map Import.url,
    (ss.filterMap Statement.rule?).map fun r => (r.selectors, r.settings))

lemma contents_bare (ss : List Statement) : contents (ss.map Statement.bare) = contents ss := by
  simp only [contents, List.filterMap_map, List.map_filterMap, Prod.mk.injEq]
  constructor
  · congr 1
    funext s
    cases s <;> rfl
  · congr 1
    funext s
    cases s <;> rfl

/-- Stylesheets can be written one behind the other without anything between them. The imports and rules of the
first come first, as they were, and those of the second follow, with nothing changed but their places. -/
theorem parse_append_eq_ok (A B : String) (a b : Stylesheet) (hA : parse A = .ok a) (hB : parse B = .ok b) :
    ∃ imports rules, parse (A ++ B) = .ok ⟨a.imports ++ imports, a.rules ++ rules⟩ ∧
      imports.map Import.url = b.imports.map Import.url ∧
      rules.map (fun r => (r.selectors, r.settings)) = b.rules.map (fun r => (r.selectors, r.settings)) := by
  obtain ⟨ss, hss, rfl⟩ := parse_eq_ok_iff.1 hA
  obtain ⟨ss', hss', rfl⟩ := parse_eq_ok_iff.1 hB
  obtain ⟨ss'', hjoin, hbare⟩ := outline_append hss hss'
  have hcontents : contents ss'' = contents ss' := by
    rw [← contents_bare, hbare, contents_bare]
  refine ⟨ss''.filterMap Statement.import?, ss''.filterMap Statement.rule?, ?_, ?_, ?_⟩
  · apply parse_eq_ok_iff.2
    refine ⟨ss ++ ss'', hjoin, ?_⟩
    simp [ofStatements]
  · exact congrArg Prod.fst hcontents
  · exact congrArg Prod.snd hcontents

/-- The comment at the end of the first text and the blanks at the beginning of the second become one. -/
theorem parse_append_eq_ok_comment :
    let A := "@import 'x';a{b:c}/* end */"
    let B := " /* more */e,f{g:(;) !important}"
    let a : Stylesheet :=
      ⟨[⟨"x", .start⟩], [⟨[⟨[.typeName "a"], ⟨0, 0, 1⟩, "a"⟩], [⟨"b", "c", false⟩], ⟨1, 13, 12⟩⟩]⟩
    let b : Stylesheet :=
      ⟨[], [⟨[⟨[.typeName "e"], ⟨0, 0, 1⟩, "e"⟩, ⟨[.typeName "f"], ⟨0, 0, 1⟩, "f"⟩],
        [⟨"g", "(;)", true⟩], ⟨1, 12, 11⟩⟩]⟩
    parse A = .ok a ∧ parse B = .ok b ∧
      ∃ imports rules, parse (A ++ B) = .ok ⟨a.imports ++ imports, a.rules ++ rules⟩ ∧
        imports.map Import.url = [] ∧
        rules.map (fun r => (r.selectors, r.settings)) = b.rules.map (fun r => (r.selectors, r.settings)) := by
  intro A B a b
  have hA : parse A = .ok a := by decide +kernel
  have hB : parse B = .ok b := by decide +kernel
  exact ⟨hA, hB, parse_append_eq_ok A B a b hA hB⟩

end Stylesheet

end Stylebook
