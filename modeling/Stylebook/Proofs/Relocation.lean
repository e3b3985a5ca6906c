import Stylebook.Proofs.SelectorGrammar

/-! The same text at another place. Its lexemes differ in nothing but their places, and the grammar of selectors
does not look at these. -/
namespace Stylebook

namespace Lexeme

/-- A lexeme without its place. -/
def bare (l : Lexeme) : Lexeme := { l with before := .start }

/-- Lexemes that differ in nothing but their places. -/
def Alike (ls ms : List Lexeme) : Prop := ls.map bare = ms.map bare

section Bare
variable {l m : Lexeme}

lemma token_eq_of_bare (h : l.bare = m.bare) : m.token = l.token := (congrArg token h).symm

lemma gap_eq_of_bare (h : l.bare = m.bare) : m.gap = l.gap := (congrArg gap h).symm

lemma text_eq_of_bare (h : l.bare = m.bare) : m.text = l.text := (congrArg text h).symm

end Bare

namespace Alike
variable {l : Lexeme} {ls ls' ms : List Lexeme}

lemma eq_nil (h : Alike [] ms) : ms = [] := List.map_eq_nil_iff.1 h.symm

lemma exists_cons (h : Alike (l :: ls) ms) : ∃ m ms', ms = m :: ms' ∧ l.bare = m.bare ∧ Alike ls ms' := by
  obtain ⟨m, ms', rfl, hm, hms⟩ := List.map_eq_cons_iff.1 h.symm
  exact ⟨m, ms', rfl, hm.symm, hms.symm⟩

lemma exists_append (h : Alike (ls ++ ls') ms) :
    ∃ ms₁ ms₂, ms = ms₁ ++ ms₂ ∧ Alike ls ms₁ ∧ Alike ls' ms₂ := by
  rw [Alike, List.map_append] at h
  obtain ⟨ms₁, ms₂, rfl, h₁, h₂⟩ := List.map_eq_append_iff.1 h.symm
  exact ⟨ms₁, ms₂, rfl, h₁.symm, h₂.symm⟩

lemma exists_singleton (h : Alike [l] ms) : ∃ m, ms = [m] ∧ l.bare = m.bare := by
  obtain ⟨m, ms', rfl, hm, hms⟩ := h.exists_cons
  exact ⟨m, by rw [hms.eq_nil], hm⟩

/-- What a function makes of lexemes without their places, it makes of lexemes alike. -/
lemma congr_bare {α : Type} {F : List Lexeme → α} (hF : ∀ ls, F (ls.map bare) = F ls) (h : Alike ls ms) :
    F ms = F ls := by
  rw [← hF ms, ← hF ls, h]

lemma tokens_eq (h : Alike ls ms) : ms.map token = ls.map token := by
  apply h.congr_bare (F := List.map token)
  intro ls
  rw [List.map_map]
  rfl

lemma blanks (h : Alike ls ms) (hls : ∀ l ∈ ls, l.token = .whitespace) : ∀ m ∈ ms, m.token = .whitespace := by
  intro m hm
  have ht : m.token ∈ ls.map token := h.tokens_eq ▸ List.mem_map_of_mem hm
  obtain ⟨l, hl, heq⟩ := List.mem_map.1 ht
  rw [← heq, hls l hl]

lemma spaced {cs : List Char} (h : Alike ls ms) (hs : Spaced ls cs) : Spaced ms cs := by
  induction hs generalizing ms with
  | single hl =>
    obtain ⟨l', rfl, hl'⟩ := h.exists_singleton
    exact text_eq_of_bare hl' ▸ .single (token_eq_of_bare hl' ▸ hl)
  | touching hl hm hs ih =>
    obtain ⟨l', _, rfl, hl', h⟩ := h.exists_cons
    have hs' := ih h
    obtain ⟨m', ms', rfl, hm', -⟩ := h.exists_cons
    exact text_eq_of_bare hl' ▸ .touching (token_eq_of_bare hl' ▸ hl) (gap_eq_of_bare hm' ▸ hm) hs'
  | parted hl hbs hm hs ih =>
    obtain ⟨l', _, rfl, hl', h⟩ := h.exists_cons
    obtain ⟨bs', _, rfl, hbs', h⟩ := h.exists_append
    have hs' := ih h
    obtain ⟨m', ms', rfl, hm', -⟩ := h.exists_cons
    refine text_eq_of_bare hl' ▸ .parted (token_eq_of_bare hl' ▸ hl) (hbs'.blanks hbs) ?_ hs'
    rcases hm with hm | hm
    · left
      rintro rfl
      exact hm (List.map_eq_nil_iff.1 hbs')
    · exact Or.inr (gap_eq_of_bare hm' ▸ hm)

lemma written {cs : List Char} (h : Alike ls ms) (hw : Written ls cs) : Written ms cs := by
  cases hw with
  | blank hbs => exact .blank (h.blanks hbs)
  | spaced hbs hs hbs' =>
    obtain ⟨bs₁, _, rfl, h₁, h⟩ := h.exists_append
    obtain ⟨ms', bs₂, rfl, h₂, h₃⟩ := h.exists_append
    exact .spaced (h₁.blanks hbs) (h₂.spaced hs) (h₃.blanks hbs')

lemma sources_eq (h : Alike ls ms) : ms.flatMap source = ls.flatMap source := by
  apply h.congr_bare (F := List.flatMap source)
  intro ls
  rw [List.flatMap_map]
  rfl

lemma writing_eq {next next' : Lexeme} (h : Alike ls ms) (hn : next.bare = next'.bare) :
    writing ms next' = writing ls next := by
  cases ls with
  | nil => rw [h.eq_nil]; rfl
  | cons l ls =>
    obtain ⟨m, ms, rfl, hm, hms⟩ := h.exists_cons
    rw [writing, writing, text_eq_of_bare hm, hms.sources_eq, gap_eq_of_bare hn]

lemma forall_token {P : Token → Prop} (h : Alike ls ms) (hP : ∀ l ∈ ls, P l.token) : ∀ m ∈ ms, P m.token := by
  intro m hm
  have hmem : m.token ∈ ls.map token := by
    rw [← h.tokens_eq]
    exact List.mem_map_of_mem hm
  obtain ⟨l, hl, ht⟩ := List.mem_map.1 hmem
  exact ht ▸ hP l hl

end Alike

lemma Blank.alike {ls ms : List Lexeme} (hb : Blank ls) (h : Alike ls ms) : Blank ms := by
  cases hb with
  | none => rw [h.eq_nil]; exact .none
  | run hl =>
    obtain ⟨m, rfl, hm⟩ := h.exists_singleton
    exact .run ((token_eq_of_bare hm).trans hl)

end Lexeme

namespace Lexer

/-- A text has the same lexemes wherever it stands. -/
lemma Reads.relocate {p : Location} {cs : List Char} {ls : List Lexeme} (h : Reads p cs ls none) (q : Location) :
    ∃ ms, Reads q cs ms none ∧ Lexeme.Alike ls ms := by
  induction ls generalizing p q cs with
  | nil => cases h.stop_isSome
  | cons l ls ih =>
    obtain ⟨-, rest, hs, hrest⟩ := h.step
    by_cases hl : l.token = .eof
    · rw [if_pos hl] at hrest
      obtain ⟨rfl, -⟩ := hrest
      rw [hl] at hs
      refine ⟨_, reads_of_step_eof hs, ?_⟩
      simp [Lexeme.Alike, Lexeme.bare, hl]
    · rw [if_neg hl] at hrest
      obtain ⟨ms, hms, hlike⟩ := ih hrest (Lexeme.after ⟨l.token, l.gap, l.text, q⟩)
      refine ⟨_, reads_of_step hs hl hms, ?_⟩
      rw [Lexeme.Alike, List.map_cons, List.map_cons, hlike]
      rfl

end Lexer

namespace Selector
open Lexeme (Alike Blank token_eq_of_bare text_eq_of_bare)

section Alike
variable {ls ms : List Lexeme} {p : Part} {ps : List Part}

lemma Compares.alike {t : AttributeTest} (hc : Compares ls t) (h : Alike ls ms) : Compares ms t := by
  cases hc with
  | equals hl =>
    obtain ⟨m, rfl, hm⟩ := h.exists_singleton
    exact .equals ((token_eq_of_bare hm).trans hl)
  | marked hl hc hm =>
    obtain ⟨l', ms', rfl, hl', h⟩ := h.exists_cons
    obtain ⟨m', rfl, hm'⟩ := h.exists_singleton
    exact .marked ((token_eq_of_bare hl').trans hl) hc ((token_eq_of_bare hm').trans hm)

lemma Value.alike {l m : Lexeme} {value : String} (hv : Value l value) (h : l.bare = m.bare) : Value m value := by
  have ht := token_eq_of_bare h
  cases hv with
  | ident hl => exact .ident (ht.trans hl)
  | string hl => exact .string (ht.trans hl)
  | number hl => exact text_eq_of_bare h ▸ .number (ht.trans hl)
  | percentage hl => exact text_eq_of_bare h ▸ .percentage (ht.trans hl)
  | dimension hl => exact text_eq_of_bare h ▸ .dimension (ht.trans hl)

lemma Colons.alike {element : Bool} (hc : Colons ls element) (h : Alike ls ms) : Colons ms element := by
  cases hc with
  | single hl =>
    obtain ⟨m, rfl, hm⟩ := h.exists_singleton
    exact .single ((token_eq_of_bare hm).trans hl)
  | double hl hm =>
    obtain ⟨l', ms', rfl, hl', h⟩ := h.exists_cons
    obtain ⟨m', rfl, hm'⟩ := h.exists_singleton
    exact .double ((token_eq_of_bare hl').trans hl) ((token_eq_of_bare hm').trans hm)

lemma Simple.alike (hs : Simple ls p) (h : Alike ls ms) : Simple ms p := by
  cases hs with
  | universal hl =>
    obtain ⟨m, rfl, hm⟩ := h.exists_singleton
    exact .universal ((token_eq_of_bare hm).trans hl)
  | typeName hl =>
    obtain ⟨m, rfl, hm⟩ := h.exists_singleton
    exact .typeName ((token_eq_of_bare hm).trans hl)
  | id hl =>
    obtain ⟨m, rfl, hm⟩ := h.exists_singleton
    exact .id ((token_eq_of_bare hm).trans hl)
  | className hd hl =>
    obtain ⟨d', ms', rfl, hd', h⟩ := h.exists_cons
    obtain ⟨l', rfl, hl'⟩ := h.exists_singleton
    exact .className ((token_eq_of_bare hd').trans hd) ((token_eq_of_bare hl').trans hl)
  | named hl h₁ hn h₂ hr =>
    obtain ⟨l', _, rfl, hl', h⟩ := h.exists_cons
    obtain ⟨b₁', _, rfl, hb₁, h⟩ := h.exists_append
    obtain ⟨n', _, rfl, hn', h⟩ := h.exists_cons
    obtain ⟨b₂', _, rfl, hb₂, h⟩ := h.exists_append
    obtain ⟨r', rfl, hr'⟩ := h.exists_singleton
    exact .named ((token_eq_of_bare hl').trans hl) (h₁.alike hb₁) ((token_eq_of_bare hn').trans hn)
      (h₂.alike hb₂) ((token_eq_of_bare hr').trans hr)
  | compared hl h₁ hn h₂ hop h₃ hv h₄ hr =>
    obtain ⟨l', _, rfl, hl', h⟩ := h.exists_cons
    obtain ⟨b₁', _, rfl, hb₁, h⟩ := h.exists_append
    obtain ⟨n', _, rfl, hn', h⟩ := h.exists_cons
    obtain ⟨b₂', _, rfl, hb₂, h⟩ := h.exists_append
    obtain ⟨op', _, rfl, hop', h⟩ := h.exists_append
    obtain ⟨b₃', _, rfl, hb₃, h⟩ := h.exists_append
    obtain ⟨v', _, rfl, hv', h⟩ := h.exists_cons
    obtain ⟨b₄', _, rfl, hb₄, h⟩ := h.exists_append
    obtain ⟨r', rfl, hr'⟩ := h.exists_singleton
    exact .compared ((token_eq_of_bare hl').trans hl) (h₁.alike hb₁) ((token_eq_of_bare hn').trans hn)
      (h₂.alike hb₂) (hop.alike hop') (h₃.alike hb₃) (hv.alike hv') (h₄.alike hb₄)
      ((token_eq_of_bare hr').trans hr)
  | pseudo hc hl hn =>
    obtain ⟨cs', _, rfl, hcs, h⟩ := h.exists_append
    obtain ⟨l', rfl, hl'⟩ := h.exists_singleton
    exact .pseudo (hc.alike hcs) ((token_eq_of_bare hl').trans hl) hn
  | pseudoFunction hc hl ha hw hr hn =>
    obtain ⟨cs', _, rfl, hcs, h⟩ := h.exists_append
    obtain ⟨l', _, rfl, hl', h⟩ := h.exists_cons
    obtain ⟨args', _, rfl, hargs, h⟩ := h.exists_append
    obtain ⟨r', rfl, hr'⟩ := h.exists_singleton
    exact .pseudoFunction (hc.alike hcs) ((token_eq_of_bare hl').trans hl) (hargs.tokens_eq ▸ ha)
      (hargs.written hw) ((token_eq_of_bare hr').trans hr) hn

lemma Compound.alike (hc : Compound ls ps) (h : Alike ls ms) : Compound ms ps := by
  induction hc generalizing ms with
  | single hs => exact .single (hs.alike h)
  | more hs _ ih =>
    obtain ⟨ms₁, ms₂, rfl, h₁, h₂⟩ := h.exists_append
    exact .more (hs.alike h₁) (ih h₂)

lemma Joins.alike {c : Combinator} (hj : Joins ls c) (h : Alike ls ms) : Joins ms c := by
  cases hj with
  | blank hl =>
    obtain ⟨m, rfl, hm⟩ := h.exists_singleton
    exact .blank ((token_eq_of_bare hm).trans hl)
  | written h₁ hl h₂ =>
    obtain ⟨b₁', _, rfl, hb₁, h⟩ := h.exists_append
    obtain ⟨l', b₂', rfl, hl', hb₂⟩ := h.exists_cons
    exact .written (h₁.alike hb₁) (token_eq_of_bare hl' ▸ hl) (h₂.alike hb₂)

lemma Complex.alike (hc : Complex ls ps) (h : Alike ls ms) : Complex ms ps := by
  induction hc generalizing ms with
  | compound hc => exact .compound (hc.alike h)
  | join hc hj _ ih =>
    obtain ⟨ms₁, _, rfl, h₁, h⟩ := h.exists_append
    obtain ⟨ms₂, ms₃, rfl, h₂, h₃⟩ := h.exists_append
    exact .join (hc.alike h₁) (hj.alike h₂) (ih h₃)

lemma Entry.alike {next next' : Lexeme} {s : Selector} (he : Entry ls next s) (h : Alike ls ms)
    (hn : next.bare = next'.bare) : Entry ms next' s := by
  cases he with
  | @mk b₁ ls b₂ _ ps h₁ hc h₂ =>
    obtain ⟨b₁', _, rfl, hb₁, h⟩ := h.exists_append
    obtain ⟨ls', b₂', rfl, hls, hb₂⟩ := h.exists_append
    have hhead : (b₂.headD next).bare = (b₂'.headD next').bare := by
      cases h₂ with
      | none => rw [hb₂.eq_nil]; exact hn
      | run _ =>
        obtain ⟨m, rfl, hm⟩ := hb₂.exists_singleton
        exact hm
    rw [← hls.writing_eq hhead]
    exact .mk (h₁.alike hb₁) (hc.alike hls) (h₂.alike hb₂)

lemma Listed.alike {ss : List Selector} (hl : Listed ls ss) (h : Alike ls ms) : Listed ms ss := by
  induction hl generalizing ms with
  | last he heof =>
    obtain ⟨ms', _, rfl, hms, h⟩ := h.exists_append
    obtain ⟨e', rfl, he'⟩ := h.exists_singleton
    exact .last (he.alike hms he') ((token_eq_of_bare he').trans heof)
  | more he hc _ ih =>
    obtain ⟨ms', _, rfl, hms, h⟩ := h.exists_append
    obtain ⟨c', rest, rfl, hc', hrest⟩ := h.exists_cons
    exact .more (he.alike hms hc') ((token_eq_of_bare hc').trans hc) (ih hrest)

end Alike

/-- The selectors of a text do not depend on where it stands. -/
lemma parseListAt_eq_ok_congr {p q : Location} {cs : List Char} {ss : List Selector} :
    parseListAt p cs = .ok ss ↔ parseListAt q cs = .ok ss := by
  have key (p q : Location) (h : parseListAt p cs = .ok ss) : parseListAt q cs = .ok ss := by
    obtain ⟨ls, hr, hl⟩ := parseListAt_eq_ok_iff.1 h
    obtain ⟨ms, hr', hlike⟩ := hr.relocate q
    exact parseListAt_eq_ok_iff.2 ⟨ms, hr', hl.alike hlike⟩
  exact ⟨key p q, key q p⟩

end Selector

end Stylebook
