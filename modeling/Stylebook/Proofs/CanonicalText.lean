import Mathlib.Data.List.Flatten
import Stylebook.Proofs.TermText

/-! Which canonical forms are read back from their text. Those are the forms without a quote or a backslash in the
value of an attribute. That no others are is a matter of counting: all attributes of the form would have to be found in
its text again, and there are too few backslashes and too few single quotes in it to write them. -/
namespace Stylebook

namespace Lexer
open Text

/-! ## The spelling of lexemes -/

/-- Every token but blanks and the end is spelled in its way, and does not begin with a blank. -/
def Spelled (ls : List Lexeme) : Prop :=
  ∀ l ∈ ls, l.token ≠ .whitespace → l.token ≠ .eof →
    Spelling l.token l.text ∧ ∀ c ∈ l.text.head?, isBlank c = false

lemma Spelled.append_left {ls ms : List Lexeme} (h : Spelled (ls ++ ms)) : Spelled ls :=
  fun l hl => h l (List.mem_append_left ms hl)

lemma Spelled.append_right {ls ms : List Lexeme} (h : Spelled (ls ++ ms)) : Spelled ms :=
  fun l hl => h l (List.mem_append_right ls hl)

lemma Reads.spelled {place : Location} {cs : List Char} {ls : List Lexeme} {stop : Option Fault}
    (h : Reads place cs ls stop) : Spelled ls := by
  induction ls generalizing place cs with
  | nil => simp [Spelled]
  | cons l ls ih =>
    obtain ⟨-, rest, hs, hrest⟩ := h.step
    refine List.forall_mem_cons.2 ⟨?_, ?_⟩
    · intro hblank heof
      obtain ⟨hw, -, -⟩ | ⟨cs₁, htrivia, hread⟩ := step_eq_token_iff.1 hs
      · exact absurd hw hblank
      · refine ⟨spelling_of_readToken hread heof, ?_⟩
        have hstop := trivia_rest htrivia
        have htiles := readToken_tiles cs₁
        rw [hread] at htiles
        intro c hc
        obtain ⟨tail, htext⟩ := List.head?_eq_some_iff.1 (Option.mem_def.1 hc)
        rw [← htiles, htext] at hstop
        exact (trivia_eq_stop hstop).1
    · split_ifs at hrest with heof
      · simp [hrest.1]
      · exact ih hrest

/-- The lexemes are written in the text one after the other. -/
lemma Reads.exists_rest {place : Location} {cs : List Char} {ls : List Lexeme} {stop : Option Fault}
    (h : Reads place cs ls stop) : ∃ rest, cs = ls.flatMap Lexeme.source ++ rest := by
  induction ls generalizing place cs with
  | nil => exact ⟨cs, rfl⟩
  | cons l ls ih =>
    obtain ⟨-, rest, hs, hrest⟩ := h.step
    have hcs := step_append cs
    rw [hs] at hcs
    split_ifs at hrest with heof
    · refine ⟨rest, ?_⟩
      rw [← hcs, hrest.1]
      simp [Step.taken, Step.rest, Lexeme.source]
    · obtain ⟨after, rfl⟩ := ih hrest
      refine ⟨after, ?_⟩
      rw [← hcs]
      simp [Step.taken, Step.rest, Lexeme.source]

lemma Spelled.isWord {ls : List Lexeme} {l : Lexeme} {name : String} (h : Spelled ls) (hl : l ∈ ls)
    (hname : l.token = .ident name) : IsWord name.toList := by
  obtain ⟨hs, hsolid⟩ := h l hl (by simp [hname]) (by simp [hname])
  have htoken : l.token.name? = some name := by rw [hname]; rfl
  obtain ⟨hne, hall, ⟨-, htext, hstarts⟩ | ⟨⟨isId, hhash⟩, -⟩⟩ := hs.of_name? htoken
  · rw [htext] at hstarts hsolid
    refine ⟨⟨hstarts, hall⟩, ?_⟩
    obtain ⟨c, tail, hcs⟩ := List.exists_cons_of_ne_nil hne
    rw [hcs] at hsolid hall ⊢
    refine ⟨c, tail, rfl, hsolid c rfl, ?_⟩
    rintro rfl
    exact absurd (hall '/' List.mem_cons_self) (by decide)
  · simp [hname] at hhash

end Lexer

/-- What is made of the value of an attribute. -/
def Edge.ofValue (g : String → List Char) (e : Edge) : List Char := (e.value?.map g).getD []

namespace Selector
open Lexer

/-! ## Values -/

section Values
variable {l : Lexeme} {v : String}

/-- A value is a string, or all its characters can stand in names and numbers. -/
lemma Value.cases (h : Value l v) (hs : Spelling l.token l.text) :
    (∀ c ∈ v.toList, isNumberChar c = true) ∨
      ∃ quote body, isQuote quote = true ∧ l.text = quote :: body ∧ quoted quote body = ⟨some v.toList, body, []⟩ := by
  cases h with
  | ident h =>
    obtain ⟨-, hall, -⟩ := hs.of_name? (show l.token.name? = some v by rw [h]; rfl)
    exact .inl fun c hc => isNumberChar_of_isNameChar (hall c hc)
  | string h =>
    rw [h] at hs
    exact .inr hs.of_string
  | number h =>
    rw [String.toList_ofList]
    exact .inl (hs.of_isNumeric (by rw [h]; rfl))
  | percentage h =>
    rw [String.toList_ofList]
    exact .inl (hs.of_isNumeric (by rw [h]; rfl))
  | dimension h =>
    rw [String.toList_ofList]
    exact .inl (hs.of_isNumeric (by rw [h]; rfl))

lemma Value.token_ne (h : Value l v) : l.token ≠ .whitespace ∧ l.token ≠ .eof := by
  cases h <;> simp_all

lemma notMem_of_isNumberChar {cs : List Char} {x : Char} (h : ∀ c ∈ cs, isNumberChar c = true)
    (hx : isNumberChar x = false) : x ∉ cs := by
  intro hmem
  rw [h x hmem] at hx
  cases hx

lemma Value.notMem_newline (h : Value l v) (hs : Spelling l.token l.text) : '\n' ∉ v.toList := by
  rcases h.cases hs with hall | ⟨quote, body, -, -, hquoted⟩
  · exact notMem_of_isNumberChar hall rfl
  · exact (of_quoted hquoted).1

/-- A backslash in a value is written twice. -/
lemma Value.count_backslash (h : Value l v) (hs : Spelling l.token l.text) :
    (v.toList ++ v.toList).count '\\' ≤ l.text.count '\\' := by
  rw [List.count_append]
  rcases h.cases hs with hall | ⟨quote, body, -, htext, hquoted⟩
  · rw [List.count_eq_zero.2 (notMem_of_isNumberChar hall rfl)]
    exact Nat.zero_le _
  · have hcount := (of_quoted hquoted).2.1
    rw [htext, List.count_cons]
    omega

/-- The single quotes that a value needs around it. -/
def enclosing (v : String) : List Char := if '"' ∈ v.toList then ['\'', '\''] else []

/-- Without backslashes, a value with a double quote in it can only be written between single quotes. -/
lemma Value.count_quote (h : Value l v) (hs : Spelling l.token l.text) (hslash : '\\' ∉ l.text) :
    (v.toList ++ enclosing v).count '\'' ≤ l.text.count '\'' := by
  rw [enclosing]
  rcases h.cases hs with hall | ⟨quote, body, hquote, htext, hquoted⟩
  · have hdouble : '"' ∉ v.toList := notMem_of_isNumberChar hall rfl
    rw [if_neg hdouble, List.append_nil, List.count_eq_zero.2 (notMem_of_isNumberChar hall rfl)]
    exact Nat.zero_le _
  · obtain ⟨rfl, hnot⟩ := (of_quoted hquoted).2.2 (by simp_all)
    simp only [isQuote, Bool.or_eq_true, beq_iff_eq] at hquote
    rw [htext]
    rcases hquote with rfl | rfl
    · simp [hnot]
    · rw [List.count_append, List.count_eq_zero.2 hnot]
      split_ifs <;> simp

end Values

/-! ## Predicates that are read -/

section Grammar
variable {ls : List Lexeme} {p : Part} {ps : List Part}

lemma Names.of_predicate? {element : Bool} {written : String} {argument : Option String} {e : Edge}
    (hn : Names element written argument p) (h : p.predicate? = some e) : e.IsSpelled ∧ e.value? = none := by
  cases hn with
  | element _ => cases h
  | pseudoClass _ _ =>
    unfold Part.predicate? at h
    split at h
    case h_5 | h_6 =>
      cases h
      exact ⟨trivial, rfl⟩
    case h_7 =>
      obtain ⟨nth, -, rfl⟩ := Option.map_eq_some_iff.1 h
      exact ⟨trivial, rfl⟩
    all_goals contradiction

lemma Simple.isSpelled (h : Simple ls p) (hls : Spelled ls) : ∀ e ∈ p.predicate?, e.IsSpelled := by
  intro e he
  cases h with
  | universal _ => cases he
  | typeName h =>
    cases he
    exact hls.isWord List.mem_cons_self h
  | @id l _ _ h =>
    cases he
    obtain ⟨hs, -⟩ := hls l List.mem_cons_self (by simp [h]) (by simp [h])
    obtain ⟨hne, hall, -⟩ := hs.of_name? (by rw [h]; rfl)
    exact ⟨hne, hall⟩
  | className _ h =>
    cases he
    exact hls.isWord (by simp) h
  | named _ _ _ _ _ => cases he
  | @compared _ n v _ _ _ _ _ _ name value test _ _ hn _ _ _ hv _ _ =>
    cases test with
    | equals =>
      cases he
      exact ⟨hls.isWord (by simp) hn, hv.notMem_newline (hls v (by simp) hv.token_ne.1 hv.token_ne.2).1⟩
    | _ => cases he
  | pseudo _ _ hn => exact (hn.of_predicate? he).1
  | pseudoFunction _ _ _ _ _ hn => exact (hn.of_predicate? he).1

/-- A value that is asked for is written. -/
lemma Simple.exists_value (h : Simple ls p) :
    ∀ e ∈ p.predicate?, e.value? = none ∨ ∃ l ∈ ls, ∃ v, Value l v ∧ e.value? = some v := by
  intro e he
  cases h with
  | @compared _ _ v _ _ _ _ _ _ _ value test _ _ _ _ _ _ hv _ _ =>
    cases test with
    | equals =>
      cases he
      exact .inr ⟨v, by simp, value, hv, rfl⟩
    | _ => cases he
  | pseudo _ _ hn => exact .inl (hn.of_predicate? he).2
  | pseudoFunction _ _ _ _ _ hn => exact .inl (hn.of_predicate? he).2
  | universal _ => cases he
  | named _ _ _ _ _ => cases he
  | _ =>
    cases he
    exact .inl rfl

lemma Compound.isSpelled (h : Compound ls ps) (hls : Spelled ls) : ∀ p ∈ ps, ∀ e ∈ p.predicate?, e.IsSpelled := by
  induction h with
  | single h => exact List.forall_mem_singleton.2 (h.isSpelled hls)
  | more h _ ih => exact List.forall_mem_cons.2 ⟨h.isSpelled hls.append_left, ih hls.append_right⟩

lemma Complex.isSpelled (h : Complex ls ps) (hls : Spelled ls) : ∀ p ∈ ps, ∀ e ∈ p.predicate?, e.IsSpelled := by
  induction h with
  | compound h => exact h.isSpelled hls
  | join h _ _ ih =>
    refine List.forall_mem_append.2 ⟨h.isSpelled hls.append_left, List.forall_mem_cons.2 ⟨?_, ?_⟩⟩
    · intro e he
      cases he
    · exact ih hls.append_right.append_right

/-! ## Characters that values take -/

section Count
variable {x : Char} {g : String → List Char}

lemma count_text_le {l : Lexeme} (h : l ∈ ls) : l.text.count x ≤ (ls.flatMap Lexeme.source).count x := by
  obtain ⟨front, back, rfl⟩ := List.append_of_mem h
  simp only [List.flatMap_append, List.flatMap_cons, Lexeme.source, List.count_append]
  omega

lemma Simple.count_le (h : Simple ls p) (hg : ∀ l ∈ ls, ∀ v, Value l v → (g v).count x ≤ l.text.count x) :
    ((Part.predicates [p]).flatMap (Edge.ofValue g)).count x ≤ (ls.flatMap Lexeme.source).count x := by
  cases hp : p.predicate? with
  | none => simp [Part.predicates, hp]
  | some e =>
    rw [Part.predicates, List.filterMap_cons_some hp, List.filterMap_nil, List.flatMap_singleton]
    rcases h.exists_value e hp with hnone | ⟨l, hl, v, hv, hsome⟩
    · simp [Edge.ofValue, hnone]
    · rw [Edge.ofValue, hsome]
      exact (hg l hl v hv).trans (count_text_le hl)

lemma Compound.count_le (h : Compound ls ps) (hg : ∀ l ∈ ls, ∀ v, Value l v → (g v).count x ≤ l.text.count x) :
    ((Part.predicates ps).flatMap (Edge.ofValue g)).count x ≤ (ls.flatMap Lexeme.source).count x := by
  induction h with
  | single h => exact h.count_le hg
  | @more ls ms p ps h _ ih =>
    obtain ⟨hls, hms⟩ := List.forall_mem_append.1 hg
    have hp := h.count_le hls
    have hps := ih hms
    rw [← List.singleton_append, Part.predicates, List.filterMap_append, List.flatMap_append, List.count_append,
      List.flatMap_append, List.count_append]
    exact Nat.add_le_add hp hps

/-- All values that are asked for are written, each in its own place. -/
lemma Complex.count_le (h : Complex ls ps) (hg : ∀ l ∈ ls, ∀ v, Value l v → (g v).count x ≤ l.text.count x) :
    ((Part.predicates ps).flatMap (Edge.ofValue g)).count x ≤ (ls.flatMap Lexeme.source).count x := by
  induction h with
  | compound h => exact h.count_le hg
  | @join ls ms ns ps qs c h _ _ ih =>
    obtain ⟨hls, hrest⟩ := List.forall_mem_append.1 hg
    have hps := h.count_le hls
    have hqs := ih (List.forall_mem_append.1 hrest).2
    rw [Part.predicates, List.filterMap_append, List.filterMap_cons_none rfl, List.flatMap_append, List.count_append,
      List.flatMap_append, List.flatMap_append, List.count_append, List.count_append]
    simp only [Part.predicates] at hps hqs
    omega

end Count

/-- A selector that is read, with what was read for it. -/
lemma exists_complex_of_parse {text : String} {s : Selector} (h : parse text = .ok s) :
    ∃ es, Complex es s.parts ∧ Spelled es ∧ ∀ x, (es.flatMap Lexeme.source).count x ≤ text.toList.count x := by
  obtain ⟨ls, hreads, hlisted⟩ := parseListAt_eq_ok_iff.1 (parse_eq_ok_iff.1 h)
  obtain ⟨front, es, b, next, after, rfl, hc, -, -, -⟩ := hlisted.exists_entry (List.mem_singleton_self s)
  refine ⟨es, hc, hreads.spelled.append_right.append_left, fun x => ?_⟩
  obtain ⟨rest, hrest⟩ := hreads.exists_rest
  rw [hrest]
  simp only [List.flatMap_append, List.count_append]
  omega

end Grammar

end Selector

namespace Edge
open Lexer

/-- Characters that are written only as parts of values. -/
lemma count_written {e : Edge} {x : Char} (he : e.IsSpelled) (hx : x = '\\' ∨ x = '\'') :
    e.written.count x = (e.ofValue String.toList).count x := by
  have hname {cs : List Char} (h : ∀ c ∈ cs, isNameChar c = true) : cs.count x = 0 := by
    apply List.count_eq_zero.2
    intro hmem
    rcases hx with rfl | rfl <;> exact absurd (h _ hmem) (by decide)
  have hmark : ∀ c ∈ ['#', '.', '[', '=', '"', ']', ':', '(', ')'], (c == x) = false := by
    rcases hx with rfl | rfl <;> simp
  have hpseudo {name : String} (h : name ∈ ["first-child", "last-child", "nth-child"]) :
      (pseudoWritten name).count x = 0 := by
    rw [pseudoWritten, List.count_cons, hname (isWord_of_mem h).forall_mem, hmark ':' (by decide)]
    rfl
  cases e with
  | tag name => exact hname he.forall_mem
  | id name => simp [written, List.count_cons, hname he.2, hmark, ofValue, value?]
  | className name => simp [written, List.count_cons, hname he.forall_mem, hmark, ofValue, value?]
  | attr name value => simp [written, List.count_cons, List.count_append, hname he.1.forall_mem, hmark, ofValue, value?]
  | firstChild => exact hpseudo (by simp)
  | lastChild => exact hpseudo (by simp)
  | nthChild nth =>
    have htext : nth.text.toList.count x = 0 := by
      apply List.count_eq_zero.2
      intro hmem
      rcases hx with rfl | rfl <;> exact absurd (nth.forall_mem_text _ hmem) (by decide)
    have hnth : (pseudoWritten "nth-child").count x = 0 := hpseudo (by simp)
    simp [written, List.count_cons, List.count_append, hnth, htext, hmark, ofValue, value?]
  | parent => cases he
  | ancestor => cases he

end Edge

namespace Compound

variable {c : Compound}

lemma forall_increasing {cs : List Compound} {pss : List (List Part)} (h : List.Forall₂ Gathers cs pss) :
    ∀ c ∈ cs, c.Increasing := by
  induction h with
  | nil => simp
  | cons hc _ ih => exact List.forall_mem_cons.2 ⟨hc.increasing, ih⟩

lemma edges_perm_path (c : Compound) : c.edges.Perm c.path := by
  unfold edges path
  simp only [List.append_assoc]
  exact (List.perm_append_comm_assoc _ _ _).trans (.append_left _ (List.perm_append_comm_assoc _ _ _))

lemma flatMap_ofValue_path (c : Compound) (g : String → List Char) :
    c.path.flatMap (Edge.ofValue g) = (c.attributes.map Prod.snd).flatMap g := by
  have hnil {α : Type} (as : List α) : as.flatMap (fun _ => ([] : List Char)) = [] :=
    List.flatMap_eq_nil_iff.2 fun _ _ => rfl
  unfold path
  cases c.tag <;> cases c.firstChild <;> cases c.lastChild <;>
    simp [List.flatMap_append, List.flatMap_map, Edge.ofValue, Edge.value?, hnil]

lemma count_written {x : Char} (h : ∀ e ∈ c.edges, e.IsSpelled) (hx : x = '\\' ∨ x = '\'') :
    c.written.count x = ((c.attributes.map Prod.snd).flatMap String.toList).count x := by
  rw [← flatMap_ofValue_path, ← (c.edges_perm_path.flatMap_right _).count_eq]
  unfold written
  split_ifs with huniversal
  · rw [(edges_eq_nil_iff c).2 huniversal]
    rcases hx with rfl | rfl <;> rfl
  · rw [List.count_flatMap, List.count_flatMap]
    exact congrArg List.sum (List.map_congr_left fun e he => Edge.count_written (h e he) hx)

end Compound

namespace Term

/-- The values of all attributes. -/
def values (t : Term) : List String := t.compounds.flatMap fun c => c.attributes.map Prod.snd

/-- No value has a double quote or a backslash in it. -/
def IsPlain (t : Term) : Prop := ∀ v ∈ t.values, Text.IsPlain v

instance (t : Term) : Decidable t.IsPlain := inferInstanceAs (Decidable (∀ v ∈ t.values, Text.IsPlain v))

variable {t u : Term} {s : Selector} {ps : List Part} {x : Char}

/-- The parts of a selector ask for the values of its canonical form, if not more often. -/
lemma Reads.count_values_le (h : t.Reads ps) (g : String → List Char) :
    (t.values.flatMap g).count x ≤ ((Part.predicates ps).flatMap (Edge.ofValue g)).count x := by
  have hvalues : t.values.flatMap g = (t.compounds.map Compound.path).flatten.flatMap (Edge.ofValue g) := by
    rw [values, List.flatMap_assoc, ← List.flatMap_def, List.flatMap_assoc]
    simp only [Compound.flatMap_ofValue_path]
  have hsub := (Edge.flatten_dedup_sublist ((Part.compounds ps).map Part.predicates)).flatMap (Edge.ofValue g)
  rw [hvalues, ((paths_perm h.compounds).flatMap_right _).count_eq,
    ← ((Part.predicates_perm ps).flatMap_right _).count_eq]
  exact hsub.count_le x

lemma count_text (h : ∀ c ∈ t.compounds, ∀ e ∈ c.edges, e.IsSpelled) (hx : x = '\\' ∨ x = '\'') :
    t.text.toList.count x = (t.values.flatMap String.toList).count x := by
  obtain ⟨hhead, houter⟩ := List.forall_mem_cons.1 h
  have hlink : ∀ o ∈ t.outer, (o.2.written ++ o.1.text.toList).count x =
      ((o.2.attributes.map Prod.snd).flatMap String.toList).count x := by
    intro o ho
    have htext : o.1.text.toList.count x = 0 := by
      rcases hx with rfl | rfl <;> cases o.1 <;> rfl
    rw [List.count_append, htext, Nat.add_zero]
    exact Compound.count_written (houter o.2 (List.mem_map_of_mem ho)) hx
  calc t.text.toList.count x
      = (t.outer.flatMap fun o => o.2.written ++ o.1.text.toList).count x + t.head.written.count x := by
        rw [toList_text, chainWritten, List.count_append, ((List.reverse_perm _).flatMap_right _).count_eq]
    _ = (t.outer.flatMap fun o => (o.2.attributes.map Prod.snd).flatMap String.toList).count x +
          ((t.head.attributes.map Prod.snd).flatMap String.toList).count x := by
        rw [List.count_flatMap, List.count_flatMap, Compound.count_written hhead hx]
        exact congrArg (List.sum · + _) (List.map_congr_left hlink)
    _ = (t.values.flatMap String.toList).count x := by
        rw [values, compounds, List.flatMap_cons, List.flatMap_append, List.count_append, List.flatMap_assoc,
          Nat.add_comm]
        simp only [List.flatMap_map]

lemma isSpelled_of_parse {input : String} (hs : Selector.parse input = .ok s) (ht : ofSelector s = .ok t) :
    ∀ c ∈ t.compounds, ∀ e ∈ c.edges, e.IsSpelled := by
  intro c hc e he
  obtain ⟨es, hcomplex, hes, -⟩ := Selector.exists_complex_of_parse hs
  have hpath : e ∈ (t.compounds.map Compound.path).flatten :=
    List.mem_flatten_of_mem (List.mem_map_of_mem hc) (c.edges_perm_path.subset he)
  have hdedup := (paths_perm (reads_of_foldlM ht).2.compounds).subset hpath
  have hpredicate := (Part.predicates_perm s.parts).subset ((Edge.flatten_dedup_sublist _).subset hdedup)
  obtain ⟨p, hp, he⟩ := List.mem_filterMap.1 hpredicate
  exact hcomplex.isSpelled hes p hp e he

lemma IsPlain.isReadable (h : t.IsPlain) (hspelled : ∀ c ∈ t.compounds, ∀ e ∈ c.edges, e.IsSpelled) :
    ∀ c ∈ t.compounds, c.IsReadable := by
  intro c hc e he
  refine ⟨hspelled c hc e he, ?_⟩
  intro v hv
  apply h v
  rw [Compound.mem_edges_iff] at he
  cases e with
  | attr name value =>
    cases hv
    exact List.mem_flatMap_of_mem hc (List.mem_map_of_mem he)
  | _ => cases hv

/-- Whatever values need besides their own characters cannot be found in the text, which has only these. -/
lemma notMem_extra {extra : String → List Char} {es : List Lexeme} (h : t.Reads ps) (hcomplex : Selector.Complex es ps)
    (hcount : (es.flatMap Lexeme.source).count x ≤ (t.values.flatMap String.toList).count x)
    (hextra : ∀ l ∈ es, ∀ v, Selector.Value l v → (v.toList ++ extra v).count x ≤ l.text.count x) :
    ∀ v ∈ t.values, x ∉ extra v := by
  have hvalues := h.count_values_le (x := x) fun v => v.toList ++ extra v
  have hwritten := hcomplex.count_le (g := fun v => v.toList ++ extra v) hextra
  have hsplit : (t.values.flatMap fun v => v.toList ++ extra v).count x =
      (t.values.flatMap String.toList).count x + (t.values.flatMap extra).count x := by
    generalize t.values = vs
    induction vs with
    | nil => rfl
    | cons v vs ih =>
      simp only [List.flatMap_cons, List.count_append, ih]
      omega
  have hnone : (t.values.flatMap extra).count x = 0 := by omega
  intro v hv hmem
  exact List.count_eq_zero.1 hnone (List.mem_flatMap_of_mem hv hmem)

/-- A form that is read back has no value with a quote or a backslash in it. -/
lemma isPlain_of_parse_text (hspelled : ∀ c ∈ t.compounds, ∀ e ∈ c.edges, e.IsSpelled)
    (hs : Selector.parse t.text = .ok s) (ht : ofSelector s = .ok t) : t.IsPlain := by
  obtain ⟨es, hcomplex, hes, hcount⟩ := Selector.exists_complex_of_parse hs
  have hreads := (reads_of_foldlM ht).2
  have hspelling {l : Lexeme} (hl : l ∈ es) {v : String} (hv : Selector.Value l v) :
      Lexer.Spelling l.token l.text := (hes l hl hv.token_ne.1 hv.token_ne.2).1
  have hslash : ∀ v ∈ t.values, '\\' ∉ v.toList :=
    notMem_extra hreads hcomplex ((hcount _).trans (count_text hspelled (.inl rfl)).le)
      fun l hl v hv => hv.count_backslash (hspelling hl hv)
  have hfree : ∀ l ∈ es, '\\' ∉ l.text := by
    intro l hl
    have hnone : (t.values.flatMap String.toList).count '\\' = 0 := by
      apply List.count_eq_zero.2
      simpa [List.mem_flatMap] using hslash
    have htext := count_text hspelled (x := '\\') (.inl rfl)
    have hsource := hcount '\\'
    have hlexeme := Selector.count_text_le (x := '\\') hl
    exact List.count_eq_zero.1 (by omega)
  have hquote : ∀ v ∈ t.values, '\'' ∉ Selector.enclosing v :=
    notMem_extra hreads hcomplex ((hcount _).trans (count_text hspelled (.inr rfl)).le)
      fun l hl v hv => hv.count_quote (hspelling hl hv) (hfree l hl)
  intro v hv
  refine ⟨?_, hslash v hv⟩
  intro hdouble
  apply hquote v hv
  simp [Selector.enclosing, hdouble]

/-- The canonical form of a selector is read back from its own text just when no attribute's value has a double quote or
a backslash in it. So two such forms with the same text are equal. -/
theorem text_reads_back_iff_plain {input : String} (hs : Selector.parse input = .ok s) (ht : ofSelector s = .ok t) :
    ((∃ s', Selector.parse t.text = .ok s' ∧ ofSelector s' = .ok t) ↔ t.IsPlain) ∧
      ∀ input' s' u, Selector.parse input' = .ok s' → ofSelector s' = .ok u → t.IsPlain → u.IsPlain →
        t.text = u.text → t = u := by
  have hback {input : String} {s : Selector} {t : Term} (hs : Selector.parse input = .ok s)
      (ht : ofSelector s = .ok t) (hplain : t.IsPlain) :
      ∃ s', Selector.parse t.text = .ok s' ∧ ofSelector s' = .ok t :=
    exists_parse_text (Compound.forall_increasing (reads_of_foldlM ht).2.compounds)
      (hplain.isReadable (isSpelled_of_parse hs ht))
  refine ⟨⟨?_, hback hs ht⟩, ?_⟩
  · rintro ⟨s', hs', ht'⟩
    exact isPlain_of_parse_text (isSpelled_of_parse hs ht) hs' ht'
  · intro input' s' u hs' hu hplain hplain' htext
    obtain ⟨r, hr, hrt⟩ := hback hs ht hplain
    obtain ⟨r', hr', hru⟩ := hback hs' hu hplain'
    rw [htext, hr'] at hr
    cases hr
    exact Except.ok.inj (hrt.symm.trans hru)

/-- A single quote in a value does no harm, and the order and spelling of the text are not those of the source. -/
theorem text_reads_back_iff_plain_reordered :
    let s : Selector := ⟨[.universal, .pseudoClass "nth-child" (some "odd"), .attr "title" (some (.equals, "it's")),
      .combinator .child, .className "b", .id "x", .className "a"], ⟨1, 4, 0⟩, "*:nth-child(odd)[title=\"it's\"]>.b#x.a"⟩
    let t : Term := ⟨{ Compound.universal with ids := ["x"], classes := ["a", "b"] },
      [(.child, { Compound.universal with attributes := [("title", "it's")], nths := [⟨2, 1⟩] })]⟩
    Selector.parse " *:nth-child(odd)[title=\"it's\"]>.b#x.a" = .ok s ∧ ofSelector s = .ok t ∧
      t.text = "[title=\"it's\"]:nth-child(2n+1) > #x.a.b" ∧
      ∃ s', Selector.parse t.text = .ok s' ∧ ofSelector s' = .ok t := by
  intro s t
  have hs : Selector.parse " *:nth-child(odd)[title=\"it's\"]>.b#x.a" = .ok s := by decide +kernel
  have ht : ofSelector s = .ok t := by decide +kernel
  exact ⟨hs, ht, by decide +kernel, (text_reads_back_iff_plain hs ht).1.2 (by decide +kernel)⟩

/-- One value with quotes in it and two attributes are written alike. -/
theorem text_confuses_quotes :
    let one : Selector := ⟨[.attr "a" (some (.equals, "x\"][b=\"y"))], ⟨0, 1, 0⟩, "[a='x\"][b=\"y']"⟩
    let two : Selector :=
      ⟨[.attr "a" (some (.equals, "x")), .attr "b" (some (.equals, "y"))], ⟨0, 2, 0⟩, "[a=x][b=y]"⟩
    let t : Term := ⟨{ Compound.universal with attributes := [("a", "x\"][b=\"y")] }, []⟩
    let u : Term := ⟨{ Compound.universal with attributes := [("a", "x"), ("b", "y")] }, []⟩
    Selector.parse "[a='x\"][b=\"y']" = .ok one ∧ Selector.parse "[a=x][b=y]" = .ok two ∧
      ofSelector one = .ok t ∧ ofSelector two = .ok u ∧ t ≠ u ∧ t.text = u.text := by
  decide +kernel

end Term

end Stylebook
