import Mathlib.Data.List.Chain
import Stylebook.Proofs.ImportOrder

/-! When a compile succeeds, and what it blames otherwise. It fails with a cycle only where imports lead
from the entry back to a file on the way, and the row of files that it then names shows how. -/
namespace Stylebook

namespace Library

/-- One file imports another. -/
def Imports (l : Library) (p q : Path) : Prop := q ∈ l.imports p

/-- One file leads to another by imports, in any number of steps. -/
def Reaches (l : Library) : Path → Path → Prop := Relation.ReflTransGen l.Imports

/-- One file leads back to itself. -/
def Cyclic (l : Library) (p : Path) : Prop := Relation.TransGen l.Imports p p

/-- A row of different files from an entry on, each imported by the one before it. -/
structure Trail (l : Library) (entry : Path) (row : List Path) : Prop where
  starts : row.head? = some entry
  imports : row.IsChain l.Imports
  nodup : row.Nodup

/-- A row of files from an entry on, each imported by the one before it, whose last file has occurred
once before, and no other file twice. -/
structure ClosesCycle (l : Library) (entry : Path) (chain : List Path) : Prop where
  starts : chain.head? = some entry
  imports : chain.IsChain l.Imports
  returns : ∃ row last, chain = row ++ [last] ∧ row.Nodup ∧ row.count last = 1

variable {l : Library} {entry p q : Path} {row : List Path}

lemma imports_iff : l.Imports p q ↔
    ∃ sheet, l.sheet? p = some sheet ∧ ∃ i ∈ sheet.imports, l.resolve p i.url = .ok q := by
  unfold Imports imports
  cases l.sheet? p with
  | none => simp
  | some sheet =>
    simp only [Option.map_some, Option.getD_some, targets, List.mem_filterMap, Option.some.injEq,
      exists_eq_left']
    refine exists_congr (fun i => and_congr_right (fun _ => ?_))
    cases l.resolve p i.url <;> simp [Except.toOption]

/-- The first file of a row leads to the last one. -/
lemma reaches_of_isChain (h : (row ++ [p]).IsChain l.Imports) (hstart : (row ++ [p]).head? = some entry) :
    l.Reaches entry p := by
  have hne : row ++ [p] ≠ [] := by simp
  have hhead : (row ++ [p]).head hne = entry := by
    simpa [List.head?_eq_some_head hne] using hstart
  have hgen := List.relationReflTransGen_of_exists_isChain _ h hne
  rwa [hhead, List.getLast_append_singleton] at hgen

namespace Trail

lemma singleton (l : Library) (entry : Path) : l.Trail entry [entry] :=
  ⟨rfl, .singleton _, List.nodup_singleton _⟩

lemma ne_nil (h : l.Trail entry row) : row ≠ [] := by
  rintro rfl
  cases h.starts

lemma isChain_concat (h : l.Trail entry (row ++ [p])) (hq : l.Imports p q) :
    (row ++ [p] ++ [q]).IsChain l.Imports :=
  h.imports.append (.singleton _) (by simpa using hq)

lemma head?_concat (h : l.Trail entry row) (q : Path) : (row ++ [q]).head? = some entry := by
  rw [List.head?_append_of_ne_nil _ h.ne_nil, h.starts]

lemma concat (h : l.Trail entry (row ++ [p])) (hq : l.Imports p q) (hnew : q ∉ row ++ [p]) :
    l.Trail entry (row ++ [p] ++ [q]) := by
  refine ⟨h.head?_concat q, h.isChain_concat hq, ?_⟩
  rw [List.nodup_append]
  exact ⟨h.nodup, List.nodup_singleton q, by simpa using fun r hr he => hnew (by simp [← he, hr])⟩

/-- A row that is continued with one of its own files closes a cycle. -/
lemma closesCycle (h : l.Trail entry (row ++ [p])) (hq : l.Imports p q) (hold : q ∈ row ++ [p]) :
    l.ClosesCycle entry (row ++ [p] ++ [q]) :=
  ⟨h.head?_concat q, h.isChain_concat hq,
    row ++ [p], q, rfl, h.nodup, List.count_eq_one_of_mem h.nodup hold⟩

lemma reaches (h : l.Trail entry (row ++ [p])) : l.Reaches entry p :=
  reaches_of_isChain h.imports h.starts

end Trail

/-- A row that closes a cycle leads to a file that leads back to itself. -/
lemma ClosesCycle.exists_cyclic {chain : List Path} (h : l.ClosesCycle entry chain) :
    ∃ p, l.Reaches entry p ∧ l.Cyclic p := by
  obtain ⟨hstart, hchain, row, last, rfl, -, hcount⟩ := h
  obtain ⟨before, after, rfl⟩ := List.append_of_mem (List.count_pos_iff.mp (by omega : 0 < row.count last))
  obtain ⟨next, more, hround⟩ := List.exists_cons_of_ne_nil (by simp : after ++ [last] ≠ [])
  rw [List.append_assoc, List.cons_append] at hstart hchain
  rw [hround, List.isChain_append_cons_cons] at hchain
  obtain ⟨hthere, hnext, hback⟩ := hchain
  refine ⟨last, reaches_of_isChain hthere (by cases before <;> simpa using hstart), .head' hnext ?_⟩
  exact reaches_of_isChain (hround ▸ hback) (by simp [hround])

end Library

namespace Compiler

/-- What a compile from an entry may blame when it fails: a file that can be reached and is no
stylesheet, a rule or an import in such a file, or a cycle. -/
inductive Blames (c : Compiler) (entry : Path) : CompileError → Prop
  | fault {p : Path} {text : String} {f : Fault} (hp : c.library.Reaches entry p)
      (hload : c.library.load p = .ok text) (hparse : Stylesheet.parse text = .error f) :
      Blames c entry (.fault p f)
  | selector {p : Path} {sheet : Stylesheet} {e : TermError} (hp : c.library.Reaches entry p)
      (hsheet : c.library.sheet? p = some sheet)
      (hrules : (Rule.ofStyleRules c.registry sheet.rules).2 = some e) : Blames c entry (.selector p e)
  | unresolved {p : Path} {sheet : Stylesheet} {i : Import} {e : FileError}
      (hp : c.library.Reaches entry p) (hsheet : c.library.sheet? p = some sheet)
      (hi : i ∈ sheet.imports) (hresolve : c.library.resolve p i.url = .error e) :
      Blames c entry (.file e)
  | unread {p : Path} {e : FileError} (hp : c.library.Reaches entry p)
      (hload : c.library.load p = .error e) : Blames c entry (.file e)
  | cycle {chain : List Path} (hchain : c.library.ClosesCycle entry chain) :
      Blames c entry (.cycle chain)

variable {c : Compiler} {chain : List Path} {path : Path} {s s' : Session} {e : CompileError}

/-- How compiling a file can fail: in itself, in its imports, or in its rules. -/
lemma compileFile_error_cases (hplain : c.prepare = .plain) {source : String}
    (h : c.compileFile chain path source s = (s', .error e)) :
    (∃ f, Stylesheet.parse source = .error f ∧ e = .fault path f) ∨
    ∃ sheet, Stylesheet.parse source = .ok sheet ∧
      ((∃ r s₁, c.compileImports (chain ++ [path]) path sheet.imports r = (s₁, .error e)) ∨
        ∃ t, (Rule.ofStyleRules c.registry sheet.rules).2 = some t ∧ e = .selector path t) := by
  rw [compileFile, hplain] at h
  simp only [Preparation.plain] at h
  split at h
  · next f hparse =>
    obtain ⟨-, he⟩ := Prod.mk.inj h
    exact .inl ⟨f, hparse, (Except.error.inj he).symm⟩
  · next sheet hparse =>
    refine .inr ⟨sheet, hparse, ?_⟩
    split at h
    · next s₁ e' himports =>
      obtain ⟨-, he⟩ := Prod.mk.inj h
      obtain rfl := Except.error.inj he
      exact .inl ⟨_, s₁, himports⟩
    · rw [Session.addRules_eq] at h
      rcases hrules : Rule.ofStyleRules c.registry sheet.rules with ⟨rs, t | _⟩
      · simp [hrules] at h
      · next t =>
        simp only [hrules, Prod.mk.injEq, Except.error.injEq] at h
        exact .inr ⟨t, rfl, h.2.symm⟩

/-- How compiling a row of imports can fail: at the first of them, or at the rest. -/
lemma compileImports_cons_error_cases {i : Import} {rest : List Import}
    (h : c.compileImports chain path (i :: rest) s = (s', .error e)) :
    (∃ t, c.library.resolve path i.url = .error t ∧ e = .file t) ∨
    ∃ target, c.library.resolve path i.url = .ok target ∧
      ((target ∈ chain ∧ e = .cycle (chain ++ [target])) ∨
        (target ∉ chain ∧
          ((∃ t, c.library.load target = .error t ∧ e = .file t) ∨
            ∃ text r s₁, c.library.load target = .ok text ∧
              c.compileFile chain target text r = (s₁, .error e))) ∨
        ∃ r, c.compileImports chain path rest r = (s', .error e)) := by
  rw [compileImports] at h
  split at h
  · next t hresolve =>
    obtain ⟨-, he⟩ := Prod.mk.inj h
    exact .inl ⟨t, hresolve, (Except.error.inj he).symm⟩
  · next target hresolve =>
    refine .inr ⟨target, hresolve, ?_⟩
    split_ifs at h with hchain hdone
    · obtain ⟨-, he⟩ := Prod.mk.inj h
      exact .inl ⟨hchain, (Except.error.inj he).symm⟩
    · exact .inr (.inr ⟨_, h⟩)
    · split at h
      · next t hload =>
        obtain ⟨-, he⟩ := Prod.mk.inj h
        exact .inr (.inl ⟨hchain, .inl ⟨t, hload, (Except.error.inj he).symm⟩⟩)
      · next text hload =>
        dsimp only at h
        split at h
        · next s₁ e' hfile =>
          obtain ⟨-, he⟩ := Prod.mk.inj h
          obtain rfl := Except.error.inj he
          exact .inr (.inl ⟨hchain, .inr ⟨text, _, s₁, hload, hfile⟩⟩)
        · exact .inr (.inr ⟨_, h⟩)

mutual

lemma blames_compileFile (hplain : c.prepare = .plain) {entry : Path} {chain : List Path} {path : Path}
    {source : String} {s s' : Session} {e : CompileError}
    (htrail : c.library.Trail entry (chain ++ [path])) (hload : c.library.load path = .ok source)
    (h : c.compileFile chain path source s = (s', .error e)) : c.Blames entry e := by
  rcases compileFile_error_cases hplain h with ⟨f, hparse, rfl⟩ | ⟨sheet, hparse, hcase⟩
  · exact .fault htrail.reaches hload hparse
  have hsheet := Library.sheet?_eq_some_iff.mpr ⟨source, hload, hparse⟩
  rcases hcase with ⟨r, s₁, himports⟩ | ⟨t, hrules, rfl⟩
  · exact blames_compileImports hplain htrail hsheet (List.Subset.refl _) himports
  · exact .selector htrail.reaches hsheet hrules
termination_by (c.library.outside (chain ++ [path]), 1, 0)

lemma blames_compileImports (hplain : c.prepare = .plain) {entry : Path} {chain : List Path}
    {path : Path} {sheet : Stylesheet} {imports : List Import} {s s' : Session} {e : CompileError}
    (htrail : c.library.Trail entry (chain ++ [path])) (hsheet : c.library.sheet? path = some sheet)
    (hsub : imports ⊆ sheet.imports)
    (h : c.compileImports (chain ++ [path]) path imports s = (s', .error e)) : c.Blames entry e := by
  match imports with
  | [] => simp [compileImports] at h
  | i :: rest =>
    obtain ⟨hi, hrest⟩ := List.cons_subset.mp hsub
    rcases compileImports_cons_error_cases h with ⟨t, hresolve, rfl⟩ | ⟨target, hresolve, hcase⟩
    · exact .unresolved htrail.reaches hsheet hi hresolve
    have himports : c.library.Imports path target :=
      Library.imports_iff.mpr ⟨sheet, hsheet, i, hi, hresolve⟩
    rcases hcase with ⟨hold, rfl⟩ | ⟨hnew, hcase⟩ | ⟨r, hfail⟩
    · exact .cycle (htrail.closesCycle himports hold)
    · have hnext := htrail.concat himports hnew
      rcases hcase with ⟨t, hload, rfl⟩ | ⟨text, r, s₁, hload, hfile⟩
      · exact .unread hnext.reaches hload
      · exact blames_compileFile hplain hnext hload hfile
    · exact blames_compileImports hplain htrail hsheet hrest hfail
termination_by (c.library.outside (chain ++ [path]), 0, imports.length)
decreasing_by
  · exact Prod.Lex.left _ _ (Library.outside_append_lt (Library.mem_paths_of_load hload) hnew)
  · exact Prod.Lex.right _ (Prod.Lex.right _ (by simp))

end

lemma ready_iff {p : Path} : c.Ready p ↔ ∃ sheet, c.library.sheet? p = some sheet ∧
    (∀ i ∈ sheet.imports, ∃ q, c.library.resolve p i.url = .ok q) ∧
    ∀ r ∈ sheet.rules, ∀ s ∈ r.selectors, ∃ t, Term.ofSelector s = .ok t := by
  refine exists_congr (fun sheet => and_congr Iff.rfl (and_congr ?_ Rule.ofStyleRules_snd_eq_none_iff))
  refine forall₂_congr (fun i _ => ?_)
  cases c.library.resolve p i.url <;> simp [Except.isOk, Except.toBool]

/-- Where all files that can be reached are ready, imports lead to files that can be read. -/
lemma forall_ready_iff {entry : Path} : (∀ p, c.library.Reaches entry p → c.Ready p) ↔
    ∀ p, c.library.Reaches entry p → ∃ sheet, c.library.sheet? p = some sheet ∧
      (∀ i ∈ sheet.imports, ∃ q text, c.library.resolve p i.url = .ok q ∧ c.library.load q = .ok text) ∧
      ∀ r ∈ sheet.rules, ∀ s ∈ r.selectors, ∃ t, Term.ofSelector s = .ok t := by
  constructor
  · intro hready p hp
    obtain ⟨sheet, hsheet, hfound, hselectors⟩ := ready_iff.mp (hready p hp)
    refine ⟨sheet, hsheet, fun i hi => ?_, hselectors⟩
    obtain ⟨q, hq⟩ := hfound i hi
    have hreach : c.library.Reaches entry q :=
      .tail hp (Library.imports_iff.mpr ⟨sheet, hsheet, i, hi, hq⟩)
    obtain ⟨sheet', hsheet', -⟩ := hready q hreach
    obtain ⟨text, hload, -⟩ := Library.sheet?_eq_some_iff.mp hsheet'
    exact ⟨q, text, hq, hload⟩
  · intro hfiles p hp
    obtain ⟨sheet, hsheet, hfound, hselectors⟩ := hfiles p hp
    refine ready_iff.mpr ⟨sheet, hsheet, fun i hi => ?_, hselectors⟩
    obtain ⟨q, -, hq, -⟩ := hfound i hi
    exact ⟨q, hq⟩

/-- Where all files that can be reached are ready, there is only a cycle to blame. -/
lemma Blames.exists_cycle {entry : Path} (h : c.Blames entry e)
    (hready : ∀ p, c.library.Reaches entry p → c.Ready p) :
    ∃ chain, e = .cycle chain ∧ c.library.ClosesCycle entry chain := by
  cases h with
  | fault hp hload hparse =>
    obtain ⟨sheet, hsheet, -, -⟩ := hready _ hp
    obtain ⟨text, hload', hparse'⟩ := Library.sheet?_eq_some_iff.mp hsheet
    obtain rfl := Except.ok.inj (hload.symm.trans hload')
    cases hparse.symm.trans hparse'
  | selector hp hsheet hrules =>
    obtain ⟨sheet, hsheet', -, hrules'⟩ := hready _ hp
    obtain rfl := Option.some.inj (hsheet.symm.trans hsheet')
    cases hrules.symm.trans hrules'
  | unresolved hp hsheet hi hresolve =>
    obtain ⟨sheet, hsheet', hfound, -⟩ := hready _ hp
    obtain rfl := Option.some.inj (hsheet.symm.trans hsheet')
    simpa [hresolve, Except.isOk, Except.toBool] using hfound _ hi
  | unread hp hload =>
    obtain ⟨sheet, hsheet, -, -⟩ := hready _ hp
    obtain ⟨text, hload', -⟩ := Library.sheet?_eq_some_iff.mp hsheet
    cases hload.symm.trans hload'
  | cycle hchain => exact ⟨_, rfl, hchain⟩

section
variable {options : Options} {shelf : Shelf} {workingDirectory : Path} {entry : String}

/-- How a compile can fail: its entry leads nowhere, or the files that can be reached are to blame. -/
lemma compile_error_cases
    (h : ((ofShelf options shelf workingDirectory).compile entry).1 = .error e) :
    (∃ t, shelf.resolve ⟨""⟩ entry = .error t ∧ e = .file t) ∨
    ∃ path, shelf.resolve ⟨""⟩ entry = .ok path ∧
      (ofShelf options shelf workingDirectory).Blames path e := by
  have hresolve (base : Path) (target : String) :
      (ofShelf options shelf workingDirectory).library.resolve base target = shelf.resolve base target :=
    rfl
  rw [compile, hresolve] at h
  cases hpath : shelf.resolve ⟨""⟩ entry with
  | error t =>
    simp only [hpath, Except.error.injEq] at h
    exact .inl ⟨t, rfl, h.symm⟩
  | ok path =>
    refine .inr ⟨path, rfl, ?_⟩
    cases hload : (ofShelf options shelf workingDirectory).library.load path with
    | error t =>
      simp only [hpath, hload, Except.error.injEq] at h
      exact h ▸ .unread .refl hload
    | ok text =>
      simp only [hpath, hload, compileSource, sourcePath, hresolve, Shelf.resolve_text hpath] at h
      split at h
      · next s e' hfile =>
        obtain rfl := Except.error.inj h
        exact blames_compileFile rfl (Library.Trail.singleton _ path) hload hfile
      · cases h

/-- After a compile that succeeds, all files that can be reached are ready and none leads back to
itself. -/
lemma ready_of_compile {o : Compiled}
    (h : ((ofShelf options shelf workingDirectory).compile entry).1 = .ok o) :
    ∃ path, shelf.resolve ⟨""⟩ entry = .ok path ∧
      (∀ p, (ofShelf options shelf workingDirectory).library.Reaches path p →
        (ofShelf options shelf workingDirectory).Ready p) ∧
      ∀ p, (ofShelf options shelf workingDirectory).library.Reaches path p →
        ¬ (ofShelf options shelf workingDirectory).library.Cyclic p := by
  obtain ⟨path, hpath, text, hload, s, hfile, -⟩ := compile_eq_ok_iff.mp h
  obtain ⟨hs, below, hbelow, hcompleted⟩ :=
    sound_compileFile rfl (fun _ _ _ => Shelf.isNormal_of_resolve) ((Session.Sound.empty _).report _)
      (Shelf.isNormal_of_resolve hpath) List.not_mem_nil hload hfile
  have horder : PostOrder (ofShelf options shelf workingDirectory).library.imports [] [path]
      s.completed.reverse := .visit List.not_mem_nil hbelow (hcompleted ▸ .nil _)
  refine ⟨path, hpath, fun p hp => ?_, fun p hp => ?_⟩
  · exact hs.ready p (List.mem_reverse.mp (horder.mem_iff_reachable.mpr hp))
  · exact horder.not_transGen_self (by simp) p (horder.mem_iff_reachable.mpr hp)

end

/-- A compile always comes to an end, and cycles are found exactly. It succeeds just when the entry leads
to a file and, in every file that can be reached from it, there is a stylesheet, all imports lead to files
and all selectors have a canonical form, and when no file that can be reached leads back to itself. When
it fails, what it blames is there to be blamed; a cycle is told as a row of files from the entry on that
comes back to one of them, so that without a cycle none is told of. -/
theorem compile_finds_cycles_exactly (options : Options) (files : List (Path × String))
    (workingDirectory : Path) (entry : String) :
    let shelf := Shelf.ofFiles files
    let c := ofShelf options shelf workingDirectory
    ((∃ o, (c.compile entry).1 = .ok o) ↔ ∃ path, shelf.resolve ⟨""⟩ entry = .ok path ∧
      (∀ p, c.library.Reaches path p → ∃ sheet, c.library.sheet? p = some sheet ∧
        (∀ i ∈ sheet.imports, ∃ q text, c.library.resolve p i.url = .ok q ∧
          c.library.load q = .ok text) ∧
        ∀ r ∈ sheet.rules, ∀ s ∈ r.selectors, ∃ t, Term.ofSelector s = .ok t) ∧
      ∀ p, c.library.Reaches path p → ¬ c.library.Cyclic p) ∧
    (∀ e, (c.compile entry).1 = .error e →
      (∃ t, shelf.resolve ⟨""⟩ entry = .error t ∧ e = .file t) ∨
      ∃ path, shelf.resolve ⟨""⟩ entry = .ok path ∧ c.Blames path e) ∧
    (∀ chain, (c.compile entry).1 = .error (.cycle chain) →
      ∃ path, shelf.resolve ⟨""⟩ entry = .ok path ∧ c.library.ClosesCycle path chain) ∧
    ∀ path, shelf.resolve ⟨""⟩ entry = .ok path →
      (∀ p, c.library.Reaches path p → ¬ c.library.Cyclic p) →
      ∀ chain, (c.compile entry).1 ≠ .error (.cycle chain) := by
  intro shelf c
  have hfail (e : CompileError) (h : (c.compile entry).1 = .error e) := compile_error_cases h
  have hchain (chain : List Path) (h : (c.compile entry).1 = .error (.cycle chain)) :
      ∃ path, shelf.resolve ⟨""⟩ entry = .ok path ∧ c.library.ClosesCycle path chain := by
    obtain ⟨t, -, ht⟩ | ⟨path, hpath, hblames⟩ := hfail _ h
    · cases ht
    · cases hblames with
      | cycle hcloses => exact ⟨path, hpath, hcloses⟩
  refine ⟨⟨?_, ?_⟩, hfail, hchain, ?_⟩
  · rintro ⟨o, ho⟩
    obtain ⟨path, hpath, hready, hcycle⟩ := ready_of_compile ho
    exact ⟨path, hpath, forall_ready_iff.mp hready, hcycle⟩
  · rintro ⟨path, hpath, hfiles, hcycle⟩
    cases ho : (c.compile entry).1 with
    | ok o => exact ⟨o, rfl⟩
    | error e =>
      exfalso
      obtain ⟨t, ht, -⟩ | ⟨path', hpath', hblames⟩ := hfail e ho
      · cases ht.symm.trans hpath
      · obtain rfl := Except.ok.inj (hpath.symm.trans hpath')
        obtain ⟨chain, -, hcloses⟩ := hblames.exists_cycle (forall_ready_iff.mpr hfiles)
        obtain ⟨p, hp, hp'⟩ := hcloses.exists_cyclic
        exact hcycle p hp hp'
  · intro path hpath hcycle chain h
    obtain ⟨path', hpath', hcloses⟩ := hchain chain h
    obtain rfl := Except.ok.inj (hpath.symm.trans hpath')
    obtain ⟨p, hp, hp'⟩ := hcloses.exists_cyclic
    exact hcycle p hp hp'

/-- Two files import each other, and nothing else is wrong with them: a cycle is told of. -/
theorem compile_finds_cycles_exactly_loop :
    let a : Path × String := (⟨"a"⟩, "@import 'b'; V\x7bx:1\x7d")
    let b : Path × String := (⟨"b"⟩, "@import './a';")
    let c := ofShelf ⟨[], [], none⟩ (Shelf.ofFiles [a, b]) ⟨"/"⟩
    ∃ chain, (c.compile "a").1 = .error (.cycle chain) ∧ c.library.ClosesCycle a.1 chain := by
  intro a b c
  obtain ⟨hok, hfail, -⟩ := compile_finds_cycles_exactly ⟨[], [], none⟩ [a, b] ⟨"/"⟩ "a"
  have hpath : (Shelf.ofFiles [a, b]).resolve ⟨""⟩ "a" = .ok a.1 := by decide +kernel
  have ha : c.library.imports a.1 = [b.1] := by decide +kernel
  have hb : c.library.imports b.1 = [a.1] := by decide +kernel
  have hreach (p : Path) (hp : c.library.Reaches a.1 p) : p = a.1 ∨ p = b.1 := by
    induction hp with
    | refl => exact .inl rfl
    | tail _ hstep ih =>
      rcases ih with rfl | rfl
      · exact .inr (by simpa [Library.Imports, ha] using hstep)
      · exact .inl (by simpa [Library.Imports, hb] using hstep)
  have hready (p : Path) (hp : c.library.Reaches a.1 p) : c.Ready p := by
    rcases hreach p hp with rfl | rfl <;> decide +kernel
  have hcyclic : c.library.Cyclic a.1 :=
    .head (show b.1 ∈ c.library.imports a.1 by simp [ha]) (.single (show a.1 ∈ _ by simp [hb]))
  cases hc : (c.compile "a").1 with
  | ok o =>
    obtain ⟨path, hpath', -, hnone⟩ := hok.mp ⟨o, hc⟩
    obtain rfl := Except.ok.inj (hpath.symm.trans hpath')
    exact absurd hcyclic (hnone _ .refl)
  | error e =>
    obtain ⟨t, ht, -⟩ | ⟨path, hpath', hblames⟩ := hfail e hc
    · cases ht.symm.trans hpath
    · obtain rfl := Except.ok.inj (hpath.symm.trans hpath')
      obtain ⟨chain, rfl, hcloses⟩ := hblames.exists_cycle hready
      exact ⟨chain, rfl, hcloses⟩

end Compiler

end Stylebook
