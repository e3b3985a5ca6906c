import Stylebook.Compile
import Stylebook.Proofs.NormalPath
import Stylebook.Proofs.OrderedList
import Stylebook.Proofs.PostOrder
import Stylebook.Proofs.Readiness
import Stylebook.Proofs.Stamps

/-! What a compile makes of a stylesheet with imports: the index of the rules in all files that can be
reached by imports, each file once and after all files that it imports. -/
namespace Stylebook

namespace Library

/-- The stylesheet written in a file. -/
def sheet? (l : Library) (p : Path) : Option Stylesheet :=
  (l.load p).toOption.bind fun text => (Stylesheet.parse text).toOption

/-- The files that imports lead to, as seen from a file. -/
def targets (l : Library) (p : Path) (is : List Import) : List Path :=
  is.filterMap fun i => (l.resolve p i.url).toOption

/-- The files that a file imports, in its own order. -/
def imports (l : Library) (p : Path) : List Path :=
  ((l.sheet? p).map fun sheet => l.targets p sheet.imports).getD []

/-- The rules written in files, one file after the other. -/
def rulesIn (l : Library) (ps : List Path) : List StyleRule := (ps.filterMap l.sheet?).flatMap (·.rules)

variable {l : Library} {p : Path}

lemma sheet?_eq_some_iff {sheet : Stylesheet} :
    l.sheet? p = some sheet ↔ ∃ text, l.load p = .ok text ∧ Stylesheet.parse text = .ok sheet := by
  unfold sheet?
  cases l.load p with
  | error e => simp [Except.toOption]
  | ok text => cases hparse : Stylesheet.parse text <;> simp [Except.toOption, hparse]

lemma targets_cons {i : Import} {q : Path} (h : l.resolve p i.url = .ok q) (is : List Import) :
    l.targets p (i :: is) = q :: l.targets p is := by
  simp [targets, h, Except.toOption]

/-- Where all imports lead to files, these are the targets. -/
lemma forall₂_targets {is : List Import} (h : ∀ i ∈ is, (l.resolve p i.url).isOk = true) :
    List.Forall₂ (fun i q => l.resolve p i.url = .ok q) is (l.targets p is) := by
  induction is with
  | nil => exact .nil
  | cons i is ih =>
    obtain ⟨hi, his⟩ := List.forall_mem_cons.mp h
    cases hq : l.resolve p i.url with
    | error e => simp [hq, Except.isOk, Except.toBool] at hi
    | ok q =>
      rw [targets_cons hq]
      exact .cons hq (ih his)

lemma imports_eq {sheet : Stylesheet} (h : l.sheet? p = some sheet) :
    l.imports p = l.targets p sheet.imports := by
  simp [imports, h]

lemma rulesIn_concat {sheet : Stylesheet} (h : l.sheet? p = some sheet) (ps : List Path) :
    l.rulesIn (ps ++ [p]) = l.rulesIn ps ++ sheet.rules := by
  simp [rulesIn, h]

end Library

/-- The number of declarations that a rule stands for: each of its settings once for each selector. -/
def StyleRule.declarationCount (r : StyleRule) : Nat := r.selectors.length * r.settings.length

lemma Rule.count_of_ofStyleRules {registry : Registry} {rs : List StyleRule} {rules : List Rule}
    (h : ofStyleRules registry rs = (rules, none)) :
    Insertion.count (rules.flatMap insertions) = (rs.map StyleRule.declarationCount).sum := by
  have hall := ofStyleRules_eq_iff.mp h
  clear h
  induction hall with
  | nil => rfl
  | cons hr _ ih =>
    rw [List.flatMap_cons, Insertion.count_append, ih, count_insertions,
      declarationCount_of_ofStyleRule hr, List.map_cons, List.sum_cons, StyleRule.declarationCount]

namespace Compiler

/-- All is well with a file: there is a stylesheet in it, its imports lead to files, and its rules can
be made ready. -/
def Ready (c : Compiler) (p : Path) : Prop :=
  ∃ sheet ∈ c.library.sheet? p, (∀ i ∈ sheet.imports, (c.library.resolve p i.url).isOk = true) ∧
    (Rule.ofStyleRules c.registry sheet.rules).2 = none

instance (c : Compiler) (p : Path) : Decidable (c.Ready p) :=
  inferInstanceAs (Decidable (∃ sheet ∈ c.library.sheet? p, _))

/-- A new index to which the stylesheets in files were added, one after the other. -/
def indexOf (c : Compiler) (ps : List Path) : Index :=
  (ps.filterMap c.library.sheet?).foldl (fun i sheet => (i.addStylesheet c.registry sheet).1) .empty

lemma indexOf_concat {c : Compiler} {p : Path} {sheet : Stylesheet} {rules : List Rule}
    (hsheet : c.library.sheet? p = some sheet)
    (hrules : Rule.ofStyleRules c.registry sheet.rules = (rules, none)) (ps : List Path) :
    c.indexOf (ps ++ [p]) = (c.indexOf ps).addRules rules := by
  simp [indexOf, hsheet, Index.fst_addStylesheet, hrules]

end Compiler

namespace Session

/-- What adding rules changes in a session. -/
lemma foldl_addRule (rs : List Rule) (s : Session) :
    rs.foldl addRule s =
      { s with
        index := s.index.addRules rs
        terms := s.terms ++ rs.flatMap Rule.terms
        ruleCount := s.ruleCount + rs.length
        events := s.events ++ rs.flatMap Index.ruleEvents } := by
  induction rs generalizing s with
  | nil => simp [Index.addRules]
  | cons r rs ih =>
    rw [List.foldl_cons, ih]
    simp [addRule, Index.addRules, Nat.add_right_comm, Nat.add_assoc]

lemma addRules_eq_ok_iff {registry : Registry} {path : Path} {rules : List StyleRule} {s s' : Session} :
    s.addRules registry path rules = (s', .ok ()) ↔
      ∃ rs, Rule.ofStyleRules registry rules = (rs, none) ∧ s' = (rs.foldl addRule s).complete path := by
  rw [addRules_eq]
  rcases Rule.ofStyleRules registry rules with ⟨rs, e | _⟩ <;> simp [eq_comm]

/-- What holds of a session while the files of a chain are being compiled, each imported by the one
before it: the other files that were read are done with, and the index holds their rules. -/
structure Sound (c : Compiler) (chain : List Path) (s : Session) : Prop where
  nodup : (s.completed ++ chain).Nodup
  dependencies : s.dependencies.Perm (s.completed ++ chain)
  normal : ∀ p ∈ s.dependencies, p.IsNormal
  ready : ∀ p ∈ s.completed, c.Ready p
  index : s.index = c.indexOf s.completed.reverse
  ruleCount : s.ruleCount = (c.library.rulesIn s.completed.reverse).length
  declarationCount : s.index.declarationCount =
    ((c.library.rulesIn s.completed.reverse).map StyleRule.declarationCount).sum

namespace Sound
variable {c : Compiler} {chain : List Path} {s s' : Session} {p : Path}

lemma perm_of_chain (done chain : List Path) (p : Path) :
    (done ++ (chain ++ [p])).Perm (p :: (done ++ chain)) := by
  rw [← List.append_assoc]
  exact List.perm_append_singleton p _

lemma empty (c : Compiler) : Sound c [] .empty :=
  ⟨.nil, .nil, by simp [Session.empty], by simp [Session.empty], rfl, rfl, rfl⟩

lemma report (h : Sound c chain s) (events : List Event) : Sound c chain (s.report events) :=
  ⟨h.nodup, h.dependencies, h.normal, h.ready, h.index, h.ruleCount, h.declarationCount⟩

/-- A file that is read joins the chain. -/
lemma read (h : Sound c chain s) (hp : p.IsNormal) (hnew : p ∉ s.completed ++ chain) :
    Sound c (chain ++ [p]) (s.read [p]) := by
  have hperm : (Ordered.insert Path.lt p s.dependencies).Perm (p :: s.dependencies) :=
    Ordered.perm_insert (fun q hq => hp.eq_of_not_lt (h.normal q hq))
      (fun hq => hnew (h.dependencies.mem_iff.mp hq))
  have hlast := (perm_of_chain s.completed chain p).symm
  refine ⟨?_, ?_, fun q hq => ?_, h.ready, h.index, h.ruleCount, h.declarationCount⟩
  · exact hlast.nodup_iff.mp (List.nodup_cons.mpr ⟨hnew, h.nodup⟩)
  · exact (hperm.trans (h.dependencies.cons p)).trans hlast
  · rcases List.mem_cons.mp (hperm.mem_iff.mp hq) with rfl | hq
    · exact hp
    · exact h.normal q hq

/-- The last file of the chain is done with when its rules were added. -/
lemma addRules (h : Sound c (chain ++ [p]) s) {sheet : Stylesheet}
    (hsheet : c.library.sheet? p = some sheet)
    (himports : ∀ i ∈ sheet.imports, (c.library.resolve p i.url).isOk = true)
    (hadd : s.addRules c.registry p sheet.rules = (s', .ok ())) :
    Sound c chain s' ∧ s'.completed = p :: s.completed := by
  obtain ⟨rs, hrs, rfl⟩ := addRules_eq_ok_iff.mp hadd
  have hmove := perm_of_chain s.completed chain p
  have hlength : rs.length = sheet.rules.length := (Rule.ofStyleRules_eq_iff.mp hrs).length_eq.symm
  rw [foldl_addRule]
  refine ⟨⟨hmove.nodup_iff.mp h.nodup, h.dependencies.trans hmove, h.normal, fun q hq => ?_, ?_, ?_, ?_⟩,
    rfl⟩
  · rcases List.mem_cons.mp hq with rfl | hq
    · exact ⟨sheet, hsheet, himports, by rw [hrs]⟩
    · exact h.ready q hq
  · simp only [complete, List.reverse_cons, Compiler.indexOf_concat hsheet hrs, h.index]
  · simp only [complete, List.reverse_cons, Library.rulesIn_concat hsheet, List.length_append,
      h.ruleCount, hlength]
  · simp only [complete, List.reverse_cons, Library.rulesIn_concat hsheet, List.map_append,
      List.sum_append, Index.addRules_eq_insertAll, Index.declarationCount_insertAll,
      Rule.count_of_ofStyleRules hrs, h.declarationCount]

end Sound

end Session

namespace Compiler
variable {c : Compiler} {chain : List Path} {path : Path} {s s' : Session}

lemma compileFile_eq_ok_iff (hplain : c.prepare = .plain) {source : String} :
    c.compileFile chain path source s = (s', .ok ()) ↔
    ∃ sheet s₁, Stylesheet.parse source = .ok sheet ∧
      c.compileImports (chain ++ [path]) path sheet.imports
        ((s.read [path]).report (Stylesheet.events source)) = (s₁, .ok ()) ∧
      s₁.addRules c.registry path sheet.rules = (s', .ok ()) := by
  rw [compileFile, hplain]
  simp only [Preparation.plain]
  constructor
  · intro h
    split at h
    · simp at h
    · next sheet hsheet =>
      split at h
      · simp at h
      · next s₁ himports => exact ⟨sheet, s₁, hsheet, himports, h⟩
  · rintro ⟨sheet, s₁, hsheet, himports, hadd⟩
    have himports : c.compileImports (chain ++ [path]) path sheet.imports
      (((s.read [path]).read []).report (Stylesheet.events source)) = (s₁, .ok ()) := himports
    simp only [hsheet, himports, hadd]

lemma compileImports_cons_eq_ok_iff {i : Import} {rest : List Import} :
    c.compileImports chain path (i :: rest) s = (s', .ok ()) ↔
    ∃ target, c.library.resolve path i.url = .ok target ∧ target ∉ chain ∧
      if target ∈ s.completed then
        c.compileImports chain path rest
          (s.report [⟨.debug, s!"Skipping {target.text}, already compiled"⟩]) = (s', .ok ())
      else ∃ text s₁, c.library.load target = .ok text ∧
        c.compileFile chain target text
          (s.report [⟨.debug, s!"Importing {target.text} from {path.text}"⟩]) = (s₁, .ok ()) ∧
        c.compileImports chain path rest s₁ = (s', .ok ()) := by
  rw [compileImports]
  cases htarget : c.library.resolve path i.url with
  | error e => simp
  | ok target =>
    simp only [Except.ok.injEq, exists_eq_left']
    by_cases hchain : target ∈ chain
    · simp [hchain]
    simp only [hchain, dif_neg, not_false_eq_true, true_and]
    split_ifs
    · exact Iff.rfl
    · constructor
      · intro h
        split at h
        · simp at h
        · next text htext =>
          split at h
          · simp at h
          · next s₁ hfile => exact ⟨text, s₁, htext, hfile, h⟩
      · rintro ⟨text, s₁, htext, hfile, hrest⟩
        split
        · next e herror => simp [htext] at herror
        · next text' htext' =>
          obtain rfl := Except.ok.inj (htext.symm.trans htext')
          simp only [hfile, hrest]

mutual

/-- A file that was compiled is the last that is done with; before it all its imports are. -/
lemma sound_compileFile (hplain : c.prepare = .plain)
    (hnormal : ∀ base target p, c.library.resolve base target = .ok p → p.IsNormal)
    {chain : List Path} {path : Path} {source : String} {s s' : Session} (hs : s.Sound c chain)
    (hpath : path.IsNormal) (hnew : path ∉ s.completed ++ chain)
    (hl : c.library.load path = .ok source)
    (h : c.compileFile chain path source s = (s', .ok ())) :
    s'.Sound c chain ∧ ∃ below,
      PostOrder c.library.imports s.completed.reverse (c.library.imports path) below ∧
      s'.completed.reverse = below ++ [path] := by
  obtain ⟨sheet, s₁, hparse, himports, hadd⟩ := (compileFile_eq_ok_iff hplain).mp h
  have hsheet := Library.sheet?_eq_some_iff.mpr ⟨source, hl, hparse⟩
  obtain ⟨hs₁, hfound, horder⟩ :=
    sound_compileImports hplain hnormal ((hs.read hpath hnew).report _) himports
  obtain ⟨hs', hcompleted⟩ := hs₁.addRules hsheet hfound hadd
  refine ⟨hs', s₁.completed.reverse, ?_, ?_⟩
  · rw [Library.imports_eq hsheet]
    exact horder
  · rw [hcompleted, List.reverse_cons]
termination_by (c.library.outside (chain ++ [path]), 1, 0)

/-- Imports that were compiled all lead to files, and these were walked through in their order. -/
lemma sound_compileImports (hplain : c.prepare = .plain)
    (hnormal : ∀ base target p, c.library.resolve base target = .ok p → p.IsNormal)
    {chain : List Path} {path : Path} {imports : List Import} {s s' : Session} (hs : s.Sound c chain)
    (h : c.compileImports chain path imports s = (s', .ok ())) :
    s'.Sound c chain ∧ (∀ i ∈ imports, (c.library.resolve path i.url).isOk = true) ∧
      PostOrder c.library.imports s.completed.reverse (c.library.targets path imports)
        s'.completed.reverse := by
  match imports with
  | [] =>
    rw [compileImports] at h
    obtain rfl := (Prod.ext_iff.mp h).1
    exact ⟨hs, by simp, .nil _⟩
  | i :: rest =>
    obtain ⟨target, htarget, hchain, h⟩ := compileImports_cons_eq_ok_iff.mp h
    have hok : (c.library.resolve path i.url).isOk = true := by rw [htarget]; rfl
    rw [Library.targets_cons htarget, List.forall_mem_cons]
    split_ifs at h with hdone
    · obtain ⟨hs', hfound, horder⟩ := sound_compileImports hplain hnormal (hs.report _) h
      exact ⟨hs', ⟨hok, hfound⟩, .skip (List.mem_reverse.mpr hdone) horder⟩
    · obtain ⟨text, s₁, hl, hfile, hrest⟩ := h
      have hnew : target ∉ s.completed ++ chain := by simp [hdone, hchain]
      obtain ⟨hs₁, below, hbelow, hcompleted⟩ :=
        sound_compileFile hplain hnormal (hs.report _) (hnormal _ _ _ htarget) hnew hl hfile
      obtain ⟨hs', hfound, horder⟩ := sound_compileImports hplain hnormal hs₁ hrest
      rw [hcompleted] at horder
      exact ⟨hs', ⟨hok, hfound⟩, .visit (by simpa using hdone) hbelow horder⟩
termination_by (c.library.outside chain, 0, imports.length)
decreasing_by
  · exact Prod.Lex.right _ (Prod.Lex.right _ (by simp))
  · exact Prod.Lex.left _ _ (Library.outside_append_lt (Library.mem_paths_of_load hl) hchain)
  · exact Prod.Lex.right _ (Prod.Lex.right _ (by simp))

end

/-- A file that is ready can be compiled if its imports can be. -/
lemma exists_compileFile (hplain : c.prepare = .plain) (hready : c.Ready path) {done below : List Path}
    (himports : ∀ (imports : List Import) (s : Session),
      List.Forall₂ (fun i q => c.library.resolve path i.url = .ok q) imports (c.library.imports path) →
      s.completed.reverse = done → ∃ s₁, c.compileImports (chain ++ [path]) path imports s = (s₁, .ok ()) ∧
        s₁.completed.reverse = below) :
    ∃ text, c.library.load path = .ok text ∧ ∀ s : Session, s.completed.reverse = done →
      ∃ s', c.compileFile chain path text s = (s', .ok ()) ∧ s'.completed.reverse = below ++ [path] := by
  obtain ⟨sheet, hsheet, hfound, hrules⟩ := hready
  obtain ⟨text, hload, hparse⟩ := Library.sheet?_eq_some_iff.mp hsheet
  refine ⟨text, hload, fun s hs => ?_⟩
  rw [Library.imports_eq hsheet] at himports
  obtain ⟨s₁, hs₁, hbelow⟩ := himports sheet.imports ((s.read [path]).report (Stylesheet.events text))
    (Library.forall₂_targets hfound) hs
  obtain ⟨rs, hrs⟩ : ∃ rs, Rule.ofStyleRules c.registry sheet.rules = (rs, none) :=
    ⟨_, Prod.ext rfl hrules⟩
  refine ⟨(rs.foldl Session.addRule s₁).complete path, ?_, ?_⟩
  · exact (compileFile_eq_ok_iff hplain).mpr
      ⟨sheet, s₁, hparse, hs₁, Session.addRules_eq_ok_iff.mpr ⟨rs, hrs, rfl⟩⟩
  · rw [Session.foldl_addRule, Session.complete, List.reverse_cons, hbelow]

/-- Imports can be compiled if a walk through them meets only files that are ready, none of them twice
and none of the chain. -/
lemma exists_compileImports (hplain : c.prepare = .plain) {done ps out : List Path}
    (h : PostOrder c.library.imports done ps out) (hnodup : out.Nodup) (hready : ∀ p ∈ out, c.Ready p)
    (hchain : ∀ p ∈ out, p ∉ chain) {imports : List Import}
    (hps : List.Forall₂ (fun i q => c.library.resolve path i.url = .ok q) imports ps)
    (hs : s.completed.reverse = done) :
    ∃ s', c.compileImports chain path imports s = (s', .ok ()) ∧ s'.completed.reverse = out := by
  induction h generalizing chain path imports s with
  | nil done =>
    cases hps
    exact ⟨s, by rw [compileImports], hs⟩
  | @skip done ps out p hp rest ih =>
    cases hps with
    | cons hi hrest =>
      have hout : p ∉ chain := hchain p (rest.done_subset hp)
      have hskip : p ∈ s.completed := List.mem_reverse.mp (hs ▸ hp)
      simp only [compileImports_cons_eq_ok_iff, hi, Except.ok.injEq, exists_eq_left', hout, hskip,
        if_true, not_false_eq_true, true_and]
      exact ih hnodup hready hchain hrest hs
  | @visit done below ps out p hp inner rest ihInner ihRest =>
    cases hps with
    | cons hi hrest =>
      have hlast : p ∈ out := rest.done_subset (by simp)
      have hout : p ∉ chain := hchain p hlast
      have hnew : p ∉ s.completed := fun hmem => hp (hs ▸ List.mem_reverse.mpr hmem)
      have hsub : below ⊆ out := fun q hq => rest.done_subset (List.mem_append_left _ hq)
      obtain ⟨hbelow, -, hother⟩ := List.nodup_append.mp (hnodup.sublist rest.done_isPrefix.sublist)
      have hinner (q : Path) (hq : q ∈ below) : q ∉ chain ++ [p] := by
        simp [hchain q (hsub hq), hother q hq p]
      obtain ⟨text, hload, hfile⟩ := exists_compileFile hplain (hready p hlast) (fun _ _ hps hr =>
        ihInner hbelow (fun q hq => hready q (hsub hq)) hinner hps hr)
      simp only [compileImports_cons_eq_ok_iff, hi, Except.ok.injEq, exists_eq_left', hout, hnew,
        if_false, not_false_eq_true, true_and]
      generalize hr : s.report _ = r
      obtain ⟨s₁, hs₁, hdone⟩ := hfile r (by rw [← hr]; exact hs)
      obtain ⟨s', hs', hfinal⟩ := ihRest hnodup hready hchain hrest hdone
      exact ⟨s', ⟨text, s₁, hload, hs₁, hs'⟩, hfinal⟩

end Compiler

namespace Shelf
variable {shelf : Shelf} {base p : Path} {target : String}

lemma eq_of_resolve (h : shelf.resolve base target = .ok p) :
    p = (base.beside target).normalize ∧ (shelf.files.lookup p).isSome = true := by
  simp only [resolve] at h
  split_ifs at h with hfound
  obtain rfl := Except.ok.inj h
  exact ⟨rfl, hfound⟩

lemma isNormal_of_resolve (h : shelf.resolve base target = .ok p) : p.IsNormal :=
  (eq_of_resolve h).1 ▸ Path.isNormal_normalize _

/-- A path that was found is found again under its own text. -/
lemma resolve_text (h : shelf.resolve base target = .ok p) : shelf.resolve ⟨""⟩ p.text = .ok p := by
  have hself : (Path.beside ⟨""⟩ p.text).normalize = p := (isNormal_of_resolve h).normalize_eq
  simp only [resolve, hself, (eq_of_resolve h).2, if_true]

end Shelf

namespace Compiler

/-- A compiler for stylesheets on a shelf. -/
def ofShelf (options : Options) (shelf : Shelf) (workingDirectory : Path) : Compiler :=
  ⟨options, shelf.library, .plain, workingDirectory⟩

variable {options : Options} {shelf : Shelf} {workingDirectory : Path}

lemma compile_eq_ok_iff {entry : String} {o : Compiled} :
    let c := ofShelf options shelf workingDirectory
    (c.compile entry).1 = .ok o ↔ ∃ path, shelf.resolve ⟨""⟩ entry = .ok path ∧
      ∃ text, c.library.load path = .ok text ∧
      ∃ s, c.compileFile [] path text (Session.empty.report [⟨.info, s!"Compiling {path.text}"⟩]) =
        (s, .ok ()) ∧
      o = ⟨s.index, s.dependencies, ClassNames.ofTerms options.classPrefix s.terms, s.ruleCount⟩ := by
  intro c
  have hresolve (base : Path) (target : String) :
      c.library.resolve base target = shelf.resolve base target := rfl
  have hoptions : c.options = options := rfl
  rw [compile, hresolve]
  cases hpath : shelf.resolve ⟨""⟩ entry with
  | error e => simp
  | ok path =>
    cases hload : c.library.load path with
    | error e => simp [hload]
    | ok text =>
      -- The entry's path is looked up a second time, and found again.
      simp only [compileSource, sourcePath, hresolve, Shelf.resolve_text hpath, hoptions,
        Except.ok.injEq, exists_eq_left', hload]
      generalize c.compileFile [] path text _ = result
      rcases result with ⟨s, e | _⟩
      · simp
      · simp [eq_comm]

/-- A compile succeeds if a walk from the entry meets only files that are ready, none of them twice. -/
theorem exists_compile {entry : String} {path : Path} {listing : List Path}
    (hpath : shelf.resolve ⟨""⟩ entry = .ok path)
    (h : PostOrder (ofShelf options shelf workingDirectory).library.imports [] [path] listing)
    (hnodup : listing.Nodup) (hready : ∀ p ∈ listing, (ofShelf options shelf workingDirectory).Ready p) :
    ∃ o, ((ofShelf options shelf workingDirectory).compile entry).1 = .ok o := by
  cases h with
  | skip hp _ => cases hp
  | @visit _ below _ _ _ _ inner rest =>
    cases rest
    obtain ⟨hbelow, -, hother⟩ := List.nodup_append.mp hnodup
    have hinner (q : Path) (hq : q ∈ below) : q ∉ [] ++ [path] := by simpa using hother q hq path
    obtain ⟨text, hload, hfile⟩ := exists_compileFile rfl (hready path (by simp)) (fun _ _ hps hr =>
      exists_compileImports rfl inner hbelow (fun q hq => hready q (List.mem_append_left _ hq)) hinner
        hps hr)
    obtain ⟨s, hs, -⟩ := hfile (Session.empty.report [⟨.info, s!"Compiling {path.text}"⟩]) rfl
    exact ⟨_, compile_eq_ok_iff.mpr ⟨path, hpath, text, hload, s, hs, rfl⟩⟩

/-- A result is what a list of files gives: their rules are indexed one file after the other, and the
files read and the counts are theirs. -/
structure Compiled.IsOf (c : Compiler) (files : List Path) (o : Compiled) : Prop where
  index : o.index = c.indexOf files
  wire : o.wire = (c.indexOf files).wire
  dependencies : o.dependencies.Perm files
  ruleCount : o.ruleCount = (c.library.rulesIn files).length
  declarationCount : o.declarationCount =
    ((c.library.rulesIn files).map StyleRule.declarationCount).sum

/-- A compile that succeeds flattens imports: it gives what the files give that can be reached from the
entry by imports, each of them once, in the order in which a walk that follows the imports of each file
in turn is done with them. -/
theorem compile_flattens (options : Options) (files : List (Path × String))
    (workingDirectory : Path) {entry : String} {o : Compiled}
    (h : ((ofShelf options (Shelf.ofFiles files) workingDirectory).compile entry).1 = .ok o) :
    let c := ofShelf options (Shelf.ofFiles files) workingDirectory
    ∃ path listing, (Shelf.ofFiles files).resolve ⟨""⟩ entry = .ok path ∧
      PostOrder c.library.imports [] [path] listing ∧
      (∀ other, PostOrder c.library.imports [] [path] other → other = listing) ∧
      (∀ p, p ∈ listing ↔ Relation.ReflTransGen (fun p q => q ∈ c.library.imports p) path p) ∧
      listing.Nodup ∧ (∀ p ∈ listing, c.Ready p) ∧ o.IsOf c listing := by
  intro c
  obtain ⟨path, hpath, text, hload, s, hfile, rfl⟩ := compile_eq_ok_iff.mp h
  obtain ⟨hs, below, hbelow, hcompleted⟩ :=
    sound_compileFile rfl (fun _ _ _ => Shelf.isNormal_of_resolve) ((Session.Sound.empty c).report _)
      (Shelf.isNormal_of_resolve hpath) List.not_mem_nil hload hfile
  have horder : PostOrder c.library.imports [] [path] s.completed.reverse :=
    .visit List.not_mem_nil hbelow (hcompleted ▸ .nil _)
  have hnodup := hs.nodup
  have hperm := hs.dependencies
  rw [List.append_nil] at hnodup hperm
  refine ⟨path, s.completed.reverse, hpath, horder, fun _ => horder.unique,
    fun p => horder.mem_iff_reachable, List.nodup_reverse.mpr hnodup,
    fun p hp => hs.ready p (List.mem_reverse.mp hp), ?_⟩
  exact ⟨hs.index, congrArg Index.wire hs.index, hperm.trans (List.reverse_perm _).symm, hs.ruleCount,
    hs.declarationCount⟩

/-- Two files import a third, and a fourth imports both: the third comes first, and once. -/
theorem compile_flattens_diamond :
    let main : Path × String := (⟨"main"⟩, "@import 'a'; @import 'b'; V\x7bx:1\x7d")
    let a : Path × String := (⟨"a"⟩, "@import 'base'; L,V\x7bx:2;y:3\x7d")
    let b : Path × String := (⟨"b"⟩, "@import './base'; V>L\x7bx:4\x7d")
    let base : Path × String := (⟨"base"⟩, "V\x7bx:5\x7d")
    let c := ofShelf ⟨[], [], none⟩ (Shelf.ofFiles [main, a, b, base]) ⟨"/"⟩
    ∃ o, (c.compile "main").1 = .ok o ∧ o.IsOf c [base.1, a.1, b.1, main.1] ∧ o.ruleCount = 4 ∧
      o.declarationCount = 7 := by
  intro main a b base c
  have hpath : (Shelf.ofFiles [main, a, b, base]).resolve ⟨""⟩ "main" = .ok main.1 := by decide +kernel
  have hmain : c.library.imports main.1 = [a.1, b.1] := by decide +kernel
  have ha : c.library.imports a.1 = [base.1] := by decide +kernel
  have hb : c.library.imports b.1 = [base.1] := by decide +kernel
  have hbase : c.library.imports base.1 = [] := by decide +kernel
  have hbelowA : PostOrder c.library.imports [] (c.library.imports a.1) ([] ++ [base.1]) := by
    rw [ha]
    exact .visit (by decide) (by rw [hbase]; exact .nil []) (.nil _)
  have hbelowB : PostOrder c.library.imports [base.1, a.1] (c.library.imports b.1) [base.1, a.1] := by
    rw [hb]
    exact .skip (by decide) (.nil _)
  have hbelow : PostOrder c.library.imports [] (c.library.imports main.1) ([base.1, a.1] ++ [b.1]) := by
    rw [hmain]
    exact .visit (by decide) hbelowA (.visit (by decide) hbelowB (.nil _))
  have horder : PostOrder c.library.imports [] [main.1] ([base.1, a.1, b.1] ++ [main.1]) :=
    .visit (by decide) hbelow (.nil _)
  obtain ⟨o, ho⟩ := exists_compile hpath horder (by decide) (by decide +kernel)
  obtain ⟨path, listing, hpath', -, hunique, -, -, -, hof⟩ := compile_flattens _ _ _ ho
  obtain rfl := Except.ok.inj (hpath.symm.trans hpath')
  obtain rfl := hunique _ horder
  refine ⟨o, ho, hof, ?_, ?_⟩
  · rw [hof.ruleCount]
    decide +kernel
  · rw [hof.declarationCount]
    decide +kernel

end Compiler

end Stylebook
