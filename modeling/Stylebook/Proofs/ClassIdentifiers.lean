import Mathlib.Data.List.Nodup
import Mathlib.Data.List.Perm.Subperm
import Stylebook.Proofs.CanonicalWeight
import Stylebook.Proofs.CharacterTables
import Stylebook.Proofs.ImportOrder
import Stylebook.Proofs.IndexPaths

/-! The identifiers of the classes of a stylesheet. Each class has one, and no two have the same; which
one it is depends on the set of classes alone, and after a compile these are the classes that label edges
of the index. -/
namespace Stylebook

namespace ClassNames

variable {classPrefix : Option String} {taken : List String} {base chosen : String}

/-! ## The choice among candidates -/

/-- The identifiers that are tried for a class, one after the other: the one that it would have alone, then
that one with 2, 3, … behind it. -/
def candidate (base : String) : Nat → String
  | 0 => base
  | k + 1 => s!"{base}{k + 2}"

lemma toList_candidate_succ (base : String) (k : Nat) :
    (candidate base (k + 1)).toList = base.toList ++ Nat.toDigits 10 (k + 2) := by
  have htext : candidate base (k + 1) = base ++ (k + 2).repr := rfl
  rw [htext, String.toList_append, Nat.toList_repr]

/-- The digits behind the base tell the number. -/
lemma candidate_injective (base : String) : Function.Injective (candidate base) := by
  have hdigits (k : Nat) : Nat.toDigits 10 (k + 2) ≠ [] := Nat.toDigits_ne_nil
  intro j k h
  have htext := congrArg String.toList h
  cases j with
  | zero =>
    cases k with
    | zero => rfl
    | succ k =>
      rw [toList_candidate_succ] at htext
      exact absurd (List.self_eq_append_right.mp htext) (hdigits k)
  | succ j =>
    cases k with
    | zero =>
      rw [toList_candidate_succ] at htext
      exact absurd (List.append_right_eq_self.mp htext) (hdigits j)
    | succ k =>
      rw [toList_candidate_succ, toList_candidate_succ] at htext
      have hvalue := congrArg (Nat.ofDigitChars 10 · 0) (List.append_cancel_left htext)
      have hnumber : j + 2 = k + 2 := by simpa using hvalue
      omega

/-- The first of the candidates that is not taken. -/
def IsFirstFree (taken : List String) (base chosen : String) : Prop :=
  ∃ k, chosen = candidate base k ∧ chosen ∉ taken ∧ ∀ j < k, candidate base j ∈ taken

lemma IsFirstFree.congr {taken' : List String} (h : IsFirstFree taken base chosen)
    (hsame : ∀ i, i ∈ taken ↔ i ∈ taken') : IsFirstFree taken' base chosen := by
  obtain ⟨k, hk, hfree, hbefore⟩ := h
  exact ⟨k, hk, fun hmem => hfree ((hsame _).mpr hmem), fun j hj => (hsame _).mp (hbefore j hj)⟩

/-- There are more candidates than are taken. -/
lemma exists_candidate_notMem (taken : List String) (base : String) :
    ∃ k ≤ taken.length, candidate base k ∉ taken := by
  by_contra hall
  push Not at hall
  have hnodup : ((List.range (taken.length + 1)).map (candidate base)).Nodup :=
    List.nodup_range.map (candidate_injective base)
  have hsubset : (List.range (taken.length + 1)).map (candidate base) ⊆ taken := by
    intro i hi
    obtain ⟨k, hk, rfl⟩ := List.mem_map.mp hi
    exact hall k (Nat.lt_succ_iff.mp (List.mem_range.mp hk))
  have hlength := (List.subperm_of_subset hnodup hsubset).length_le
  rw [List.length_map, List.length_range] at hlength
  omega

/-- Trying from a number on finds the first free candidate, if those before are taken and one within reach
is not. -/
lemma isFirstFree_firstFree (tries : Nat) {m : Nat} (hbefore : ∀ j ≤ m, candidate base j ∈ taken)
    (hreach : ∃ k ≤ m + 1 + tries, candidate base k ∉ taken) :
    IsFirstFree taken base (firstFree taken base tries (m + 2)) := by
  have hbefore' : ∀ j < m + 1, candidate base j ∈ taken := fun j hj => hbefore j (Nat.lt_succ_iff.mp hj)
  induction tries generalizing m with
  | zero =>
    obtain ⟨k, hk, hfree⟩ := hreach
    have hlast : k = m + 1 := by
      by_contra hne
      exact hfree (hbefore k (by omega))
    subst hlast
    exact ⟨m + 1, rfl, hfree, hbefore'⟩
  | succ tries ih =>
    simp only [firstFree]
    split_ifs with hmem
    · have hmem : candidate base (m + 1) ∈ taken := List.contains_iff_mem.mp hmem
      have hbefore₁ : ∀ j ≤ m + 1, candidate base j ∈ taken := by
        intro j hj
        rcases Nat.lt_or_eq_of_le hj with hlt | rfl
        · exact hbefore' j hlt
        · exact hmem
      refine ih hbefore₁ ?_ (fun j hj => hbefore₁ j (Nat.lt_succ_iff.mp hj))
      obtain ⟨k, hk, hfree⟩ := hreach
      exact ⟨k, by omega, hfree⟩
    · exact ⟨m + 1, rfl, fun h => hmem (List.contains_iff_mem.mpr h), hbefore'⟩

lemma isFirstFree_free (taken : List String) (base : String) :
    IsFirstFree taken base (free taken base) := by
  unfold free
  split_ifs with hmem
  · have hbase : ∀ j ≤ 0, candidate base j ∈ taken := by
      intro j hj
      obtain rfl := Nat.le_zero.mp hj
      exact List.contains_iff_mem.mp hmem
    obtain ⟨k, hk, hfree⟩ := exists_candidate_notMem taken base
    exact isFirstFree_firstFree taken.length hbase ⟨k, by omega, hfree⟩
  · exact ⟨0, rfl, fun h => hmem (List.contains_iff_mem.mpr h), by simp⟩

lemma map_fst_assign (classPrefix : Option String) (taken names : List String) :
    (assign classPrefix taken names).map Prod.fst = names := by
  induction names generalizing taken with
  | nil => rfl
  | cons name names ih => simp [assign, ih]

/-- Each class has the first candidate that those before it left. -/
lemma isFirstFree_of_assign {names : List String} {before after : List (String × String)} {name : String}
    (h : assign classPrefix taken names = before ++ (name, chosen) :: after) :
    IsFirstFree (before.map Prod.snd ++ taken) (identifier classPrefix name) chosen := by
  induction names generalizing taken before with
  | nil => simp [assign] at h
  | cons first names ih =>
    rw [assign] at h
    cases before with
    | nil =>
      obtain ⟨hentry, -⟩ := List.cons.inj h
      obtain ⟨rfl, rfl⟩ := Prod.mk.inj hentry
      exact isFirstFree_free taken _
    | cons entry before =>
      obtain ⟨rfl, hrest⟩ := List.cons.inj h
      apply (ih hrest).congr
      intro i
      simp only [List.map_cons, List.cons_append, List.mem_append, List.mem_cons]
      tauto

/-- Identifiers differ from those taken before and from each other. -/
lemma nodup_assign (classPrefix : Option String) (taken names : List String) :
    ((assign classPrefix taken names).map Prod.snd).Nodup ∧
      ∀ i ∈ (assign classPrefix taken names).map Prod.snd, i ∉ taken := by
  induction names generalizing taken with
  | nil => simp [assign]
  | cons name names ih =>
    obtain ⟨hnodup, hfresh⟩ := ih (free taken (identifier classPrefix name) :: taken)
    obtain ⟨k, -, hfree, -⟩ := isFirstFree_free taken (identifier classPrefix name)
    rw [assign, List.map_cons]
    constructor
    · exact List.nodup_cons.mpr ⟨fun hmem => hfresh _ hmem (List.mem_cons_self ..), hnodup⟩
    · intro i hi
      rcases List.mem_cons.mp hi with rfl | hi
      · exact hfree
      · exact fun hmem => hfresh i hi (List.mem_cons_of_mem _ hmem)

/-! ## The letters of an identifier -/

/-- What all identifiers start with: the prefix, behind an underscore if it starts with a digit. -/
def lead (classPrefix : Option String) : List Char :=
  let letters := (classPrefix.getD "").toList
  if letters.head?.any (· ∈ Text.digits) then '_' :: letters else letters

/-- The letters of ASCII, the digits and the underscore. -/
def identifierChars : List Char := Text.smalls ++ Text.capitals ++ Text.digits ++ ['_']

/-- An identifier has such characters behind what all start with. It is not empty, and no digit is its first
character. -/
structure IsIdentifier (classPrefix : Option String) (text : String) : Prop where
  tail : ∃ tail, text.toList = lead classPrefix ++ tail ∧ ∀ c ∈ tail, c ∈ identifierChars
  first : ∃ c ∈ text.toList.head?, c ∉ Text.digits

lemma mem_identifierChars {c : Char} :
    c ∈ identifierChars ↔ c ∈ Text.smalls ∨ c ∈ Text.capitals ∨ c ∈ Text.digits ∨ c = '_' := by
  simp only [identifierChars, List.mem_append, List.mem_singleton, or_assoc]

lemma isIdentifierChar_iff {c : Char} : isIdentifierChar c = true ↔ c ∈ identifierChars := by
  rw [mem_identifierChars, ← Text.isLower_iff_mem, ← Text.isUpper_iff_mem, ← Text.isDigit_iff_mem,
    isIdentifierChar, Char.isAlphanum]
  delta Char.isAlpha
  simp only [Bool.or_eq_true, decide_eq_true_eq]
  tauto

lemma toUpper_mem_identifierChars {c : Char} (h : c ∈ identifierChars) : c.toUpper ∈ identifierChars := by
  unfold Char.toUpper
  split_ifs with hlower
  · apply mem_identifierChars.mpr
    obtain ⟨hleast, hgreatest⟩ := hlower
    rw [UInt32.le_iff_toNat_le] at hleast hgreatest
    -- The distance from the small letters to the capitals is negative, so the sum wraps around.
    have hdistance : ('A'.val - 'a'.val).toNat = 2 ^ 32 - 32 := rfl
    have hsmall : 'a'.val.toNat = 97 ∧ 'z'.val.toNat = 122 := ⟨rfl, rfl⟩
    refine .inr (.inl (Text.mem_capitals.mpr ?_))
    simp only [Char.toNat, UInt32.toNat_add]
    omega
  · exact h

lemma mem_identifierChars_of_mem_stem {name : String} {c : Char} (h : c ∈ stem name) : c ∈ identifierChars := by
  obtain ⟨d, -, rfl⟩ := List.mem_map.mp h
  split_ifs with hd
  · exact isIdentifierChar_iff.mp hd
  · exact mem_identifierChars.mpr (.inr (.inr (.inr rfl)))

lemma head?_guard (cs : List Char) : ∃ c ∈ (guard cs).head?, c ∉ Text.digits := by
  cases cs with
  | nil => exact ⟨'_', rfl, by decide⟩
  | cons c cs =>
    simp only [guard, Text.isDigit_iff_mem]
    split_ifs with hdigit
    · exact ⟨'_', rfl, by decide⟩
    · exact ⟨c, rfl, hdigit⟩

lemma guard_of_all {cs : List Char} (hchars : ∀ c ∈ cs, c ∈ identifierChars) :
    ∀ c ∈ guard cs, c ∈ identifierChars := by
  have hunderscore : '_' ∈ identifierChars := mem_identifierChars.mpr (.inr (.inr (.inr rfl)))
  cases cs with
  | nil => simpa [guard] using hunderscore
  | cons c cs =>
    simp only [guard]
    split_ifs
    · exact List.forall_mem_cons.mpr ⟨hunderscore, hchars⟩
    · exact hchars

/-- The guard makes an identifier of the prefix with such characters behind it. -/
lemma isIdentifier_guard {tail : List Char} (hchars : ∀ c ∈ tail, c ∈ identifierChars) :
    IsIdentifier classPrefix (String.ofList (guard ((classPrefix.getD "").toList ++ tail))) := by
  have hfirst := head?_guard ((classPrefix.getD "").toList ++ tail)
  cases hletters : (classPrefix.getD "").toList with
  | nil =>
    have hlead : lead classPrefix = [] := by simp [lead, hletters]
    rw [hletters] at hfirst
    exact ⟨⟨guard tail, by simp [hlead], guard_of_all hchars⟩, by simpa using hfirst⟩
  | cons c cs =>
    have hguard : guard (c :: cs ++ tail) = lead classPrefix ++ tail := by
      simp only [lead, hletters, guard, List.cons_append, List.head?_cons, Option.any_some, Text.isDigit_iff_mem,
        decide_eq_true_eq]
      split_ifs <;> rfl
    rw [hletters] at hfirst
    exact ⟨⟨tail, by rw [String.toList_ofList, hguard], hchars⟩, by simpa using hfirst⟩

lemma exists_withPrefix (classPrefix : Option String) {stem : List Char} (hstem : ∀ c ∈ stem, c ∈ identifierChars) :
    ∃ tail, withPrefix classPrefix stem = (classPrefix.getD "").toList ++ tail ∧
      ∀ c ∈ tail, c ∈ identifierChars := by
  cases classPrefix with
  | none => exact ⟨stem, rfl, hstem⟩
  | some letters =>
    cases hempty : letters.isEmpty with
    | true =>
      have hletters : letters = "" := String.isEmpty_iff.mp hempty
      exact ⟨stem, by simp [withPrefix, hletters], hstem⟩
    | false =>
      cases stem with
      | nil => exact ⟨[], by simp [withPrefix, hempty], by simp⟩
      | cons c cs =>
        obtain ⟨hc, hcs⟩ := List.forall_mem_cons.mp hstem
        refine ⟨c.toUpper :: cs, by simp [withPrefix, hempty], ?_⟩
        exact List.forall_mem_cons.mpr ⟨toUpper_mem_identifierChars hc, hcs⟩

lemma isIdentifier_identifier (classPrefix : Option String) (name : String) :
    IsIdentifier classPrefix (identifier classPrefix name) := by
  have hstem : ∀ c ∈ stem name, c ∈ identifierChars := fun _ => mem_identifierChars_of_mem_stem
  obtain ⟨tail, htail, hchars⟩ := exists_withPrefix classPrefix hstem
  rw [identifier, htail]
  exact isIdentifier_guard hchars

lemma IsIdentifier.candidate (h : IsIdentifier classPrefix base) (k : Nat) :
    IsIdentifier classPrefix (candidate base k) := by
  cases k with
  | zero => exact h
  | succ k =>
    obtain ⟨tail, htail, hchars⟩ := h.tail
    obtain ⟨c, hc, hdigit⟩ := h.first
    refine ⟨⟨tail ++ Nat.toDigits 10 (k + 2), ?_, ?_⟩, c, ?_, hdigit⟩
    · rw [toList_candidate_succ, htail, List.append_assoc]
    · intro d hd
      rcases List.mem_append.mp hd with hd | hd
      · exact hchars d hd
      · have hdigit := Nat.isDigit_of_mem_toDigits (by decide) (by decide) hd
        exact mem_identifierChars.mpr (.inr (.inr (.inl (Text.isDigit_iff_mem.mp hdigit))))
    · rw [toList_candidate_succ, List.head?_append, Option.mem_def.mp hc]
      rfl

lemma isIdentifier_of_assign {names : List String} {name : String}
    (h : (name, chosen) ∈ assign classPrefix taken names) : IsIdentifier classPrefix chosen := by
  obtain ⟨before, after, hsplit⟩ := List.append_of_mem h
  obtain ⟨k, rfl, -⟩ := isFirstFree_of_assign hsplit
  exact (isIdentifier_identifier classPrefix name).candidate k

/-- Names stand in increasing order, each with an identifier of its own, the first of its candidates that no
name before it has. -/
structure Identifies (classPrefix : Option String) (IsName : String → Prop)
    (entries : List (String × String)) : Prop where
  increasing : (entries.map Prod.fst).Pairwise (· < ·)
  mem_iff : ∀ name, name ∈ entries.map Prod.fst ↔ IsName name
  nodup : (entries.map Prod.snd).Nodup
  isIdentifier : ∀ entry ∈ entries, IsIdentifier classPrefix entry.2
  isFirstFree : ∀ before name chosen after, entries = before ++ (name, chosen) :: after →
    IsFirstFree (before.map Prod.snd) (identifier classPrefix name) chosen

lemma identifies_ofTerms (classPrefix : Option String) (terms : List Term) :
    Identifies classPrefix (fun name => ∃ t ∈ terms, name ∈ t.allClasses) (ofTerms classPrefix terms) where
  increasing := by
    rw [ofTerms, ofClasses, map_fst_assign]
    exact Ordered.pairwise_ofList Ordered.word_iff Function.injective_id _
  mem_iff name := by
    rw [ofTerms, ofClasses, map_fst_assign, Ordered.mem_ofList_iff Ordered.word_iff Function.injective_id,
      List.mem_flatMap]
  nodup := (nodup_assign ..).1
  isIdentifier _ := isIdentifier_of_assign
  isFirstFree _ _ _ _ h := by simpa using isFirstFree_of_assign h

/-- Identifiers are determined by what the names are. -/
lemma ofTerms_congr (classPrefix : Option String) {terms terms' : List Term}
    (h : ∀ name, (∃ t ∈ terms, name ∈ t.allClasses) ↔ ∃ t ∈ terms', name ∈ t.allClasses) :
    ofTerms classPrefix terms = ofTerms classPrefix terms' := by
  have hsame : Ordered.ofList Ordered.word (terms.flatMap Term.allClasses) =
      Ordered.ofList Ordered.word (terms'.flatMap Term.allClasses) := by
    have hincreasing := Ordered.pairwise_ofList Ordered.word_iff Function.injective_id
    apply Ordered.eq_of_mem_iff id (hincreasing _) (hincreasing _)
    intro name
    have hmem := @Ordered.mem_ofList_iff String String _ _ _ Ordered.word_iff Function.injective_id name
    rw [hmem, hmem, List.mem_flatMap, List.mem_flatMap, h]
  rw [ofTerms, ofTerms, ofClasses, ofClasses, hsame]

end ClassNames

/-! ## Classes on the edges of an index -/

namespace Term
variable {t : Term} {name : String}

lemma mem_allClasses_iff : name ∈ t.allClasses ↔ ∃ c ∈ t.compounds, name ∈ c.classes := by
  have hall : t.allClasses = t.compounds.flatMap Compound.classes := by
    simp [allClasses, compounds, List.flatMap_map]
  rw [hall, List.mem_flatMap]

/-- Links are no class edges. -/
lemma className_mem_path_iff : Edge.className name ∈ t.path ↔ name ∈ t.allClasses := by
  have hlink (l : Link) : Edge.className name ≠ Edge.ofLink l := by cases l <;> simp [Edge.ofLink]
  simp [path, allClasses, Compound.mem_path_iff, Compound.Has, hlink]

end Term

lemma isSome_lookup_iff {es : List (Edge × IndexNode)} {edge : Edge} :
    (es.lookup edge).isSome ↔ edge ∈ es.map Prod.fst := by
  induction es with
  | nil => simp
  | cons entry es ih =>
    rw [lookup_cons_eq_ite, List.map_cons, List.mem_cons, ← ih]
    split_ifs with h <;> simp [h]

lemma IndexNode.at?_concat (node : IndexNode) (path : List Edge) (edge : Edge) :
    node.at? (path ++ [edge]) = (node.at? path).bind fun end' => end'.branches.toList.lookup edge := by
  induction path generalizing node with
  | nil => cases h : node.branches.toList.lookup edge <;> simp [at?, h]
  | cons e path ih =>
    rw [List.cons_append, at?, at?, Option.bind_assoc]
    congr 1
    funext child
    exact ih child

namespace Index

/-- Some node of the index has an edge with this label. -/
def HasEdge (i : Index) (edge : Edge) : Prop :=
  ∃ path node, i.root.at? path = some node ∧ edge ∈ node.branches.toList.map Prod.fst

lemma hasEdge_iff {i : Index} {edge : Edge} :
    i.HasEdge edge ↔ ∃ path, (i.root.at? (path ++ [edge])).isSome := by
  constructor
  · rintro ⟨path, node, hnode, hedge⟩
    refine ⟨path, ?_⟩
    rw [IndexNode.at?_concat, hnode]
    exact isSome_lookup_iff.mpr hedge
  · rintro ⟨path, hsome⟩
    rw [IndexNode.at?_concat] at hsome
    cases hnode : i.root.at? path with
    | none => simp [hnode] at hsome
    | some node =>
      rw [hnode] at hsome
      exact ⟨path, node, hnode, isSome_lookup_iff.mp hsome⟩

lemma isSome_at?_insertAll (i : Index) (is : List Insertion) (p : List Edge) :
    ((i.insertAll is).root.at? p).isSome ↔ (i.root.at? p).isSome ∨ ∃ s ∈ is, p <+: s.term.path := by
  induction is generalizing i with
  | nil => simp
  | cons s is ih =>
    rw [insertAll_cons, ih, insert, IndexNode.isSome_at?_insert]
    simp only [List.mem_cons, exists_eq_or_imp, or_assoc]

/-- The edges are those on the paths of the selectors that were inserted. -/
lemma hasEdge_insertAll_iff (is : List Insertion) (edge : Edge) :
    (empty.insertAll is).HasEdge edge ↔ ∃ s ∈ is, edge ∈ s.term.path := by
  have hempty (path : List Edge) : (empty.root.at? (path ++ [edge])).isSome = false := by
    cases path <;> rfl
  simp only [hasEdge_iff, isSome_at?_insertAll, hempty, Bool.false_eq_true, false_or]
  constructor
  · rintro ⟨path, s, hs, hprefix⟩
    exact ⟨s, hs, hprefix.subset (by simp)⟩
  · rintro ⟨s, hs, hedge⟩
    obtain ⟨path, rest, hsplit⟩ := List.append_of_mem hedge
    exact ⟨path, s, hs, rest, by rw [hsplit, List.append_assoc, List.singleton_append]⟩

end Index

namespace Session

/-- The index holds the selectors of the rules that were added, and no others. -/
def Indexed (s : Session) : Prop :=
  ∃ is : List Insertion, s.index = Index.empty.insertAll is ∧ s.terms = is.map Insertion.term

lemma Indexed.addRules {s : Session} (h : s.Indexed) (registry : Registry) (path : Path)
    (rules : List StyleRule) : (s.addRules registry path rules).1.Indexed := by
  obtain ⟨is, hindex, hterms⟩ := h
  have hadded (rs : List Rule) : (rs.foldl addRule s).Indexed := by
    refine ⟨is ++ rs.flatMap Rule.insertions, ?_, ?_⟩
    · rw [foldl_addRule, Index.insertAll_append, ← hindex, Index.addRules_eq_insertAll]
    · rw [foldl_addRule, List.map_append, ← hterms, List.map_flatMap]
      simp [Rule.insertions, Function.comp_def]
  rw [addRules_eq]
  rcases Rule.ofStyleRules registry rules with ⟨rs, e | _⟩
  · exact hadded rs
  · exact hadded rs

end Session

namespace Compiler

mutual

/-- Whatever becomes of a file, the index holds the selectors that were added. -/
lemma indexed_compileFile (c : Compiler) (chain : List Path) (path : Path) (source : String) {s : Session}
    (h : s.Indexed) : (c.compileFile chain path source s).1.Indexed := by
  rw [compileFile]
  dsimp only
  cases c.prepare path source with
  | error message => exact h
  | ok prepared =>
    dsimp only
    cases Stylesheet.parse prepared.text with
    | error f => exact h
    | ok sheet =>
      have himports := indexed_compileImports c (chain ++ [path]) path sheet.imports
        (s := ((s.read [path]).read prepared.filesRead).report (Stylesheet.events prepared.text)) h
      dsimp only
      split
      · next s₁ e heq => rwa [heq] at himports
      · next s₁ heq =>
        rw [heq] at himports
        exact himports.addRules ..
termination_by (c.library.outside (chain ++ [path]), 1, 0)

lemma indexed_compileImports (c : Compiler) (chain : List Path) (path : Path) (imports : List Import)
    {s : Session} (h : s.Indexed) : (c.compileImports chain path imports s).1.Indexed := by
  match imports with
  | [] =>
    rw [compileImports]
    exact h
  | i :: rest =>
    rw [compileImports]
    cases c.library.resolve path i.url with
    | error e => exact h
    | ok target =>
      dsimp only
      split_ifs with hchain hdone
      · exact h
      · exact indexed_compileImports c chain path rest h
      · split
        · exact h
        · next text _ =>
          have hfile := indexed_compileFile c chain target text
            (s := s.report [⟨.debug, s!"Importing {target.text} from {path.text}"⟩]) h
          split
          · next s₁ e heq => rwa [heq] at hfile
          · next s₁ heq =>
            rw [heq] at hfile
            exact indexed_compileImports c chain path rest hfile
termination_by (c.library.outside chain, 0, imports.length)
decreasing_by
  · exact Prod.Lex.right _ (Prod.Lex.right _ (by simp))
  · rename_i hload
    exact Prod.Lex.left _ _ (Library.outside_append_lt (Library.mem_paths_of_load hload) hchain)
  · exact Prod.Lex.right _ (Prod.Lex.right _ (by simp))

end

/-- A compile that succeeds names the classes on the edges of its index. -/
lemma compileSource_names (c : Compiler) {path : Path} {source : String} {o : Compiled}
    (h : (c.compileSource path source).1 = .ok o) :
    ∃ terms, o.classNames = ClassNames.ofTerms c.options.classPrefix terms ∧
      ∀ name, o.index.HasEdge (.className name) ↔ ∃ t ∈ terms, name ∈ t.allClasses := by
  have hfile := indexed_compileFile c [] (c.sourcePath path) source
    (s := Session.empty.report [⟨.info, s!"Compiling {(c.sourcePath path).text}"⟩]) ⟨[], rfl, rfl⟩
  unfold compileSource at h
  dsimp only at h
  split at h
  · simp at h
  · next s heq =>
    rw [heq] at hfile
    obtain ⟨is, hindex, hterms⟩ := hfile
    obtain rfl := Except.ok.inj h
    dsimp only at hindex hterms ⊢
    refine ⟨s.terms, rfl, fun name => ?_⟩
    rw [hindex, Index.hasEdge_insertAll_iff, hterms]
    simp [Term.className_mem_path_iff]

lemma exists_compileSource {c : Compiler} {entry : String} {o : Compiled}
    (h : (c.compile entry).1 = .ok o) : ∃ path source, (c.compileSource path source).1 = .ok o := by
  unfold compile at h
  split at h
  · simp at h
  · next path _ =>
    split at h
    · simp at h
    · next source _ => exact ⟨path, source, h⟩

end Compiler

/-- The classes that selectors mention each have an identifier of their own, whatever the order of the selectors
and however often each is there. After a compile these are the classes on the edges of the index. -/
theorem ClassNames.ofTerms_identifies_classes (classPrefix : Option String) (terms : List Term) :
    Identifies classPrefix (fun name => ∃ t ∈ terms, ∃ c ∈ t.compounds, name ∈ c.classes)
        (ofTerms classPrefix terms) ∧
      (∀ terms' : List Term, (∀ t, t ∈ terms' ↔ t ∈ terms) →
        ofTerms classPrefix terms' = ofTerms classPrefix terms) ∧
      ∀ (c : Compiler) (o : Compiler.Compiled),
        (∃ entry, (c.compile entry).1 = .ok o) ∨ (∃ path source, (c.compileSource path source).1 = .ok o) →
        Identifies c.options.classPrefix (fun name => o.index.HasEdge (.className name)) o.classNames := by
  refine ⟨?_, fun terms' hsame => ?_, fun c o hcompile => ?_⟩
  · simpa only [Term.mem_allClasses_iff] using identifies_ofTerms classPrefix terms
  · apply ofTerms_congr
    intro name
    simp only [hsame]
  · obtain ⟨path, source, hsource⟩ : ∃ path source, (c.compileSource path source).1 = .ok o := by
      rcases hcompile with ⟨entry, hentry⟩ | hsource
      · exact Compiler.exists_compileSource hentry
      · exact hsource
    obtain ⟨terms, hnames, hedges⟩ := c.compileSource_names hsource
    simpa only [hnames, hedges] using identifies_ofTerms c.options.classPrefix terms

/-- Two classes would have the same identifier, and the prefix starts with a digit. -/
theorem ClassNames.ofTerms_identifies_classes_alike :
    let dashed : Term := ⟨⟨[], ["a-b"], none, [], false, false, []⟩, []⟩
    let capital : Term := ⟨⟨[], ["aB"], none, [], false, false, []⟩, [(.child, dashed.head)]⟩
    let c : Compiler := .ofShelf ⟨[], [], some "9"⟩ (Shelf.ofFiles [(⟨"main"⟩, ".a-b>.aB,.a-b\x7bx:1\x7d")]) ⟨"/"⟩
    ofTerms (some "9") [capital, dashed, capital] = [("a-b", "_9AB"), ("aB", "_9AB2")] ∧
      ofTerms (some "9") [dashed, capital] = [("a-b", "_9AB"), ("aB", "_9AB2")] ∧
      ∃ o, (c.compile "main").1 = .ok o ∧
        Identifies (some "9") (fun name => o.index.HasEdge (.className name)) o.classNames := by
  intro dashed capital c
  have himports : c.library.imports ⟨"main"⟩ = [] := by decide +kernel
  have horder : PostOrder c.library.imports [] [⟨"main"⟩] ([] ++ [⟨"main"⟩]) :=
    .visit (by decide) (by rw [himports]; exact .nil []) (.nil _)
  have hpath : (Shelf.ofFiles [(⟨"main"⟩, ".a-b>.aB,.a-b\x7bx:1\x7d")]).resolve ⟨""⟩ "main" = .ok ⟨"main"⟩ := by
    decide +kernel
  obtain ⟨o, ho⟩ := Compiler.exists_compile hpath horder (by decide) (by decide +kernel)
  obtain ⟨-, hsame, hcompile⟩ := ofTerms_identifies_classes (some "9") [dashed, capital]
  have hnames : ofTerms (some "9") [dashed, capital] = [("a-b", "_9AB"), ("aB", "_9AB2")] := by decide +kernel
  refine ⟨?_, hnames, o, ho, hcompile c o (.inl ⟨"main", ho⟩)⟩
  rw [hsame [capital, dashed, capital] (by simp), hnames]

end Stylebook
