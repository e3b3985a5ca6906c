import Stylebook.Proofs.ImportOrder
import Stylebook.Proofs.IndexPaths

/-! What is found on a shelf. Texts stand there under normal paths, and a later text takes the place of an earlier
one whose path leads to the same normal path; so a path that was found once is found again under its own name,
with the last text that was put there. -/
namespace Stylebook

lemma Component.lt_irrefl (c : Component) : lt c c = false := by
  cases c with
  | name s => exact decide_eq_false (String.lt_irrefl s)
  | _ => rfl

lemma Path.lt_irrefl (p : Path) : lt p p = false := by
  unfold lt
  induction p.components with
  | nil => rfl
  | cons c cs ih => simp [List.cons_lex_cons, Component.lt_irrefl, ih]

/-- The text is the last one put under a path that leads to the given normal path. -/
def LastUnder (files : List (Path × String)) (p : Path) (text : String) : Prop :=
  ∃ before q after, files = before ++ (q, text) :: after ∧ q.normalize = p ∧ ∀ f ∈ after, f.1.normalize ≠ p

lemma lastUnder_concat {files : List (Path × String)} {q p : Path} {new text : String} :
    LastUnder (files ++ [(q, new)]) p text ↔
      if p = q.normalize then new = text else LastUnder files p text := by
  constructor
  · rintro ⟨before, r, after, heq, hr, hafter⟩
    rcases List.eq_nil_or_concat after with rfl | ⟨after, last, rfl⟩
    · obtain ⟨-, hlast⟩ := List.append_inj' heq rfl
      obtain ⟨rfl, rfl⟩ := Prod.mk.inj (List.singleton_inj.mp hlast)
      rw [if_pos hr.symm]
    · rw [List.concat_eq_append, ← List.cons_append, ← List.append_assoc] at heq
      obtain ⟨rfl, hlast⟩ := List.append_inj' heq rfl
      obtain rfl := List.singleton_inj.mp hlast
      have hne : p ≠ q.normalize := fun h => hafter (q, new) (by simp) h.symm
      rw [if_neg hne]
      exact ⟨before, r, after, rfl, hr, fun f hf => hafter f (by simp [hf])⟩
  · intro h
    split_ifs at h with hp
    · subst h hp
      exact ⟨files, q, [], rfl, rfl, by simp⟩
    · obtain ⟨before, r, after, rfl, hr, hafter⟩ := h
      refine ⟨before, r, after ++ [(q, new)], by simp, hr, ?_⟩
      intro f hf
      rcases List.mem_append.mp hf with hf | hf
      · exact hafter f hf
      · rw [List.mem_singleton.mp hf]
        exact Ne.symm hp

namespace Shelf

variable {shelf : Shelf} {base p : Path} {target : String}

/-- Texts stand under normal paths only. -/
def Normal (shelf : Shelf) : Prop := ∀ f ∈ shelf.files, f.1.IsNormal

lemma Normal.insert (h : shelf.Normal) (p : Path) (text : String) : (shelf.insert p text).Normal := by
  intro f hf
  rcases Ordered.mem_of_mem_put Prod.fst hf with rfl | hf
  · exact p.isNormal_normalize
  · exact h f hf

/-- A text put on a shelf is found under the normal path, and all others stay where they are. -/
lemma Normal.lookup_insert (h : shelf.Normal) (p : Path) (text : String) (q : Path) :
    (shelf.insert p text).files.lookup q =
      if q = p.normalize then some text else shelf.files.lookup q := by
  apply Ordered.lookup_put (Path.lt_irrefl _)
  intro f hf hlt hgt
  exact p.isNormal_normalize.eq_of_not_lt (h f hf) hlt hgt

lemma ofFiles_concat (files : List (Path × String)) (f : Path × String) :
    ofFiles (files ++ [f]) = (ofFiles files).insert f.1 f.2 := by
  simp [ofFiles]

lemma normal_ofFiles (files : List (Path × String)) : (ofFiles files).Normal := by
  induction files using List.reverseRecOn with
  | nil => simp [ofFiles, empty, Normal]
  | append_singleton files f ih =>
    rw [ofFiles_concat]
    exact ih.insert f.1 f.2

/-- After any row of insertions, the last text put under a normal path is found there. -/
lemma lookup_ofFiles_eq_some_iff {files : List (Path × String)} {text : String} :
    (ofFiles files).files.lookup p = some text ↔ LastUnder files p text := by
  induction files using List.reverseRecOn with
  | nil => simp [ofFiles, empty, LastUnder]
  | append_singleton files f ih =>
    obtain ⟨q, new⟩ := f
    rw [ofFiles_concat, (normal_ofFiles files).lookup_insert, lastUnder_concat]
    split_ifs with hp
    · rw [Option.some.injEq]
    · exact ih

lemma isSome_lookup_ofFiles_iff {files : List (Path × String)} :
    ((ofFiles files).files.lookup p).isSome = true ↔ ∃ f ∈ files, f.1.normalize = p := by
  induction files using List.reverseRecOn with
  | nil => simp [ofFiles, empty]
  | append_singleton files f ih =>
    rw [ofFiles_concat, (normal_ofFiles files).lookup_insert]
    by_cases hp : p = f.1.normalize
    · simp [hp]
    · simp [hp, ih, Ne.symm hp]

/-- What a compiler reads is what stands on the shelf. -/
lemma load_library (p : Path) (text : String) :
    shelf.library.load p = .ok text ↔ shelf.files.lookup p = some text := by
  have hlookup : shelf.library.files.lookup p = (shelf.files.lookup p).map .ok := lookup_map_snd _ _ _
  rw [Library.load, hlookup]
  cases shelf.files.lookup p <;> simp [Except.mapError]

/-- A shelf gives canonical paths. Normal paths stay as they are. Targets are found just when a text was put under
a path that leads to the same normal path; then the path found is normal, what is read there is the last such
text, both from the shelf and by a compiler, and the path leads to itself again. So an entry that is followed a
second time, to compile its text, stays the same. -/
theorem resolve_gives_canonical_paths (files : List (Path × String)) (base : Path) (target : String) :
    let shelf := ofFiles files
    (∀ p : Path, p.normalize.normalize = p.normalize) ∧
    ((∃ p, shelf.resolve base target = .ok p) ↔
      ∃ f ∈ files, f.1.normalize = (base.beside target).normalize) ∧
    ∀ p, shelf.resolve base target = .ok p →
      p.normalize = p ∧
      (∃ text, LastUnder files p text ∧ shelf.load p = .ok text ∧ shelf.library.load p = .ok text) ∧
      shelf.resolve ⟨""⟩ p.text = .ok p ∧
      ∀ options workingDirectory, (Compiler.ofShelf options shelf workingDirectory).sourcePath p = p := by
  intro shelf
  refine ⟨fun p => p.isNormal_normalize.normalize_eq, ?_, ?_⟩
  · rw [← isSome_lookup_ofFiles_iff]
    simp only [resolve]
    split_ifs with hfound
    · exact iff_of_true ⟨_, rfl⟩ hfound
    · exact iff_of_false (by simp) hfound
  · intro p hp
    have hself : p.normalize = p := (isNormal_of_resolve hp).normalize_eq
    have hagain := resolve_text hp
    obtain ⟨text, htext⟩ := Option.isSome_iff_exists.mp (eq_of_resolve hp).2
    have hload : shelf.load p = .ok text := by rw [load, hself, htext]
    refine ⟨hself, ⟨text, lookup_ofFiles_eq_some_iff.mp htext, hload, (load_library p text).mpr htext⟩, hagain, ?_⟩
    intro options workingDirectory
    have hresolve : (Compiler.ofShelf options shelf workingDirectory).library.resolve ⟨""⟩ p.text = .ok p := hagain
    rw [Compiler.sourcePath, hresolve]

/-- A text that was put on the shelf again under another name of the same path, and one above the root, where a
step up is kept. -/
theorem resolve_gives_canonical_paths_renewed :
    let files : List (Path × String) :=
      [(⟨"x/../a.css"⟩, "old"), (⟨"/../b.css"⟩, "above"), (⟨"./a.css"⟩, "new")]
    let shelf := ofFiles files
    shelf.resolve ⟨"dir/main.css"⟩ "../a.css" = .ok ⟨"a.css"⟩ ∧ LastUnder files ⟨"a.css"⟩ "new" ∧
      shelf.load ⟨"a.css"⟩ = .ok "new" ∧ shelf.resolve ⟨""⟩ "a.css" = .ok ⟨"a.css"⟩ ∧
      shelf.resolve ⟨"/main.css"⟩ "../b.css" = .ok ⟨"/../b.css"⟩ ∧
      Path.normalize ⟨"/../b.css"⟩ = ⟨"/../b.css"⟩ ∧ LastUnder files ⟨"/../b.css"⟩ "above" := by
  intro files shelf
  have hpath : shelf.resolve ⟨"dir/main.css"⟩ "../a.css" = .ok ⟨"a.css"⟩ := by decide +kernel
  have habove : shelf.resolve ⟨"/main.css"⟩ "../b.css" = .ok ⟨"/../b.css"⟩ := by decide +kernel
  have hnew : shelf.load ⟨"a.css"⟩ = .ok "new" := by decide +kernel
  have hkept : shelf.load ⟨"/../b.css"⟩ = .ok "above" := by decide +kernel
  obtain ⟨-, ⟨text, hlast, hload, -⟩, hagain, -⟩ := (resolve_gives_canonical_paths files _ _).2.2 _ hpath
  obtain ⟨hnormal, ⟨text', hlast', hload', -⟩, -, -⟩ := (resolve_gives_canonical_paths files _ _).2.2 _ habove
  obtain rfl : text = "new" := Except.ok.inj (hload.symm.trans hnew)
  obtain rfl : text' = "above" := Except.ok.inj (hload'.symm.trans hkept)
  exact ⟨hpath, hlast, hnew, hagain, habove, hnormal, hlast'⟩

end Shelf

end Stylebook
