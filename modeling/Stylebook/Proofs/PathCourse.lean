import Mathlib.Data.List.Basic
import Stylebook.Library
import Stylebook.Proofs.NormalPath

/-! Where paths lead, and what a normal path keeps of that. Of the steps up that find no name to undo, a
normal path keeps one or none, as their number is odd or even: so it leads astray where there are two or more,
and tells paths apart that both end up at the root. -/
namespace Stylebook

namespace Component

/-- The directory that a component leads to. Directories are given by their names, innermost first; above the
root there is only the root. -/
def walk (dir : List String) : Component → List String
  | root => []
  | here => dir
  | up => dir.tail
  | name s => s :: dir

end Component

namespace Path
open Component

/-- Where a path leads from a directory when its components are followed one by one. -/
def destination (p : Path) (dir : List String) : List String := p.components.foldl walk dir

/-- Names that directories can have. -/
def IsDirectory (dir : List String) : Prop := ∀ s ∈ dir, (name s).Plain

/-- Two paths lead to the same place from every directory that lies deep enough. -/
def LeadAlike (p q : Path) : Prop :=
  ∃ depth, ∀ dir, IsDirectory dir → depth ≤ dir.length → p.destination dir = q.destination dir

/-- What the components of a path come to: whether they begin at the root, how many steps up find no name to
undo, and the names that are left, innermost first. -/
structure Course where
  rooted : Bool
  ups : ℕ
  names : List String

namespace Course

def start : Course := ⟨false, 0, []⟩

/-- One component further. -/
def step (c : Course) : Component → Course
  | root => ⟨true, 0, []⟩
  | here => c
  | up =>
    match c.names with
    | [] => { c with ups := c.ups + 1 }
    | _ :: outer => { c with names := outer }
  | name s => { c with names := s :: c.names }

/-- Where a course leads. -/
def goal (c : Course) (dir : List String) : List String :=
  c.names ++ if c.rooted then [] else dir.drop c.ups

/-- What a normal path has left of a course, last component first. -/
def trace (c : Course) : List Component :=
  c.names.map name ++ ((if c.ups % 2 = 1 then [up] else []) ++ if c.rooted then [root] else [])

section Step
variable (c : Course)

lemma goal_step (k : Component) (dir : List String) : (c.step k).goal dir = walk (c.goal dir) k := by
  obtain ⟨rooted, ups, names⟩ := c
  cases k with
  | root => rfl
  | here => rfl
  | name s => rfl
  | up =>
    cases names with
    | cons s outer => rfl
    | nil => cases rooted <;> simp [step, goal, walk, List.tail_drop]

/-- Following a component leaves what the course leaves. The root is not followed but begins a path. -/
lemma trace_step {k : Component} (hk : k ≠ root) : (c.step k).trace = follow c.trace k := by
  obtain ⟨rooted, ups, names⟩ := c
  cases k with
  | root => exact absurd rfl hk
  | here => rfl
  | name s => rfl
  | up =>
    cases names with
    | cons s outer => rfl
    | nil =>
      -- A step up that is left undoes the one before it.
      rcases Nat.mod_two_eq_zero_or_one ups with h | h
      · have hsucc : (ups + 1) % 2 = 1 := by omega
        cases rooted <;> simp [step, trace, follow, h, hsucc]
      · have hsucc : (ups + 1) % 2 = 0 := by omega
        cases rooted <;> simp [step, trace, follow, h, hsucc]

lemma goal_foldl (ks : List Component) (dir : List String) :
    (ks.foldl step c).goal dir = ks.foldl walk (c.goal dir) := by
  induction ks generalizing c with
  | nil => rfl
  | cons k ks ih => rw [List.foldl_cons, List.foldl_cons, ih, goal_step]

lemma trace_foldl {ks : List Component} (hks : ∀ k ∈ ks, k ≠ root) :
    (ks.foldl step c).trace = ks.foldl follow c.trace := by
  induction ks generalizing c with
  | nil => rfl
  | cons k ks ih =>
    obtain ⟨hk, hks⟩ := List.forall_mem_cons.mp hks
    rw [List.foldl_cons, List.foldl_cons, ih _ hks, trace_step c hk]

end Step

/-- What a normal path has left is a course with one step up at most. -/
lemma foldl_step_trace (c : Course) : c.trace.reverse.foldl step .start = ⟨c.rooted, c.ups % 2, c.names⟩ := by
  have hnames (names : List String) (d : Course) :
      (names.map name).reverse.foldl step d = { d with names := names ++ d.names } := by
    induction names with
    | nil => rfl
    | cons s names ih => simp [List.foldl_append, ih, step]
  rw [trace, List.reverse_append, List.foldl_append, hnames]
  rcases Nat.mod_two_eq_zero_or_one c.ups with h | h
  · cases hr : c.rooted <;> simp [h, step, start]
  · cases hr : c.rooted <;> simp [h, step, start]

/-- What is left of two courses is the same just when they agree up to an even number of steps up. -/
lemma trace_eq_iff {c d : Course} :
    c.trace = d.trace ↔ c.rooted = d.rooted ∧ c.names = d.names ∧ c.ups % 2 = d.ups % 2 := by
  obtain ⟨rooted, ups, names⟩ := c
  obtain ⟨rooted', ups', names'⟩ := d
  constructor
  · intro h
    simp only [trace] at h ⊢
    induction names generalizing names' with
    | nil =>
      cases names' with
      | nil =>
        rcases Nat.mod_two_eq_zero_or_one ups with h₁ | h₁ <;>
          rcases Nat.mod_two_eq_zero_or_one ups' with h₂ | h₂ <;>
          cases rooted <;> cases rooted' <;> simp_all
      | cons s names' =>
        rcases Nat.mod_two_eq_zero_or_one ups with h₁ | h₁ <;> cases rooted <;> simp_all
    | cons s names ih =>
      cases names' with
      | nil => rcases Nat.mod_two_eq_zero_or_one ups' with h₂ | h₂ <;> cases rooted' <;> simp_all
      | cons s' names' =>
        rw [List.map_cons, List.map_cons, List.cons_append, List.cons_append, List.cons.injEq,
          name.injEq] at h
        obtain ⟨rfl, hrest⟩ := h
        obtain ⟨hrooted, rfl, hups⟩ := ih names' hrest
        exact ⟨hrooted, rfl, hups⟩
  · rintro ⟨rfl, rfl, hups⟩
    simp only at hups
    simp only [trace, hups]

end Course

/-- The course of a path. -/
def course (p : Path) : Course := p.components.foldl Course.step .start

lemma ne_root_of_plain {k : Component} (hk : k.Plain) : k ≠ root := by
  rintro rfl
  cases hk

lemma destination_eq_goal (p : Path) (dir : List String) : p.destination dir = p.course.goal dir :=
  (Course.goal_foldl .start p.components dir).symm

/-- A normal path is what is left of the course. -/
lemma foldl_follow_eq_trace (p : Path) : p.components.foldl follow [] = p.course.trace := by
  have hplain : ∀ k ∈ (pieces p.text.toList).filterMap ofPiece?, k ≠ root :=
    fun k hk => ne_root_of_plain (plain_of_mem_filterMap_pieces hk)
  unfold course components
  simp only
  split_ifs
  · exact (Course.trace_foldl ⟨true, 0, []⟩ hplain).symm
  · exact (Course.trace_foldl .start hplain).symm
  · exact (Course.trace_foldl .start hplain).symm

lemma components_normalize (p : Path) : p.normalize.components = p.course.trace.reverse := by
  rw [normalize, (place_components p).components_eq, foldl_follow_eq_trace]

lemma course_normalize (p : Path) :
    p.normalize.course = ⟨p.course.rooted, p.course.ups % 2, p.course.names⟩ := by
  rw [course, components_normalize, Course.foldl_step_trace]

lemma normalize_eq_iff {p q : Path} :
    p.normalize = q.normalize ↔
      p.course.rooted = q.course.rooted ∧ p.course.names = q.course.names ∧
        p.course.ups % 2 = q.course.ups % 2 := by
  rw [← Course.trace_eq_iff]
  constructor
  · intro h
    have hcomponents := congrArg components h
    rw [components_normalize, components_normalize] at hcomponents
    exact List.reverse_injective hcomponents
  · intro h
    rw [normalize, normalize, foldl_follow_eq_trace, foldl_follow_eq_trace, h]

/-! ## Paths that lead to the same place -/

lemma isDirectory_replicate {s : String} (hs : (name s).Plain) (n : ℕ) :
    IsDirectory (List.replicate n s) := by
  intro t ht
  rwa [List.eq_of_mem_replicate ht]

/-- Names over what is left of a directory tell how much is left, since the directory may have any names. -/
lemma drop_le_of_append_eq {xs ys : List String} {m n size : ℕ} (hm : m < size) (hn : n ≤ size)
    (h : ∀ s ∈ ["a", "b"],
      xs ++ (List.replicate size s).drop m = ys ++ (List.replicate size s).drop n) : n ≤ m := by
  by_contra hlt
  have hlen := congrArg List.length (h "a" (by simp))
  simp only [List.length_append, List.length_drop, List.length_replicate] at hlen
  have hys : xs.length < ys.length := by omega
  -- The first name of the directory stands where `ys` still has names of its own.
  have hfirst : ∀ s ∈ ["a", "b"], ys[xs.length]? = some s := by
    intro s hs
    have hat := congrArg (fun zs => zs[xs.length]?) (h s hs)
    have hleft : (xs ++ (List.replicate size s).drop m)[xs.length]? = some s := by
      rw [List.getElem?_append_right le_rfl, Nat.sub_self, List.getElem?_drop,
        List.getElem?_replicate_of_lt (by omega)]
    rw [hleft, List.getElem?_append_left hys] at hat
    exact hat.symm
  have hab : some "a" = some "b" := (hfirst "a" (by simp)).symm.trans (hfirst "b" (by simp))
  exact absurd hab (by decide)

namespace Course
variable {c d : Course}

/-- Below the root all steps up count, at the root none. -/
lemma goal_congr (hrooted : c.rooted = d.rooted) (hnames : c.names = d.names)
    (hups : c.rooted = true ∨ c.ups = d.ups) (dir : List String) : c.goal dir = d.goal dir := by
  rw [goal, goal, hnames, ← hrooted]
  rcases hups with hups | hups
  · rw [if_pos hups, if_pos hups]
  · rw [hups]

/-- Nothing else leads to the same place from deep directories. -/
lemma of_goal_eq (size : ℕ) (hsize : c.ups + c.names.length + (d.ups + d.names.length) < size)
    (h : ∀ s ∈ ["a", "b"], c.goal (List.replicate size s) = d.goal (List.replicate size s)) :
    c.rooted = d.rooted ∧ c.names = d.names ∧ (c.rooted = true ∨ c.ups = d.ups) := by
  have hlen (c : Course) : (c.goal (List.replicate size "a")).length =
      c.names.length + if c.rooted then 0 else size - c.ups := by
    cases hr : c.rooted <;> simp [goal, hr]
  have hlens := congrArg List.length (h "a" (by simp))
  rw [hlen, hlen] at hlens
  cases hc : c.rooted <;> cases hd : d.rooted <;>
    simp only [goal, hc, hd, if_true, Bool.false_eq_true, if_false, List.append_nil] at h hlens
  · have hle : d.ups ≤ c.ups := drop_le_of_append_eq (by omega) (by omega) h
    have hge : c.ups ≤ d.ups := drop_le_of_append_eq (by omega) (by omega) (fun s hs => (h s hs).symm)
    have hups : c.ups = d.ups := le_antisymm hge hle
    have hnames := h "a" (by simp)
    rw [hups] at hnames
    exact ⟨rfl, List.append_cancel_right hnames, .inr hups⟩
  · omega
  · omega
  · exact ⟨rfl, h "a" (by simp), .inl rfl⟩

end Course

variable {p q : Path}

lemma leadAlike_iff :
    LeadAlike p q ↔
      p.course.rooted = q.course.rooted ∧ p.course.names = q.course.names ∧
        (p.course.rooted = true ∨ p.course.ups = q.course.ups) := by
  constructor
  · rintro ⟨depth, h⟩
    let extra := p.course.ups + p.course.names.length + (q.course.ups + q.course.names.length)
    refine Course.of_goal_eq (depth + extra + 1) (by omega) fun s hs => ?_
    have hplain : (name s).Plain := by
      rcases List.mem_pair.mp hs with rfl | rfl
      · exact .name (by decide) (by decide) (by decide) (by decide)
      · exact .name (by decide) (by decide) (by decide) (by decide)
    rw [← destination_eq_goal, ← destination_eq_goal]
    exact h _ (isDirectory_replicate hplain _) (by rw [List.length_replicate]; omega)
  · rintro ⟨hrooted, hnames, hups⟩
    refine ⟨0, fun dir _ _ => ?_⟩
    rw [destination_eq_goal, destination_eq_goal]
    exact Course.goal_congr hrooted hnames hups dir

/-- Two paths on which normal paths are wrong, for a number of steps up that find no name to undo. -/
inductive Confused (p q : Path) : Prop
  /-- From a directory the paths go up by different numbers, but both are odd or both are even. -/
  | merged (hp : p.course.rooted = false) (hq : q.course.rooted = false)
      (hnames : p.course.names = q.course.names) (hups : p.course.ups ≠ q.course.ups)
      (hparity : p.course.ups % 2 = q.course.ups % 2)
  /-- From the root the paths go up in vain, one by an odd and the other by an even number. -/
  | parted (hp : p.course.rooted = true) (hq : q.course.rooted = true)
      (hnames : p.course.names = q.course.names) (hparity : p.course.ups % 2 ≠ q.course.ups % 2)

/-- Normal paths are the same just when the paths lead to the same place, except for confused ones. A normal
path leads where the path does, unless the path goes up two steps or more from where it begins. -/
theorem normalize_eq_iff_leadAlike_unless_confused (p q : Path) :
    ((p.normalize = q.normalize ↔ LeadAlike p q) ↔ ¬ Confused p q) ∧
    (LeadAlike p.normalize p ↔ p.course.rooted = true ∨ p.course.ups ≤ 1) := by
  constructor
  · rw [normalize_eq_iff, leadAlike_iff]
    constructor
    · intro h hconfused
      cases hconfused with
      | merged hp hq hnames hups hparity =>
        obtain ⟨-, -, hroot | heq⟩ := h.mp ⟨hp.trans hq.symm, hnames, hparity⟩
        · exact absurd (hp.symm.trans hroot) (by decide)
        · exact hups heq
      | parted hp hq hnames hparity =>
        obtain ⟨-, -, heq⟩ := h.mpr ⟨hp.trans hq.symm, hnames, .inl hp⟩
        exact hparity heq
    · intro h
      constructor
      · rintro ⟨hrooted, hnames, hparity⟩
        refine ⟨hrooted, hnames, ?_⟩
        by_contra hne
        obtain ⟨hroot, hups⟩ := not_or.mp hne
        rw [Bool.not_eq_true] at hroot
        exact h (.merged hroot (hrooted.symm.trans hroot) hnames hups hparity)
      · rintro ⟨hrooted, hnames, hroot | hups⟩
        · refine ⟨hrooted, hnames, ?_⟩
          by_contra hparity
          exact h (.parted hroot (hrooted.symm.trans hroot) hnames hparity)
        · exact ⟨hrooted, hnames, by rw [hups]⟩
  · rw [leadAlike_iff, course_normalize]
    simp only [true_and]
    refine or_congr_right ?_
    omega

/-- Two steps up are taken for none, so that of two files under different paths one is lost and the other is
given for it; and at the root a step up is kept although it leads nowhere else. -/
theorem normalize_confuses :
    let far : Path := ⟨"../../a.css"⟩
    let near : Path := ⟨"a.css"⟩
    let shelf := Shelf.ofFiles [(far, "far"), (near, "near")]
    far.normalize = near.normalize ∧ ¬ LeadAlike far near ∧ ¬ LeadAlike far.normalize far ∧
      shelf.size = 1 ∧ shelf.load far = .ok "near" ∧
      Path.normalize ⟨"/.."⟩ ≠ Path.normalize ⟨"/"⟩ ∧ LeadAlike ⟨"/.."⟩ ⟨"/"⟩ := by
  intro far near shelf
  have hfar : far.components = [.up, .up, .name "a.css"] := by decide +kernel
  have hnear : near.components = [.name "a.css"] := by decide +kernel
  have hroot : Path.components ⟨"/"⟩ = [.root] := by decide +kernel
  have hup : Path.components ⟨"/.."⟩ = [.root, .up] := by decide +kernel
  refine ⟨by decide +kernel, ?_, ?_, by decide +kernel, by decide +kernel, by decide +kernel, ?_⟩
  · rw [leadAlike_iff, course, course, hfar, hnear]
    simp [Course.step, Course.start]
  · rw [leadAlike_iff, course_normalize, course, hfar]
    simp [Course.step, Course.start]
  · rw [leadAlike_iff, course, course, hroot, hup]
    simp [Course.step]

end Path

end Stylebook
