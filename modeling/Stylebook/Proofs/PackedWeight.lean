import Stylebook.Index
import Stylebook.Proofs.Strongest

/-! Packing a weight into one number compares the counts as far as a byte shows them. Where the first
difference of two weights lies past a byte, it is lost, and the counts after it decide. -/
namespace Stylebook

namespace Specificity

variable {s t : Specificity}

/-- What a byte shows of a count. -/
def byte (count : UInt32) : ℕ := min count.toNat 255

lemma byte_le (count : UInt32) : byte count ≤ 255 := min_le_right _ _

lemma byte_eq_of_le {m n : UInt32} (hm : 255 ≤ m.toNat) (hmn : m < n) : byte m = byte n := by
  have hlt : m.toNat < n.toNat := hmn
  simp only [byte]
  omega

lemma byte_lt_byte_iff {m n : UInt32} : byte m < byte n ↔ m < n ∧ m.toNat < 255 := by
  rw [UInt32.lt_iff_toNat_lt]
  simp only [byte]
  omega

lemma byte_mono {m n : UInt32} (h : m ≤ n) : byte m ≤ byte n := by
  have hle : m.toNat ≤ n.toNat := h
  simp only [byte]
  omega

/-- Packed weights are compared byte by byte. -/
lemma priority_lt_priority_iff : s.priority < t.priority ↔
    byte s.ids < byte t.ids ∨ byte s.ids = byte t.ids ∧
      (byte s.classes < byte t.classes ∨
        byte s.classes = byte t.classes ∧ byte s.types < byte t.types) := by
  have hs : s.priority = byte s.ids * 65536 + byte s.classes * 256 + byte s.types := rfl
  have ht : t.priority = byte t.ids * 65536 + byte t.classes * 256 + byte t.types := rfl
  have := byte_le s.classes
  have := byte_le s.types
  have := byte_le t.classes
  have := byte_le t.types
  rw [hs, ht]
  omega

lemma le_iff : s.le t = true ↔ s.ids < t.ids ∨ s.ids = t.ids ∧
    (s.classes < t.classes ∨ s.classes = t.classes ∧ s.types ≤ t.types) := by
  simp [le]

/-- The first count in which a weight falls short of another is past a byte in both, and the counts that
follow show more in its bytes. -/
inductive Overtakes (s t : Specificity) : Prop
  | ids (hfull : 255 ≤ s.ids.toNat) (hids : s.ids < t.ids)
      (hrest : byte t.classes < byte s.classes ∨
        byte t.classes = byte s.classes ∧ byte t.types < byte s.types)
  | classes (hids : s.ids = t.ids) (hfull : 255 ≤ s.classes.toNat) (hclasses : s.classes < t.classes)
      (hrest : byte t.types < byte s.types)

lemma Overtakes.priority_lt (h : Overtakes s t) : t.priority < s.priority := by
  rw [priority_lt_priority_iff]
  cases h with
  | ids hfull hids hrest => exact .inr ⟨(byte_eq_of_le hfull hids).symm, hrest⟩
  | classes hids hfull hclasses hrest =>
    exact .inr ⟨by rw [hids], .inr ⟨(byte_eq_of_le hfull hclasses).symm, hrest⟩⟩

/-- A weight that is not the greater one packs to more only by overtaking. -/
lemma overtakes_of_priority_lt (h : s.le t = true) (hlt : t.priority < s.priority) : Overtakes s t := by
  have hfull {m n : UInt32} (hmn : m < n) (hbyte : byte n = byte m) : 255 ≤ m.toNat := by
    by_contra hsmall
    have := byte_lt_byte_iff.mpr ⟨hmn, not_le.mp hsmall⟩
    omega
  rw [priority_lt_priority_iff] at hlt
  rcases le_iff.mp h with hids | ⟨hids, hclasses | ⟨hclasses, htypes⟩⟩
  · have hle := byte_mono (UInt32.le_of_lt hids)
    obtain ⟨hbyte, hrest⟩ := hlt.resolve_left (not_lt.mpr hle)
    exact .ids (hfull hids hbyte) hids hrest
  · have hle := byte_mono (UInt32.le_of_lt hclasses)
    obtain ⟨-, hrest⟩ := hlt.resolve_left (by rw [hids]; exact lt_irrefl _)
    obtain ⟨hbyte, hrest⟩ := hrest.resolve_left (not_lt.mpr hle)
    exact .classes hids (hfull hclasses hbyte) hclasses hrest
  · have hle := byte_mono htypes
    rw [hids, hclasses] at hlt
    omega

lemma priority_lt_iff_overtakes (h : s.le t = true) : t.priority < s.priority ↔ Overtakes s t :=
  ⟨overtakes_of_priority_lt h, Overtakes.priority_lt⟩

/-- Of two weights the greater one never packs to less, except where the other one overtakes it. So a
declaration under the greater weight is outdone only then, or by a later one under a weight of the same
number. -/
theorem priority_le_iff_not_overtakes (h : s.le t = true) :
    (s.priority ≤ t.priority ↔ ¬ Overtakes s t) ∧
    ∀ d e : Declaration, d.priority = s.priority → e.priority = t.priority →
      (e.cascade d = .lt ↔ Overtakes s t ∨ s.priority = t.priority ∧ e.order < d.order) := by
  refine ⟨by rw [← not_lt, priority_lt_iff_overtakes h], fun d e hd he => ?_⟩
  rw [Declaration.cascade_eq_lt_iff, Declaration.rank_lt_iff, hd, he, ← priority_lt_iff_overtakes h,
    Int.ofNat_lt, Int.ofNat_inj, eq_comm]

/-- One class more than a byte shows is not seen, but nothing overtakes: both weights pack to the same
number, and the later declaration wins although its weight is the lesser one. -/
theorem priority_le_iff_not_overtakes_tied :
    let s : Specificity := ⟨0, 255, 1⟩
    let t : Specificity := ⟨0, 256, 1⟩
    let d : Declaration := ⟨"color", .ofString "red", s.priority, 1⟩
    let e : Declaration := ⟨"color", .ofString "blue", t.priority, 0⟩
    s.le t = true ∧ ¬ Overtakes s t ∧ s.priority ≤ t.priority ∧ e.cascade d = .lt := by
  intro s t d e
  have h : s.le t = true := by decide
  have hnot : ¬ Overtakes s t := by
    intro hover
    cases hover with
    | ids hfull => exact absurd hfull (by decide)
    | classes _ _ _ hrest => exact absurd hrest (by decide)
  obtain ⟨hle, hcascade⟩ := priority_le_iff_not_overtakes h
  exact ⟨h, hnot, hle.mpr hnot, (hcascade d e rfl rfl).mpr (.inr ⟨rfl, by decide⟩)⟩

/-- Packing does not keep the order of weights: what stands under the greater of two weights loses to what
stands under the lesser. -/
theorem priority_not_monotone :
    let s : Specificity := ⟨0, 255, 1⟩
    let t : Specificity := ⟨0, 256, 0⟩
    let all : Term := ⟨.universal, []⟩
    let i := (Index.empty.insert [⟨"color", .ofString "blue"⟩] all t).insert
      [⟨"color", .ofString "red"⟩] all s
    s.le t = true ∧ ¬ s.priority ≤ t.priority ∧
      i.matched (.ofRoot (.ofTag "View")) ElementTree.rootId =
        ⟨[⟨"color", .ofString "red", s.priority, 1⟩]⟩ := by
  decide

end Specificity

end Stylebook
