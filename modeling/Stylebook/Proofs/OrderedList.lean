import Mathlib.Data.List.Induction
import Mathlib.Data.List.Nodup
import Mathlib.Data.List.Perm.Basic
import Mathlib.Data.List.Sort
import Mathlib.Data.Prod.Lex
import Mathlib.Data.String.Basic
import Stylebook.NthChild
import Stylebook.Ordered

/-! Ordered lists as sets and maps: what a change adds, what a look-up finds afterwards, and that a
map is determined by its look-ups. -/
namespace Stylebook

section Lookup
variable {κ ν μ : Type} [DecidableEq κ]

lemma lookup_cons_eq_ite (k l : κ) (x : ν) (es : List (κ × ν)) :
    ((l, x) :: es).lookup k = if k = l then some x else es.lookup k := by
  by_cases hk : k = l
  · simp [hk]
  · have hne : (k == l) = false := by simpa using hk
    simp [List.lookup_cons, hne, hk]

lemma mem_of_lookup_eq_some {es : List (κ × ν)} {k : κ} {x : ν} (h : es.lookup k = some x) :
    (k, x) ∈ es := by
  induction es with
  | nil => simp at h
  | cons p es ih =>
    obtain ⟨l, y⟩ := p
    rw [lookup_cons_eq_ite] at h
    split_ifs at h with hk
    · obtain rfl := Option.some.inj h
      rw [hk]
      exact List.mem_cons_self ..
    · exact List.mem_cons_of_mem _ (ih h)

lemma lookup_eq_none_of_notMem {es : List (κ × ν)} {k : κ} (h : k ∉ es.map Prod.fst) :
    es.lookup k = none := by
  apply List.lookup_eq_none_iff.mpr
  intro p hp
  have hne : k ≠ p.1 := fun heq => h (List.mem_map.mpr ⟨p, hp, heq.symm⟩)
  simpa using hne

/-- Under different keys all entries are found. -/
lemma lookup_eq_some_iff_mem {es : List (κ × ν)} (hes : (es.map Prod.fst).Nodup) {k : κ} {x : ν} :
    es.lookup k = some x ↔ (k, x) ∈ es := by
  refine ⟨mem_of_lookup_eq_some, fun h => ?_⟩
  induction es with
  | nil => simp at h
  | cons p es ih =>
    obtain ⟨l, y⟩ := p
    obtain ⟨hl, hes⟩ := List.nodup_cons.mp hes
    rw [lookup_cons_eq_ite]
    rcases List.mem_cons.mp h with he | hmem
    · obtain ⟨rfl, rfl⟩ := Prod.mk.inj he
      rw [if_pos rfl]
    · have hk : k ≠ l := by
        rintro rfl
        exact hl (List.mem_map.mpr ⟨(k, x), hmem, rfl⟩)
      rw [if_neg hk, ih hes hmem]

/-- What is found does not depend on the order of the entries. -/
lemma lookup_eq_of_perm {es fs : List (κ × ν)} (hes : (es.map Prod.fst).Nodup) (h : es.Perm fs) (k : κ) :
    es.lookup k = fs.lookup k := by
  have hfs : (fs.map Prod.fst).Nodup := (h.map Prod.fst).nodup_iff.mp hes
  refine Option.ext (fun x => ?_)
  rw [lookup_eq_some_iff_mem hes, lookup_eq_some_iff_mem hfs, h.mem_iff]

lemma lookup_map_snd (f : ν → μ) (es : List (κ × ν)) (k : κ) :
    (es.map fun p => (p.1, f p.2)).lookup k = (es.lookup k).map f := by
  induction es with
  | nil => rfl
  | cons p es ih =>
    obtain ⟨l, x⟩ := p
    rw [List.map_cons, lookup_cons_eq_ite, lookup_cons_eq_ite, ih]
    split_ifs <;> rfl

end Lookup

namespace NthChild

/-- The step, then the offset. -/
def position (n : NthChild) : ℤ ×ₗ ℤ := toLex (n.step.toInt, n.offset.toInt)

lemma position_injective : Function.Injective position := by
  intro a b h
  obtain ⟨hstep, hoffset⟩ := Prod.mk.inj (toLex.injective h)
  cases a
  cases b
  exact congrArg₂ mk (Int32.toInt_inj.mp hstep) (Int32.toInt_inj.mp hoffset)

instance : LinearOrder NthChild := .lift' position position_injective

lemma lt_iff (a b : NthChild) : lt a b = true ↔ a < b := by
  have hlex : a < b ↔ a.position < b.position := Iff.rfl
  rw [hlex, position, position, Prod.Lex.toLex_lt_toLex]
  simp [lt, Int32.toInt_inj]

end NthChild

namespace Ordered

variable {α β κ : Type}

lemma word_iff (a b : String) : word a b = true ↔ a < b := decide_eq_true_iff

lemma pair_word_iff (a b : String × String) : pair word word a b = true ↔ toLex a < toLex b := by
  rw [Prod.Lex.toLex_lt_toLex]
  simp only [pair, Bool.or_eq_true, Bool.and_eq_true, Bool.not_eq_true', ← Bool.not_eq_true, word_iff, not_lt]
  constructor
  · rintro (hfirst | ⟨hle, hsecond⟩)
    · exact .inl hfirst
    · rcases hle.lt_or_eq with hfirst | hfirst
      · exact .inl hfirst
      · exact .inr ⟨hfirst, hsecond⟩
  · rintro (hfirst | ⟨hfirst, hsecond⟩)
    · exact .inl hfirst
    · exact .inr ⟨hfirst.le, hsecond⟩

/-- A new element is added once. The order has to tell it from the others. -/
lemma perm_insert {lt : α → α → Bool} {a : α} {bs : List α}
    (h : ∀ b ∈ bs, lt a b = false → lt b a = false → a = b) (ha : a ∉ bs) :
    (insert lt a bs).Perm (a :: bs) := by
  induction bs with
  | nil => exact .refl _
  | cons b bs ih =>
    simp only [insert]
    split_ifs with hab hba
    · exact .refl _
    · have ih := ih (fun b hb => h b (List.mem_cons_of_mem _ hb)) (fun hb => ha (List.mem_cons_of_mem _ hb))
      exact (ih.cons b).trans (.swap a b bs)
    · have he := h b (List.mem_cons_self ..) (by simpa using hab) (by simpa using hba)
      exact absurd (he ▸ List.mem_cons_self ..) ha

section Set
variable [LinearOrder κ] {lt : α → α → Bool} {key : α → κ}

/-- A set has the new element besides those it had. -/
lemma mem_insert_iff (hlt : ∀ a b, lt a b = true ↔ key a < key b) (hkey : Function.Injective key) {a c : α}
    {bs : List α} : c ∈ insert lt a bs ↔ c = a ∨ c ∈ bs := by
  apply mem_insert
  intro a b hab hba
  rw [← Bool.not_eq_true, hlt, not_lt] at hab hba
  exact hkey (le_antisymm hba hab)

lemma pairwise_insert (hlt : ∀ a b, lt a b = true ↔ key a < key b) (hkey : Function.Injective key) (a : α)
    {bs : List α} (hs : bs.Pairwise (fun b c => key b < key c)) :
    (insert lt a bs).Pairwise (fun b c => key b < key c) := by
  induction bs with
  | nil => simp [insert]
  | cons b bs ih =>
    obtain ⟨hb, hbs⟩ := List.pairwise_cons.mp hs
    simp only [insert, hlt]
    split_ifs with hab hba
    · refine List.pairwise_cons.mpr ⟨fun c hc => ?_, hs⟩
      rcases List.mem_cons.mp hc with rfl | hc
      · exact hab
      · exact hab.trans (hb c hc)
    · refine List.pairwise_cons.mpr ⟨fun c hc => ?_, ih hbs⟩
      rcases (mem_insert_iff hlt hkey).mp hc with rfl | hc
      · exact hba
      · exact hb c hc
    · exact hs

lemma ofList_concat (lt : α → α → Bool) (as : List α) (a : α) :
    ofList lt (as ++ [a]) = insert lt a (ofList lt as) := by
  simp [ofList]

lemma mem_ofList_iff (hlt : ∀ a b, lt a b = true ↔ key a < key b) (hkey : Function.Injective key) {a : α}
    {as : List α} : a ∈ ofList lt as ↔ a ∈ as := by
  induction as using List.reverseRecOn with
  | nil => simp [ofList]
  | append_singleton as last ih =>
    rw [ofList_concat, mem_insert_iff hlt hkey, ih, List.mem_append, List.mem_singleton, or_comm]

lemma pairwise_ofList (hlt : ∀ a b, lt a b = true ↔ key a < key b) (hkey : Function.Injective key) (as : List α) :
    (ofList lt as).Pairwise (fun b c => key b < key c) := by
  induction as using List.reverseRecOn with
  | nil => exact .nil
  | append_singleton as last ih =>
    rw [ofList_concat]
    exact pairwise_insert hlt hkey last ih

end Set

section Map
variable {lt : κ → κ → Bool} (key : β → κ)

lemma mem_of_mem_put {b c : β} {bs : List β} (h : c ∈ put lt key b bs) : c = b ∨ c ∈ bs := by
  induction bs with
  | nil => simpa [put] using h
  | cons d ds ih =>
    simp only [put] at h
    split_ifs at h with hbd hdb
    · simpa using h
    · rcases List.mem_cons.mp h with rfl | h
      · simp
      · rcases ih h with rfl | h <;> simp [*]
    · rcases List.mem_cons.mp h with rfl | h <;> simp [*]

variable [LinearOrder κ]

lemma put_cons (hlt : ∀ a b, lt a b = true ↔ a < b) (b c : β) (cs : List β) :
    put lt key b (c :: cs) = if key b < key c then b :: c :: cs
      else if key c < key b then c :: put lt key b cs else b :: cs := by
  simp only [put, hlt]

/-- An entry that was put is found under its key, and nothing else has changed. -/
lemma find?_put (hlt : ∀ a b, lt a b = true ↔ a < b) (b : β) (k : κ) (bs : List β) :
    (put lt key b bs).find? (key · == k) =
      if key b = k then some b else bs.find? (key · == k) := by
  induction bs with
  | nil => by_cases hk : key b = k <;> simp [put, hk]
  | cons c cs ih =>
    rw [put_cons key hlt]
    by_cases hk : key b = k
    · rw [if_pos hk] at ih ⊢
      split_ifs with hbc hcb
      · simp [hk]
      · have hc : key c ≠ k := by rw [← hk]; exact hcb.ne
        rw [List.find?_cons_of_neg (by simpa using hc), ih]
      · simp [hk]
    · rw [if_neg hk] at ih ⊢
      split_ifs with hbc hcb
      · rw [List.find?_cons_of_neg (by simpa using hk)]
      · rw [List.find?_cons, List.find?_cons, ih]
      · have he : key c = key b := le_antisymm (not_lt.mp hbc) (not_lt.mp hcb)
        rw [List.find?_cons_of_neg (by simpa using hk),
          List.find?_cons_of_neg (by simpa [he] using hk)]

lemma pairwise_put (hlt : ∀ a b, lt a b = true ↔ a < b) (b : β) {bs : List β}
    (hs : bs.Pairwise (fun c d => key c < key d)) :
    (put lt key b bs).Pairwise (fun c d => key c < key d) := by
  induction bs with
  | nil => simp [put]
  | cons c cs ih =>
    obtain ⟨hc, hcs⟩ := List.pairwise_cons.mp hs
    rw [put_cons key hlt]
    split_ifs with hbc hcb
    · refine List.pairwise_cons.mpr ⟨fun d hd => ?_, hs⟩
      rcases List.mem_cons.mp hd with rfl | hd
      · exact hbc
      · exact hbc.trans (hc d hd)
    · refine List.pairwise_cons.mpr ⟨fun d hd => ?_, ih hcs⟩
      rcases mem_of_mem_put key hd with rfl | hd
      · exact hcb
      · exact hc d hd
    · exact List.pairwise_cons.mpr ⟨fun d hd => (not_lt.mp hcb).trans_lt (hc d hd), hcs⟩

/-- Entries in strictly increasing order of keys are found under their keys. -/
lemma find?_eq_some_iff_mem {b : β} {bs : List β} (hs : bs.Pairwise (fun c d => key c < key d)) :
    bs.find? (key · == key b) = some b ↔ b ∈ bs := by
  induction bs with
  | nil => simp
  | cons c cs ih =>
    obtain ⟨hc, hcs⟩ := List.pairwise_cons.mp hs
    by_cases he : key c = key b
    · have hb : b ∉ cs := fun hb => (hc b hb).ne he
      simp [he, hb, eq_comm]
    · have hb : b ≠ c := fun hb => he (by rw [hb])
      rw [List.find?_cons_of_neg (by simpa using he), ih hcs]
      simp [hb]

theorem eq_of_mem_iff {bs cs : List β} (hb : bs.Pairwise (fun c d => key c < key d))
    (hc : cs.Pairwise (fun c d => key c < key d)) (h : ∀ b, b ∈ bs ↔ b ∈ cs) : bs = cs := by
  have : Std.Antisymm (fun c d : β => key c < key d) := ⟨fun _ _ h₁ h₂ => absurd h₁ h₂.asymm⟩
  have : Std.Irrefl (fun c d : β => key c < key d) := ⟨fun _ => lt_irrefl _⟩
  exact hb.eq_of_mem_iff hc h

theorem eq_of_find?_eq {bs cs : List β} (hb : bs.Pairwise (fun c d => key c < key d))
    (hc : cs.Pairwise (fun c d => key c < key d))
    (h : ∀ k, bs.find? (key · == k) = cs.find? (key · == k)) : bs = cs := by
  refine eq_of_mem_iff key hb hc (fun b => ?_)
  rw [← find?_eq_some_iff_mem key hb, ← find?_eq_some_iff_mem key hc, h]

end Map

section Sorting
variable {μ : Type} {lt : μ → μ → Bool} {key : β → μ}

lemma perm_sortBy (lt : μ → μ → Bool) (key : β → μ) (bs : List β) : (sortBy lt key bs).Perm bs :=
  List.mergeSort_perm _ _

@[simp] lemma mem_sortBy {b : β} {bs : List β} : b ∈ sortBy lt key bs ↔ b ∈ bs := (perm_sortBy lt key bs).mem_iff

/-- Sorting leaves entries of one rank side by side; where there are none, the order is strict. -/
lemma pairwise_sortBy [LinearOrder κ] (rank : β → κ) (hlt : ∀ b c, lt (key b) (key c) = true ↔ rank b < rank c)
    {bs : List β} (h : (bs.map rank).Nodup) : (sortBy lt key bs).Pairwise (fun b c => rank b < rank c) := by
  have hle (b c : β) : (!lt (key c) (key b)) = true ↔ rank b ≤ rank c := by
    rw [Bool.not_eq_true', ← Bool.not_eq_true, hlt, not_lt]
  have hweak : (sortBy lt key bs).Pairwise (fun b c => (!lt (key c) (key b)) = true) := by
    apply List.pairwise_mergeSort
    · intro a b c
      simp only [hle]
      exact le_trans
    · intro a b
      rw [Bool.or_eq_true, hle, hle]
      exact le_total _ _
  have hnodup : ((sortBy lt key bs).map rank).Nodup := ((perm_sortBy lt key bs).map rank).nodup_iff.mpr h
  refine (hweak.and (List.pairwise_map.mp hnodup)).imp ?_
  intro b c hbc
  exact lt_of_le_of_ne ((hle b c).mp hbc.1) hbc.2

/-- The order of the entries before plays no part where no two have one rank. -/
lemma sortBy_eq_of_perm [LinearOrder κ] (rank : β → κ) (hlt : ∀ b c, lt (key b) (key c) = true ↔ rank b < rank c)
    {bs cs : List β} (h : (bs.map rank).Nodup) (hperm : bs.Perm cs) : sortBy lt key bs = sortBy lt key cs := by
  have hcs : (cs.map rank).Nodup := (hperm.map rank).nodup_iff.mp h
  apply eq_of_mem_iff rank (pairwise_sortBy rank hlt h) (pairwise_sortBy rank hlt hcs)
  intro b
  rw [mem_sortBy, mem_sortBy, hperm.mem_iff]

end Sorting

/-- An entry that was put is found under its key, and nothing else has changed, as long as the order tells the new
key from all others. -/
lemma lookup_put {κ ν : Type} [DecidableEq κ] {lt : κ → κ → Bool} {k : κ} (hirrefl : lt k k = false)
    (v : ν) {es : List (κ × ν)} (htold : ∀ e ∈ es, lt k e.1 = false → lt e.1 k = false → k = e.1) (l : κ) :
    (put lt Prod.fst (k, v) es).lookup l = if l = k then some v else es.lookup l := by
  induction es with
  | nil => rw [put, lookup_cons_eq_ite]
  | cons e es ih =>
    obtain ⟨m, w⟩ := e
    obtain ⟨hm, hes⟩ := List.forall_mem_cons.mp htold
    dsimp only at hm
    simp only [put]
    by_cases hkm : lt k m = true
    · rw [if_pos hkm, lookup_cons_eq_ite]
    · rw [if_neg hkm]
      by_cases hmk : lt m k = true
      · have hne : k ≠ m := by
          intro heq
          rw [← heq, hirrefl] at hmk
          cases hmk
        rw [if_pos hmk, lookup_cons_eq_ite, ih hes, lookup_cons_eq_ite]
        by_cases hl : l = k
        · rw [if_pos hl, if_pos hl, if_neg (hl ▸ hne)]
        · rw [if_neg hl, if_neg hl]
      · obtain rfl : k = m := hm (by simpa using hkm) (by simpa using hmk)
        rw [if_neg hmk, lookup_cons_eq_ite, lookup_cons_eq_ite]
        split_ifs <;> rfl

end Ordered

end Stylebook
