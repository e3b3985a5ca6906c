import Mathlib.Tactic.Lemma
import Stylebook.Wire

/-! Nodes in their form for handing on, as trees: what is shown of a node may be taken for granted of its
children. -/
namespace Stylebook

namespace RuleIndex

variable {ν μ : Type}

@[simp] lemma children_map (f : ν → μ) (r : RuleIndex ν) :
    (r.map f).children = r.children.map f := by
  have htoList (o : Option ν) : (o.map f).toList = o.toList.map f := by cases o <;> rfl
  simp [children, map, htoList, Function.comp_def]

end RuleIndex

namespace WireNode

/-- The number of nodes on the longest way down, this one among them. -/
def height : WireNode → Nat := fold fun index _ => 1 + index.elim 0 fun r => r.children.foldr max 0

lemma height_mk (index : Option (RuleIndex WireNode)) (styles : List WireDeclaration) :
    (mk index styles).height = 1 + index.elim 0 fun r => (r.children.map height).foldr max 0 := by
  rw [height, fold_mk]
  cases index with
  | none => rfl
  | some r => simp only [Option.map_some, Option.elim_some, RuleIndex.children_map]

lemma foldr_max_le_iff {ns : List Nat} {k : Nat} : ns.foldr max 0 ≤ k ↔ ∀ n ∈ ns, n ≤ k := by
  induction ns with
  | nil => simp
  | cons n ns ih => simp only [List.foldr_cons, Nat.max_le, ih, List.forall_mem_cons]

/-- A bound for a node is, less one, a bound for its children. -/
lemma height_mk_le_succ_iff {index : Option (RuleIndex WireNode)} {styles : List WireDeclaration}
    {k : Nat} : (mk index styles).height ≤ k + 1 ↔ ∀ r ∈ index, ∀ n ∈ r.children, n.height ≤ k := by
  rw [height_mk, Nat.add_comm, Nat.add_le_add_iff_right]
  cases index with
  | none => simp
  | some r => simp [foldr_max_le_iff]

lemma height_pos (n : WireNode) : 0 < n.height := by
  cases n with
  | mk index styles =>
    rw [height_mk]
    omega

/-- Induction from the children to the node. -/
theorem induction_on_children {motive : WireNode → Prop}
    (h : ∀ index styles, (∀ r ∈ index, ∀ n ∈ r.children, motive n) → motive (mk index styles))
    (n : WireNode) : motive n := by
  suffices hk : ∀ k, ∀ n : WireNode, n.height ≤ k → motive n from hk n.height n (Nat.le_refl _)
  intro k
  induction k with
  | zero =>
    intro n hn
    have hpos := n.height_pos
    omega
  | succ k ih =>
    intro n hn
    cases n with
    | mk index styles =>
      have hbelow := height_mk_le_succ_iff.mp hn
      exact h index styles (fun r hr m hm => ih m (hbelow r hr m hm))

end WireNode

end Stylebook
