import Mathlib.Algebra.Ring.Nat
import Mathlib.Tactic.SplitIfs
import Mathlib.Tactic.Tauto
import Stylebook.Proofs.WireTree
import Stylebook.Wire.Binary

/-! Reading undoes writing. A reader succeeds on just those bytes that start with what its writer writes,
and gives back what was written together with the bytes after it. -/
namespace Stylebook

namespace Binary

variable {α β ν : Type}

section Fits

/-- Lengths are written in eight bytes. -/
def lengthFits (n : Nat) : Bool := n < 2 ^ 64

def stringFits (s : String) : Bool := lengthFits s.utf8ByteSize

def listFits (fits : α → Bool) (xs : List α) : Bool := lengthFits xs.length && xs.all fits

def valueFits : WireValue → Bool
  | .string s => stringFits s
  | .int _ => true
  | .double _ => true

def declarationFits (d : WireDeclaration) : Bool := stringFits d.name && valueFits d.value

def namedFits (fits : ν → Bool) (r : NamedRule ν) : Bool := stringFits r.name && fits r.node

def attributeFits (fits : ν → Bool) (r : AttributeRule ν) : Bool :=
  stringFits r.name && stringFits r.value && fits r.node

def nthFits (fits : ν → Bool) (r : NthRule ν) : Bool := fits r.node

def indexFits (fits : ν → Bool) (r : RuleIndex ν) : Bool :=
  listFits (namedFits fits) r.ids && listFits (namedFits fits) r.classes &&
    listFits (namedFits fits) r.tags && listFits (attributeFits fits) r.attributes &&
    r.firstChild.all fits && r.lastChild.all fits && listFits (nthFits fits) r.nths &&
    r.parent.all fits && r.ancestor.all fits

end Fits

/-- A reader succeeds on bytes that start with what is written for a value that fits, and on no others. -/
def Reads (read : Reader α) (write : α → List UInt8) (fits : α → Bool) : Prop :=
  ∀ bytes x rest, read bytes = .ok (x, rest) ↔ fits x = true ∧ bytes = write x ++ rest

section Steps
variable {bytes rest : List UInt8}

lemma bind_apply_eq_ok_iff {r : Reader α} {f : α → Reader β} {y : β} :
    (r >>= f) bytes = .ok (y, rest) ↔ ∃ x mid, r bytes = .ok (x, mid) ∧ f x mid = .ok (y, rest) := by
  have happly : (r >>= f) bytes = (r bytes >>= fun p => f p.1 p.2) := rfl
  rw [happly]
  cases r bytes with
  | error e => simp [bind, Except.bind]
  | ok p =>
    constructor
    · intro h
      exact ⟨p.1, p.2, rfl, h⟩
    · rintro ⟨x, mid, hp, h⟩
      obtain rfl := Except.ok.inj hp
      exact h

lemma pure_apply_eq_ok_iff {x y : α} :
    (pure x : Reader α) bytes = .ok (y, rest) ↔ x = y ∧ bytes = rest := by
  have happly : (pure x : Reader α) bytes = .ok (x, bytes) := rfl
  rw [happly]
  simp

lemma throw_apply_ne_ok {e : ReadError} {y : α} : (throw e : Reader α) bytes ≠ .ok (y, rest) := by
  intro h
  cases h

end Steps

section Numbers
variable {bytes rest : List UInt8}

lemma littleEndian_ofLittleEndian (bs : List UInt8) : littleEndian bs.length (ofLittleEndian bs) = bs := by
  induction bs with
  | nil => rfl
  | cons b bs ih =>
    have hb : b.toNat < 256 := b.toNat_lt
    have hlow : UInt8.ofNat (b.toNat + 256 * ofLittleEndian bs) = b := by
      apply UInt8.toNat_inj.mp
      rw [UInt8.toNat_ofNat']
      omega
    have hhigh : (b.toNat + 256 * ofLittleEndian bs) / 256 = ofLittleEndian bs := by omega
    simp only [List.length_cons, ofLittleEndian, littleEndian, hlow, hhigh, ih]

lemma ofLittleEndian_lt (bs : List UInt8) : ofLittleEndian bs < capacity bs.length := by
  induction bs with
  | nil => decide
  | cons b bs ih =>
    have hb : b.toNat < 256 := b.toNat_lt
    simp only [List.length_cons, ofLittleEndian, capacity]
    omega

lemma take_eq_ok_iff {n : Nat} {front : List UInt8} :
    take n bytes = .ok (front, rest) ↔ front.length = n ∧ bytes = front ++ rest := by
  unfold take
  simp only
  constructor
  · intro h
    split_ifs at h with hlength
    simp only [Except.ok.injEq, Prod.mk.injEq] at h
    obtain ⟨rfl, rfl⟩ := h
    exact ⟨hlength, (List.take_append_drop n bytes).symm⟩
  · rintro ⟨rfl, rfl⟩
    simp

lemma readNat_eq_ok_iff {width k : Nat} : readNat width bytes = .ok (k, rest) ↔
    k < capacity width ∧ bytes = littleEndian width k ++ rest := by
  unfold readNat
  simp only [bind_apply_eq_ok_iff, pure_apply_eq_ok_iff, take_eq_ok_iff]
  constructor
  · rintro ⟨front, mid, ⟨rfl, rfl⟩, rfl, rfl⟩
    exact ⟨ofLittleEndian_lt front, by rw [littleEndian_ofLittleEndian]⟩
  · rintro ⟨hk, rfl⟩
    refine ⟨littleEndian width k, rest, ⟨length_littleEndian width k, rfl⟩, ?_, rfl⟩
    rw [ofLittleEndian_littleEndian, Nat.mod_eq_of_lt hk]

lemma reads_int : Reads readInt writeInt (fun _ => true) := by
  intro bytes n rest
  have hcapacity : capacity 4 = 2 ^ 32 := rfl
  simp only [readInt, bind_apply_eq_ok_iff, pure_apply_eq_ok_iff, readNat_eq_ok_iff, hcapacity, writeInt,
    true_and]
  constructor
  · rintro ⟨k, mid, ⟨hk, rfl⟩, rfl, rfl⟩
    rw [UInt32.toUInt32_toInt32, UInt32.toNat_ofNat_of_lt' hk]
  · rintro rfl
    exact ⟨n.toUInt32.toNat, rest, ⟨n.toUInt32.toNat_lt, rfl⟩, by simp, rfl⟩

lemma reads_double : Reads readDouble writeDouble (fun _ => true) := by
  intro bytes x rest
  have hcapacity : capacity 8 = 2 ^ 64 := rfl
  simp only [readDouble, bind_apply_eq_ok_iff, pure_apply_eq_ok_iff, readNat_eq_ok_iff, hcapacity,
    writeDouble, true_and]
  constructor
  · rintro ⟨k, mid, ⟨hk, rfl⟩, rfl, rfl⟩
    rw [UInt64.toNat_ofNat_of_lt' hk]
  · rintro rfl
    exact ⟨x.bits.toNat, rest, ⟨x.bits.toNat_lt, rfl⟩, by simp, rfl⟩

end Numbers

section Values

lemma fromUTF8?_eq_some_iff {body : List UInt8} {s : String} :
    String.fromUTF8? ⟨body.toArray⟩ = some s ↔ body = s.toUTF8.data.toList := by
  unfold String.fromUTF8?
  constructor
  · intro h
    split_ifs at h with hvalid
    obtain rfl := Option.some.inj h
    rfl
  · rintro rfl
    have hbytes : (⟨s.toUTF8.data.toList.toArray⟩ : ByteArray) = s.toByteArray := by
      rw [Array.toArray_toList]
      rfl
    rw [hbytes, dif_pos s.isValidUTF8]
    rfl

lemma reads_string : Reads readString writeString stringFits := by
  intro bytes s rest
  have hcapacity : capacity 8 = 2 ^ 64 := rfl
  have hlength (s : String) : s.toUTF8.data.toList.length = s.utf8ByteSize := rfl
  simp only [readString, bind_apply_eq_ok_iff, readNat_eq_ok_iff, take_eq_ok_iff, hcapacity, stringFits,
    lengthFits, decide_eq_true_eq, writeString, writeLength, hlength, List.append_assoc]
  constructor
  · rintro ⟨k, mid, ⟨hk, rfl⟩, body, mid', ⟨rfl, rfl⟩, h⟩
    cases hs : String.fromUTF8? ⟨body.toArray⟩ with
    | none =>
      rw [hs] at h
      exact absurd h throw_apply_ne_ok
    | some s' =>
      rw [hs] at h
      obtain ⟨rfl, rfl⟩ := pure_apply_eq_ok_iff.mp h
      obtain rfl := fromUTF8?_eq_some_iff.mp hs
      exact ⟨hk, rfl⟩
  · rintro ⟨hs, rfl⟩
    refine ⟨s.utf8ByteSize, _, ⟨hs, rfl⟩, s.toUTF8.data.toList, rest, ⟨rfl, rfl⟩, ?_⟩
    rw [fromUTF8?_eq_some_iff.mpr rfl]
    rfl

variable {read : Reader α} {write : α → List UInt8} {fits : α → Bool}

lemma Reads.many (h : Reads read write fits) {n : Nat} {bytes rest : List UInt8} {xs : List α} :
    readMany read n bytes = .ok (xs, rest) ↔
      xs.length = n ∧ xs.all fits = true ∧ bytes = xs.flatMap write ++ rest := by
  induction n generalizing bytes rest xs with
  | zero =>
    simp only [readMany, pure_apply_eq_ok_iff, List.length_eq_zero_iff]
    constructor
    · rintro ⟨rfl, rfl⟩
      simp
    · rintro ⟨rfl, -, rfl⟩
      simp
  | succ n ih =>
    simp only [readMany, bind_apply_eq_ok_iff, pure_apply_eq_ok_iff, h _ _ _, ih]
    constructor
    · rintro ⟨x, mid, ⟨hx, rfl⟩, ys, mid', ⟨rfl, hys, rfl⟩, rfl, rfl⟩
      exact ⟨rfl, by rw [List.all_cons, hx, hys]; rfl, by simp⟩
    · rintro ⟨hn, hall, rfl⟩
      obtain ⟨x, ys, rfl⟩ := List.exists_cons_of_length_eq_add_one hn
      obtain ⟨hx, hys⟩ : fits x = true ∧ ys.all fits = true := by simpa using hall
      rw [List.flatMap_cons, List.append_assoc]
      exact ⟨x, _, ⟨hx, rfl⟩, ys, rest, ⟨by simpa using hn, hys, rfl⟩, rfl, rfl⟩

lemma Reads.list (h : Reads read write fits) : Reads (readList read) (writeList write) (listFits fits) := by
  intro bytes xs rest
  have hcapacity : capacity 8 = 2 ^ 64 := rfl
  simp only [readList, bind_apply_eq_ok_iff, readNat_eq_ok_iff, h.many, hcapacity, listFits, lengthFits,
    Bool.and_eq_true, decide_eq_true_eq, writeList, writeLength, List.append_assoc]
  constructor
  · rintro ⟨k, mid, ⟨hk, rfl⟩, rfl, hall, rfl⟩
    exact ⟨⟨hk, hall⟩, rfl⟩
  · rintro ⟨⟨hk, hall⟩, rfl⟩
    exact ⟨xs.length, _, ⟨hk, rfl⟩, rfl, hall, rfl⟩

lemma Reads.option (h : Reads read write fits) :
    Reads (readOption read) (writeOption write) (Option.all fits) := by
  intro bytes o rest
  have hcapacity : capacity 1 = 256 := rfl
  have hbyte (k : Nat) : littleEndian 1 k = [UInt8.ofNat k] := rfl
  simp only [readOption, bind_apply_eq_ok_iff, readNat_eq_ok_iff, hcapacity, hbyte]
  constructor
  · rintro ⟨k, mid, ⟨hk, rfl⟩, hrest⟩
    rcases k with _ | _ | k
    · obtain ⟨rfl, rfl⟩ := pure_apply_eq_ok_iff.mp hrest
      exact ⟨rfl, rfl⟩
    · obtain ⟨x, mid', hx, hpure⟩ := bind_apply_eq_ok_iff.mp hrest
      obtain ⟨rfl, rfl⟩ := pure_apply_eq_ok_iff.mp hpure
      obtain ⟨hfits, rfl⟩ := (h _ _ _).mp hx
      exact ⟨hfits, rfl⟩
    · exact absurd hrest throw_apply_ne_ok
  · rintro ⟨hfits, rfl⟩
    cases o with
    | none => exact ⟨0, rest, ⟨by decide, rfl⟩, rfl⟩
    | some x =>
      refine ⟨1, write x ++ rest, ⟨by decide, rfl⟩, ?_⟩
      exact bind_apply_eq_ok_iff.mpr ⟨x, rest, (h _ _ _).mpr ⟨hfits, rfl⟩, rfl⟩

/-- Reading a value and putting it into an alternative. -/
lemma Reads.alternative {ρ : Type} (h : Reads read write fits) (f : α → ρ) {bytes rest : List UInt8} {y : ρ} :
    (do return f (← read) : Reader ρ) bytes = .ok (y, rest) ↔
      ∃ x, f x = y ∧ fits x = true ∧ bytes = write x ++ rest := by
  simp only [bind_apply_eq_ok_iff, pure_apply_eq_ok_iff, h _ _ _]
  constructor
  · rintro ⟨x, mid, hx, rfl, rfl⟩
    exact ⟨x, rfl, hx⟩
  · rintro ⟨x, rfl, hx⟩
    exact ⟨x, rest, hx, rfl, rfl⟩

lemma reads_value : Reads readValue writeValue valueFits := by
  intro bytes v rest
  have hcapacity : capacity 4 = 2 ^ 32 := rfl
  simp only [readValue, bind_apply_eq_ok_iff, readNat_eq_ok_iff, hcapacity]
  constructor
  · rintro ⟨k, mid, ⟨hk, rfl⟩, hrest⟩
    rcases k with _ | _ | _ | k
    · obtain ⟨s, rfl, hs, rfl⟩ := (reads_string.alternative WireValue.string).mp hrest
      exact ⟨hs, (List.append_assoc ..).symm⟩
    · obtain ⟨n, rfl, -, rfl⟩ := (reads_int.alternative WireValue.int).mp hrest
      exact ⟨rfl, (List.append_assoc ..).symm⟩
    · obtain ⟨x, rfl, -, rfl⟩ := (reads_double.alternative WireValue.double).mp hrest
      exact ⟨rfl, (List.append_assoc ..).symm⟩
    · exact absurd hrest throw_apply_ne_ok
  · rintro ⟨hfits, rfl⟩
    cases v with
    | string s =>
      refine ⟨0, writeString s ++ rest, ⟨by decide, List.append_assoc ..⟩, ?_⟩
      exact (reads_string.alternative WireValue.string).mpr ⟨s, rfl, hfits, rfl⟩
    | int n =>
      refine ⟨1, writeInt n ++ rest, ⟨by decide, List.append_assoc ..⟩, ?_⟩
      exact (reads_int.alternative WireValue.int).mpr ⟨n, rfl, rfl, rfl⟩
    | double x =>
      refine ⟨2, writeDouble x ++ rest, ⟨by decide, List.append_assoc ..⟩, ?_⟩
      exact (reads_double.alternative WireValue.double).mpr ⟨x, rfl, rfl, rfl⟩

lemma reads_declaration : Reads readDeclaration writeDeclaration declarationFits := by
  intro bytes d rest
  simp only [readDeclaration, bind_apply_eq_ok_iff, pure_apply_eq_ok_iff, reads_string _ _ _,
    reads_value _ _ _, reads_int _ _ _, true_and, declarationFits, Bool.and_eq_true, writeDeclaration,
    List.append_assoc]
  constructor
  · rintro ⟨name, _, ⟨hname, rfl⟩, value, _, ⟨hvalue, rfl⟩, priority, _, rfl, order, _, rfl, id, _, rfl, rfl,
      rfl⟩
    exact ⟨⟨hname, hvalue⟩, rfl⟩
  · rintro ⟨⟨hname, hvalue⟩, rfl⟩
    exact ⟨_, _, ⟨hname, rfl⟩, _, _, ⟨hvalue, rfl⟩, _, _, rfl, _, _, rfl, _, _, rfl, rfl, rfl⟩

end Values

section Rules
variable {read : Reader ν} {write : ν → List UInt8} {fits : ν → Bool}

lemma Reads.named (h : Reads read write fits) :
    Reads (readNamed read) (writeNamed write) (namedFits fits) := by
  intro bytes r rest
  simp only [readNamed, bind_apply_eq_ok_iff, pure_apply_eq_ok_iff, reads_string _ _ _, h _ _ _, namedFits,
    Bool.and_eq_true, writeNamed, List.append_assoc]
  constructor
  · rintro ⟨name, _, ⟨hname, rfl⟩, node, _, ⟨hnode, rfl⟩, rfl, rfl⟩
    exact ⟨⟨hname, hnode⟩, rfl⟩
  · rintro ⟨⟨hname, hnode⟩, rfl⟩
    exact ⟨_, _, ⟨hname, rfl⟩, _, _, ⟨hnode, rfl⟩, rfl, rfl⟩

lemma readComparison_eq_ok_iff {bytes rest : List UInt8} {u : Unit} :
    readComparison bytes = .ok (u, rest) ↔ bytes = writeVariant 0 ++ rest := by
  simp only [readComparison, bind_apply_eq_ok_iff, readNat_eq_ok_iff]
  constructor
  · rintro ⟨k, mid, ⟨-, rfl⟩, hrest⟩
    cases k with
    | zero =>
      obtain ⟨-, rfl⟩ := pure_apply_eq_ok_iff.mp hrest
      rfl
    | succ k => exact absurd hrest throw_apply_ne_ok
  · rintro rfl
    exact ⟨0, rest, ⟨by decide, rfl⟩, rfl⟩

lemma Reads.attribute (h : Reads read write fits) :
    Reads (readAttribute read) (writeAttribute write) (attributeFits fits) := by
  intro bytes r rest
  simp only [readAttribute, bind_apply_eq_ok_iff, pure_apply_eq_ok_iff, reads_string _ _ _,
    readComparison_eq_ok_iff, h _ _ _, attributeFits, Bool.and_eq_true, writeAttribute, List.append_assoc]
  constructor
  · rintro ⟨name, _, ⟨hname, rfl⟩, value, _, ⟨hvalue, rfl⟩, _, _, rfl, node, _, ⟨hnode, rfl⟩, rfl, rfl⟩
    exact ⟨⟨⟨hname, hvalue⟩, hnode⟩, rfl⟩
  · rintro ⟨⟨⟨hname, hvalue⟩, hnode⟩, rfl⟩
    exact ⟨_, _, ⟨hname, rfl⟩, _, _, ⟨hvalue, rfl⟩, (), _, rfl, _, _, ⟨hnode, rfl⟩, rfl, rfl⟩

lemma all_true (o : Option α) : Option.all (fun _ => true) o = true := by
  cases o <;> rfl

lemma Reads.nth (h : Reads read write fits) : Reads (readNth read) (writeNth write) (nthFits fits) := by
  intro bytes r rest
  simp only [readNth, bind_apply_eq_ok_iff, pure_apply_eq_ok_iff, reads_int.option _ _ _, h _ _ _, nthFits,
    all_true, true_and, writeNth, List.append_assoc]
  constructor
  · rintro ⟨step, _, rfl, offset, _, rfl, node, _, ⟨hnode, rfl⟩, rfl, rfl⟩
    exact ⟨hnode, rfl⟩
  · rintro ⟨hnode, rfl⟩
    exact ⟨_, _, rfl, _, _, rfl, _, _, ⟨hnode, rfl⟩, rfl, rfl⟩

lemma Reads.index (h : Reads read write fits) :
    Reads (readIndex read) (writeIndex write) (indexFits fits) := by
  intro bytes r rest
  simp only [readIndex, bind_apply_eq_ok_iff, pure_apply_eq_ok_iff, h.named.list _ _ _,
    h.attribute.list _ _ _, h.nth.list _ _ _, h.option _ _ _, indexFits, Bool.and_eq_true, writeIndex,
    List.append_assoc]
  constructor
  · rintro ⟨ids, _, ⟨hids, rfl⟩, classes, _, ⟨hclasses, rfl⟩, tags, _, ⟨htags, rfl⟩, attributes, _,
      ⟨hattributes, rfl⟩, first, _, ⟨hfirst, rfl⟩, last, _, ⟨hlast, rfl⟩, nths, _, ⟨hnths, rfl⟩, parent, _,
      ⟨hparent, rfl⟩, ancestor, _, ⟨hancestor, rfl⟩, rfl, rfl⟩
    exact ⟨by simp only [hids, hclasses, htags, hattributes, hfirst, hlast, hnths, hparent, hancestor,
      and_self], rfl⟩
  · rintro ⟨⟨⟨⟨⟨⟨⟨⟨⟨hids, hclasses⟩, htags⟩, hattributes⟩, hfirst⟩, hlast⟩, hnths⟩, hparent⟩, hancestor⟩, rfl⟩
    exact ⟨_, _, ⟨hids, rfl⟩, _, _, ⟨hclasses, rfl⟩, _, _, ⟨htags, rfl⟩, _, _, ⟨hattributes, rfl⟩, _, _,
      ⟨hfirst, rfl⟩, _, _, ⟨hlast, rfl⟩, _, _, ⟨hnths, rfl⟩, _, _, ⟨hparent, rfl⟩, _, _,
      ⟨hancestor, rfl⟩, rfl, rfl⟩

/-- What is asked of all nodes of an index is asked of its children. -/
lemma indexFits_and (p q : ν → Bool) (r : RuleIndex ν) :
    indexFits (fun n => p n && q n) r = (indexFits p r && r.children.all q) := by
  have hlist {ρ : Type} (node : ρ → ν) {both one : ρ → Bool} (h : ∀ x, both x = (one x && q (node x)))
      (xs : List ρ) : listFits both xs = (listFits one xs && (xs.map node).all q) := by
    have hall : xs.all both = (xs.all one && xs.all fun x => q (node x)) := by
      rw [Bool.eq_iff_iff]
      simp only [List.all_eq_true, Bool.and_eq_true, h, imp_and, forall_and]
    rw [listFits, listFits, hall, List.all_map, Bool.and_assoc]
    rfl
  have hnamed := @hlist _ NamedRule.node (namedFits fun n => p n && q n) (namedFits p)
    (fun _ => (Bool.and_assoc ..).symm)
  have hattribute := @hlist _ AttributeRule.node (attributeFits fun n => p n && q n) (attributeFits p)
    (fun _ => (Bool.and_assoc ..).symm)
  have hnth := @hlist _ NthRule.node (nthFits fun n => p n && q n) (nthFits p) (fun _ => rfl)
  have hoption (o : Option ν) : o.all (fun n => p n && q n) = (o.all p && o.toList.all q) := by
    cases o <;> simp
  rw [Bool.eq_iff_iff]
  simp only [indexFits, hnamed, hattribute, hnth, hoption, RuleIndex.children, List.map_append,
    List.all_append, Bool.and_eq_true]
  tauto

/-- No node takes more bytes than the index that it stands in. -/
lemma length_write_le_writeIndex {r : RuleIndex ν} {n : ν} (hn : n ∈ r.children) :
    (write n).length ≤ (writeIndex write r).length := by
  have hlist {ρ : Type} {node : ρ → ν} {writeRule : ρ → List UInt8}
      (hrule : ∀ x, (write (node x)).length ≤ (writeRule x).length) {xs : List ρ} (h : n ∈ xs.map node) :
      (write n).length ≤ (writeList writeRule xs).length := by
    obtain ⟨x, hx, rfl⟩ := List.mem_map.mp h
    obtain ⟨before, after, rfl⟩ := List.append_of_mem hx
    have hle := hrule x
    simp only [writeList, List.flatMap_append, List.flatMap_cons, List.length_append]
    omega
  have hoption {o : Option ν} (h : n ∈ o.toList) : (write n).length ≤ (writeOption write o).length := by
    obtain rfl := Option.mem_toList.mp h
    exact Nat.le_succ _
  have hnamed := @hlist _ NamedRule.node (writeNamed write) (fun x => by simp [writeNamed])
  have hattribute := @hlist _ AttributeRule.node (writeAttribute write) (fun x => by
    simp only [writeAttribute, List.length_append]
    omega)
  have hnth := @hlist _ NthRule.node (writeNth write) (fun x => by
    simp only [writeNth, List.length_append]
    omega)
  simp only [RuleIndex.children, List.map_append, List.mem_append] at hn
  simp only [writeIndex, List.length_append]
  rcases hn with (((((((hn | hn) | hn) | hn) | hn) | hn) | hn) | hn) | hn
  · have hle := hnamed hn
    omega
  · have hle := hnamed hn
    omega
  · have hle := hnamed hn
    omega
  · have hle := hattribute hn
    omega
  · have hle := hoption hn
    omega
  · have hle := hoption hn
    omega
  · have hle := hnth hn
    omega
  · have hle := hoption hn
    omega
  · have hle := hoption hn
    omega

section Map
variable {μ : Type} (f : ν → μ)

lemma indexFits_map (fits : μ → Bool) (r : RuleIndex ν) :
    indexFits fits (r.map f) = indexFits (fun n => fits (f n)) r := by
  have hlist {ρ σ : Type} (g : ρ → σ) (fits : σ → Bool) (xs : List ρ) :
      listFits fits (xs.map g) = listFits (fun x => fits (g x)) xs := by
    rw [listFits, listFits, List.length_map, List.all_map]
    rfl
  have hoption (o : Option ν) : (o.map f).all fits = o.all fun n => fits (f n) := by
    cases o <;> rfl
  simp only [indexFits, RuleIndex.map, hlist, hoption]
  rfl

lemma writeIndex_map (write : μ → List UInt8) (r : RuleIndex ν) :
    writeIndex write (r.map f) = writeIndex (fun n => write (f n)) r := by
  have hlist {ρ σ : Type} (g : ρ → σ) (write : σ → List UInt8) (xs : List ρ) :
      writeList write (xs.map g) = writeList (fun x => write (g x)) xs := by
    rw [writeList, writeList, List.length_map, List.flatMap_map]
  have hoption (o : Option ν) : writeOption write (o.map f) = writeOption (fun n => write (f n)) o := by
    cases o <;> rfl
  simp only [writeIndex, RuleIndex.map, hlist, hoption]
  rfl

end Map

end Rules

end Binary

namespace WireNode
open Binary

/-- The lengths of all strings and lists can be written. -/
def fits : WireNode → Bool :=
  fold fun index styles => index.all (indexFits id) && listFits declarationFits styles

lemma fits_mk (index : Option (RuleIndex WireNode)) (styles : List WireDeclaration) :
    (mk index styles).fits = (index.all (indexFits fits) && listFits declarationFits styles) := by
  rw [fits, fold_mk]
  cases index with
  | none => rfl
  | some r =>
    simp only [Option.map_some, Option.all_some, indexFits_map]
    rfl

lemma toBytes_mk (index : Option (RuleIndex WireNode)) (styles : List WireDeclaration) :
    (mk index styles).toBytes =
      writeOption (writeIndex toBytes) index ++ writeList writeDeclaration styles := by
  rw [toBytes, fold_mk]
  cases index with
  | none => rfl
  | some r =>
    simp only [Option.map_some, writeOption, writeIndex_map]
    rfl

/-- Every level of nodes takes a byte. -/
lemma height_le_length_toBytes (n : WireNode) : n.height ≤ n.toBytes.length := by
  induction n using induction_on_children with
  | h index styles ih =>
    have hstyles : 0 < (writeList writeDeclaration styles).length := by
      simp only [writeList, writeLength, List.length_append, length_littleEndian]
      omega
    rw [toBytes_mk, List.length_append]
    cases index with
    | none =>
      simp only [height_mk, Option.elim_none, writeOption, List.length_singleton]
      omega
    | some r =>
      have hbelow (m : WireNode) (hm : m ∈ r.children) : m.height ≤ (writeIndex toBytes r).length :=
        Nat.le_trans (ih r rfl m hm) (length_write_le_writeIndex hm)
      have hheight : (mk (some r) styles).height ≤ (writeIndex toBytes r).length + 1 := by
        rw [height_mk_le_succ_iff]
        simpa using hbelow
      simp only [writeOption, List.length_cons]
      omega

/-- A reader of nodes reads those that are not too high for it. -/
lemma reads_node (depth : Nat) :
    Reads (readNode depth) toBytes (fun n => n.fits && decide (n.height ≤ depth)) := by
  induction depth with
  | zero =>
    intro bytes n rest
    have hpos := n.height_pos
    constructor
    · intro h
      exact absurd h throw_apply_ne_ok
    · rintro ⟨h, -⟩
      simp only [Bool.and_eq_true, decide_eq_true_eq] at h
      omega
  | succ depth ih =>
    intro bytes n rest
    have hindex (index : Option (RuleIndex WireNode)) (styles : List WireDeclaration) :
        index.all (indexFits fun n => n.fits && decide (n.height ≤ depth)) = true ↔
          index.all (indexFits fits) = true ∧ (mk index styles).height ≤ depth + 1 := by
      rw [height_mk_le_succ_iff]
      cases index <;> simp [indexFits_and]
    simp only [readNode, bind_apply_eq_ok_iff, pure_apply_eq_ok_iff, ih.index.option _ _ _,
      reads_declaration.list _ _ _, Bool.and_eq_true, decide_eq_true_eq]
    constructor
    · rintro ⟨index, _, ⟨hi, rfl⟩, styles, _, ⟨hs, rfl⟩, rfl, rfl⟩
      obtain ⟨hfits, hheight⟩ := (hindex index styles).mp hi
      refine ⟨⟨?_, hheight⟩, ?_⟩
      · rw [fits_mk, hfits, hs]
        rfl
      · rw [toBytes_mk, List.append_assoc]
    · rintro ⟨⟨hfits, hheight⟩, rfl⟩
      cases n with
      | mk index styles =>
        rw [fits_mk, Bool.and_eq_true] at hfits
        rw [toBytes_mk, List.append_assoc]
        exact ⟨index, _, ⟨(hindex index styles).mpr ⟨hfits.1, hheight⟩, rfl⟩, styles, rest,
          ⟨hfits.2, rfl⟩, rfl, rfl⟩

/-- Bytes are read as a node just when they start with what is written for it. -/
lemma ofBytes_eq_ok_iff {bytes : List UInt8} {n : WireNode} :
    ofBytes bytes = .ok n ↔ n.fits = true ∧ n.toBytes <+: bytes := by
  have hmap : ofBytes bytes = .ok n ↔ ∃ rest, readNode bytes.length bytes = .ok (n, rest) := by
    unfold ofBytes
    cases readNode bytes.length bytes with
    | error e => simp [Except.map]
    | ok p => simp [Except.map, Prod.ext_iff]
  simp only [hmap, reads_node _ _ _ _, Bool.and_eq_true, decide_eq_true_eq]
  constructor
  · rintro ⟨rest, ⟨hfits, -⟩, hbytes⟩
    exact ⟨hfits, rest, hbytes.symm⟩
  · rintro ⟨hfits, rest, rfl⟩
    have hheight := n.height_le_length_toBytes
    refine ⟨rest, ⟨hfits, ?_⟩, rfl⟩
    rw [List.length_append]
    omega

/-- Reading undoes writing. A node whose lengths can be written is read back from its bytes, whatever
follows them. Of any bytes there is an answer; bytes are read as a node only if they start with what is
written for it, and are refused only if they start with what is written for none. -/
theorem ofBytes_inverts_toBytes :
    (∀ (n : WireNode) (more : List UInt8), n.fits = true → ofBytes (n.toBytes ++ more) = .ok n) ∧
    ∀ bytes : List UInt8, (∀ n, ofBytes bytes = .ok n → n.fits = true ∧ n.toBytes <+: bytes) ∧
      ((∃ e, ofBytes bytes = .error e) ↔ ∀ n : WireNode, n.fits = true → ¬ n.toBytes <+: bytes) := by
  refine ⟨fun n more hfits => ?_, fun bytes => ⟨fun n => ofBytes_eq_ok_iff.mp, ?_⟩⟩
  · exact ofBytes_eq_ok_iff.mpr ⟨hfits, List.prefix_append ..⟩
  · constructor
    · rintro ⟨e, he⟩ n hfits hstart
      rw [ofBytes_eq_ok_iff.mpr ⟨hfits, hstart⟩] at he
      cases he
    · intro hnone
      cases hread : ofBytes bytes with
      | error e => exact ⟨e, rfl⟩
      | ok n =>
        obtain ⟨hfits, hstart⟩ := ofBytes_eq_ok_iff.mp hread
        exact absurd hstart (hnone n hfits)

/-- Two levels of nodes, with a rule of each shape and a value of each kind, among them a NaN. -/
theorem ofBytes_inverts_toBytes_nested :
    let leaf := mk none
      [⟨"Width", .int (-1), 256, 3, 3⟩, ⟨"Opacity", .double ⟨0x7ff8000000000001⟩, 256, 4, 4⟩]
    let above := mk (some ⟨[], [], [⟨"é", leaf⟩], [⟨"a", "", leaf⟩], some leaf, none, [⟨none, some 2, leaf⟩],
      none, some leaf⟩) [⟨"Font", .string "Arial", 1, 0, 0⟩]
    let root := mk (some ⟨[⟨"main", above⟩], [], [], [], none, none, [], some above, none⟩) []
    root.fits = true ∧ ofBytes (root.toBytes ++ [255, 0]) = .ok root := by
  intro leaf above root
  have hfits : root.fits = true := by decide +kernel
  exact ⟨hfits, ofBytes_inverts_toBytes.1 root [255, 0] hfits⟩

end WireNode

end Stylebook
