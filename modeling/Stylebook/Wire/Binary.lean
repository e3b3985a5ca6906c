import Stylebook.Wire

/-! Nodes as bytes. Numbers are little endian; a list is its length in eight bytes and its members;
an option is a byte that is zero or one and, then, its value; an alternative is its number in four
bytes and its value. A reader takes what it needs and leaves the rest. -/
namespace Stylebook

namespace Binary

/-- The lowest `width` bytes of a number, lowest first. -/
def littleEndian : Nat → Nat → List UInt8
  | 0, _ => []
  | width + 1, n => UInt8.ofNat n :: littleEndian width (n / 256)

def ofLittleEndian : List UInt8 → Nat
  | [] => 0
  | b :: bs => b.toNat + 256 * ofLittleEndian bs

@[simp] theorem length_littleEndian (width n : Nat) : (littleEndian width n).length = width := by
  induction width generalizing n with
  | zero => rfl
  | succ width ih => simp [littleEndian, ih]

/-- The number of values that `width` bytes can hold. -/
def capacity : Nat → Nat
  | 0 => 1
  | width + 1 => 256 * capacity width

/-- Reading gives back what the bytes can hold. -/
@[simp] theorem ofLittleEndian_littleEndian (width n : Nat) :
    ofLittleEndian (littleEndian width n) = n % capacity width := by
  induction width generalizing n with
  | zero => simp [littleEndian, ofLittleEndian, capacity, Nat.mod_one]
  | succ width ih =>
    simp only [littleEndian, ofLittleEndian, capacity, ih, UInt8.toNat_ofNat', Nat.reducePow]
    rw [Nat.mod_mul]

section Write

variable {α ν : Type}

def writeInt (n : Int32) : List UInt8 := littleEndian 4 n.toUInt32.toNat

def writeLength (n : Nat) : List UInt8 := littleEndian 8 n

def writeVariant (n : Nat) : List UInt8 := littleEndian 4 n

def writeDouble (x : Binary64) : List UInt8 := littleEndian 8 x.bits.toNat

def writeString (s : String) : List UInt8 :=
  let bytes := s.toUTF8.data.toList
  writeLength bytes.length ++ bytes

def writeList (write : α → List UInt8) (xs : List α) : List UInt8 :=
  writeLength xs.length ++ xs.flatMap write

def writeOption (write : α → List UInt8) : Option α → List UInt8
  | none => [0]
  | some x => 1 :: write x

def writeValue : WireValue → List UInt8
  | .string s => writeVariant 0 ++ writeString s
  | .int n => writeVariant 1 ++ writeInt n
  | .double x => writeVariant 2 ++ writeDouble x

def writeDeclaration (d : WireDeclaration) : List UInt8 :=
  writeString d.name ++ writeValue d.value ++ writeInt d.priority ++ writeInt d.order ++ writeInt d.id

def writeNamed (write : ν → List UInt8) (r : NamedRule ν) : List UInt8 :=
  writeString r.name ++ write r.node

/-- The comparison, always equality, is alternative zero. -/
def writeAttribute (write : ν → List UInt8) (r : AttributeRule ν) : List UInt8 :=
  writeString r.name ++ writeString r.value ++ writeVariant 0 ++ write r.node

def writeNth (write : ν → List UInt8) (r : NthRule ν) : List UInt8 :=
  writeOption writeInt r.step ++ writeOption writeInt r.offset ++ write r.node

def writeIndex (write : ν → List UInt8) (r : RuleIndex ν) : List UInt8 :=
  writeList (writeNamed write) r.ids ++ writeList (writeNamed write) r.classes ++
    writeList (writeNamed write) r.tags ++ writeList (writeAttribute write) r.attributes ++
    writeOption write r.firstChild ++ writeOption write r.lastChild ++
    writeList (writeNth write) r.nths ++ writeOption write r.parent ++ writeOption write r.ancestor

end Write

/-- Why bytes do not start with a node. -/
inductive ReadError
  | endOfInput
  | invalidUtf8
  | invalidOption
  | unknownVariant
  deriving DecidableEq

/-- Takes a value off the front of the bytes. -/
abbrev Reader := StateT (List UInt8) (Except ReadError)

section Read

variable {α ν : Type}

def take (n : Nat) : Reader (List UInt8) := fun bytes =>
  let front := bytes.take n
  if front.length = n then .ok (front, bytes.drop n) else .error .endOfInput

def readNat (width : Nat) : Reader Nat := return ofLittleEndian (← take width)

def readInt : Reader Int32 := return (UInt32.ofNat (← readNat 4)).toInt32

def readDouble : Reader Binary64 := return ⟨UInt64.ofNat (← readNat 8)⟩

def readString : Reader String := do
  let bytes ← take (← readNat 8)
  match String.fromUTF8? ⟨bytes.toArray⟩ with
  | some s => return s
  | none => throw .invalidUtf8

def readMany (read : Reader α) : Nat → Reader (List α)
  | 0 => return []
  | n + 1 => return (← read) :: (← readMany read n)

def readList (read : Reader α) : Reader (List α) := do readMany read (← readNat 8)

def readOption (read : Reader α) : Reader (Option α) := do
  match ← readNat 1 with
  | 0 => return none
  | 1 => return some (← read)
  | _ => throw .invalidOption

def readValue : Reader WireValue := do
  match ← readNat 4 with
  | 0 => return .string (← readString)
  | 1 => return .int (← readInt)
  | 2 => return .double (← readDouble)
  | _ => throw .unknownVariant

def readDeclaration : Reader WireDeclaration := do
  return ⟨← readString, ← readValue, ← readInt, ← readInt, ← readInt⟩

def readNamed (read : Reader ν) : Reader (NamedRule ν) := do return ⟨← readString, ← read⟩

def readComparison : Reader Unit := do
  match ← readNat 4 with
  | 0 => return ()
  | _ => throw .unknownVariant

def readAttribute (read : Reader ν) : Reader (AttributeRule ν) := do
  let name ← readString
  let value ← readString
  readComparison
  return ⟨name, value, ← read⟩

def readNth (read : Reader ν) : Reader (NthRule ν) := do
  return ⟨← readOption readInt, ← readOption readInt, ← read⟩

def readIndex (read : Reader ν) : Reader (RuleIndex ν) := do
  return ⟨← readList (readNamed read), ← readList (readNamed read), ← readList (readNamed read),
    ← readList (readAttribute read), ← readOption read, ← readOption read,
    ← readList (readNth read), ← readOption read, ← readOption read⟩

/-- A node with at most `depth` nodes below each other. -/
def readNode : Nat → Reader WireNode
  | 0 => throw .endOfInput
  | depth + 1 => do
    return .mk (← readOption (readIndex (readNode depth))) (← readList readDeclaration)

end Read

end Binary

namespace WireNode

def toBytes : WireNode → List UInt8 :=
  fold fun index styles =>
    Binary.writeOption (Binary.writeIndex id) index ++ Binary.writeList Binary.writeDeclaration styles

/-- The node that the bytes start with. Every level takes a byte, so that the number of bytes bounds
the depth. -/
def ofBytes (bytes : List UInt8) : Except Binary.ReadError WireNode :=
  (Binary.readNode bytes.length bytes).map Prod.fst

end WireNode

end Stylebook
