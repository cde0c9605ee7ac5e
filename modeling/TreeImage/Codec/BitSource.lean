import TreeImage.Bytes.Word

namespace TreeImage.Codec

inductive StreamFault
  | incomplete
  | corrupt
  deriving DecidableEq, Repr

/-- A position in a bit stream: the unread bits of the byte begun, and the bytes after it. -/
structure BitSource where
  pending : List Bool
  bytes : Bytes

def byteBits (b : UInt8) : List Bool :=
  [b.toNat.testBit 0, b.toNat.testBit 1, b.toNat.testBit 2, b.toNat.testBit 3,
    b.toNat.testBit 4, b.toNat.testBit 5, b.toNat.testBit 6, b.toNat.testBit 7]

namespace BitSource

def ofBytes (bytes : Bytes) : BitSource := ⟨[], bytes⟩

def bits (source : BitSource) : List Bool := source.pending ++ source.bytes.flatMap byteBits

def size (source : BitSource) : Nat := source.pending.length + 8 * source.bytes.length

def next? : BitSource → Option (Bool × BitSource)
  | ⟨bit :: pending, bytes⟩ => some (bit, ⟨pending, bytes⟩)
  | ⟨[], []⟩ => none
  | ⟨[], b :: bytes⟩ =>
      match byteBits b with
      | [] => none
      | bit :: pending => some (bit, ⟨pending, bytes⟩)

/-- The number that the next `width` bits spell, lowest bit first. -/
def take (source : BitSource) : (width : Nat) → Except StreamFault (Nat × BitSource)
  | 0 => .ok (0, source)
  | width + 1 =>
      match source.next? with
      | none => .error .incomplete
      | some (bit, rest) =>
          match rest.take width with
          | .error fault => .error fault
          | .ok (value, rest) => .ok (bit.toNat + 2 * value, rest)

def align (source : BitSource) : BitSource := ⟨[], source.bytes⟩

theorem bits_of_next? {source rest : BitSource} {bit : Bool}
    (hnext : source.next? = some (bit, rest)) : source.bits = bit :: rest.bits := by
  rcases source with ⟨pending, bytes⟩
  cases pending with
  | cons b pending =>
      simp only [next?, Option.some.injEq, Prod.mk.injEq] at hnext
      obtain ⟨rfl, rfl⟩ := hnext
      simp [bits]
  | nil =>
      cases bytes with
      | nil => simp [next?] at hnext
      | cons b bytes =>
          simp only [next?, byteBits, Option.some.injEq, Prod.mk.injEq] at hnext
          obtain ⟨rfl, rfl⟩ := hnext
          simp [bits, byteBits]

theorem bits_of_next?_eq_none {source : BitSource} (hnext : source.next? = none) :
    source.bits = [] := by
  rcases source with ⟨pending, bytes⟩
  cases pending with
  | cons b pending => simp [next?] at hnext
  | nil =>
      cases bytes with
      | nil => simp [bits]
      | cons b bytes => simp [next?, byteBits] at hnext

end BitSource

end TreeImage.Codec
