namespace TreeImage

abbrev Bytes := List UInt8

def littleEndian : (width n : Nat) → Bytes
  | 0, _ => []
  | width + 1, n => UInt8.ofNat n :: littleEndian width (n / 256)

def fromLittleEndian : Bytes → Nat
  | [] => 0
  | b :: bytes => b.toNat + 256 * fromLittleEndian bytes

@[simp] theorem length_littleEndian (width n : Nat) : (littleEndian width n).length = width := by
  induction width generalizing n with
  | zero => rfl
  | succ width ih => simp [littleEndian, ih]

def word16 (x : UInt16) : Bytes := littleEndian 2 x.toNat

def word32 (x : UInt32) : Bytes := littleEndian 4 x.toNat

def word64 (x : UInt64) : Bytes := littleEndian 8 x.toNat

@[simp] theorem length_word16 (x : UInt16) : (word16 x).length = 2 := length_littleEndian 2 _

@[simp] theorem length_word32 (x : UInt32) : (word32 x).length = 4 := length_littleEndian 4 _

@[simp] theorem length_word64 (x : UInt64) : (word64 x).length = 8 := length_littleEndian 8 _

end TreeImage
