import Mathlib.Algebra.GroupWithZero.Nat
import TreeImage.Bytes.Word

namespace TreeImage

theorem fromLittleEndian_lt (bytes : Bytes) : fromLittleEndian bytes < 256 ^ bytes.length := by
  induction bytes with
  | nil => simp [fromLittleEndian]
  | cons b bytes ih =>
      have hb : b.toNat < 256 := b.toNat_lt
      simp only [fromLittleEndian, List.length_cons, Nat.pow_succ]
      omega

theorem fromLittleEndian_littleEndian (width n : Nat) :
    fromLittleEndian (littleEndian width n) = n % 256 ^ width := by
  induction width generalizing n with
  | zero => simp [littleEndian, fromLittleEndian, Nat.mod_one]
  | succ width ih =>
      have hbyte : (UInt8.ofNat n).toNat = n % 256 := UInt8.toNat_ofNat'
      rw [littleEndian, fromLittleEndian, ih, hbyte, Nat.pow_succ, Nat.mul_comm (256 ^ width) 256,
        Nat.mod_mul]

theorem littleEndian_add (low high n : Nat) :
    littleEndian (low + high) n = littleEndian low n ++ littleEndian high (n / 256 ^ low) := by
  induction low generalizing n with
  | zero => simp [littleEndian]
  | succ low ih =>
      rw [Nat.succ_add, littleEndian, ih, littleEndian, Nat.div_div_eq_div_mul, Nat.pow_succ',
        List.cons_append]

@[simp] theorem littleEndian_fromLittleEndian (bytes : Bytes) :
    littleEndian bytes.length (fromLittleEndian bytes) = bytes := by
  induction bytes with
  | nil => rfl
  | cons b bytes ih =>
      have hb : b.toNat < 256 := b.toNat_lt
      have hdiv : (b.toNat + 256 * fromLittleEndian bytes) / 256 = fromLittleEndian bytes := by
        omega
      have hmod : UInt8.ofNat (b.toNat + 256 * fromLittleEndian bytes) = b := by
        apply UInt8.toNat_inj.mp
        rw [UInt8.toNat_ofNat']
        omega
      simp [littleEndian, fromLittleEndian, hdiv, hmod, ih]

/-- The bytes above those that are written do not matter. -/
theorem littleEndian_mod (width n : Nat) :
    littleEndian width (n % 256 ^ width) = littleEndian width n := by
  have hbytes := littleEndian_fromLittleEndian (littleEndian width n)
  rwa [length_littleEndian, fromLittleEndian_littleEndian] at hbytes

theorem littleEndian_append_inj {width m n : Nat} (hm : m < 256 ^ width) (hn : n < 256 ^ width)
    {front back : Bytes} :
    littleEndian width m ++ front = littleEndian width n ++ back ↔ m = n ∧ front = back := by
  constructor
  · intro hsame
    obtain ⟨hword, hrest⟩ := List.append_inj hsame (by simp)
    have hnumber := congrArg fromLittleEndian hword
    rw [fromLittleEndian_littleEndian, fromLittleEndian_littleEndian, Nat.mod_eq_of_lt hm,
      Nat.mod_eq_of_lt hn] at hnumber
    exact ⟨hnumber, hrest⟩
  · rintro ⟨rfl, rfl⟩
    rfl

theorem word16_append_inj {x y : UInt16} {front back : Bytes} :
    word16 x ++ front = word16 y ++ back ↔ x = y ∧ front = back :=
  (littleEndian_append_inj x.toNat_lt y.toNat_lt).trans (and_congr_left' UInt16.toNat_inj)

theorem word32_append_inj {x y : UInt32} {front back : Bytes} :
    word32 x ++ front = word32 y ++ back ↔ x = y ∧ front = back :=
  (littleEndian_append_inj x.toNat_lt y.toNat_lt).trans (and_congr_left' UInt32.toNat_inj)

theorem word64_append_inj {x y : UInt64} {front back : Bytes} :
    word64 x ++ front = word64 y ++ back ↔ x = y ∧ front = back :=
  (littleEndian_append_inj x.toNat_lt y.toNat_lt).trans (and_congr_left' UInt64.toNat_inj)

end TreeImage
