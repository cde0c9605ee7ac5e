import Mathlib.Algebra.GroupWithZero.Nat
import TreeImage.Codec.BitSource
import TreeImage.Codec.Deflate

namespace TreeImage.Codec

theorem testBit_foldr (bits : List Bool) (i : Nat) :
    (bits.foldr (fun (bit : Bool) value => bit.toNat + 2 * value) 0).testBit i =
      bits.getD i false := by
  induction bits generalizing i with
  | nil => simp
  | cons bit bits ih =>
      cases i with
      | zero =>
          rw [Nat.testBit_zero, List.foldr_cons, Nat.add_mul_mod_self_left]
          cases bit
          all_goals rfl
      | succ i =>
          rw [List.getD_cons_succ, ← ih, Nat.testBit_succ, List.foldr_cons]
          congr 1
          cases bit
          all_goals
            simp only [Bool.toNat_true, Bool.toNat_false]
            omega

theorem byteBits_eq (b : UInt8) : byteBits b = fieldBits 8 b.toNat := rfl

theorem byteBits_byteOfBits {bits : List Bool} (hlength : bits.length ≤ 8) :
    byteBits (byteOfBits bits) = bits ++ List.replicate (8 - bits.length) false := by
  apply List.ext_getElem
  · simp only [byteBits_eq, fieldBits, List.length_map, List.length_range, List.length_append,
      List.length_replicate]
    omega
  · intro i hleft hright
    have hi : i < 8 := by simpa [byteBits_eq, fieldBits] using hleft
    simp only [byteBits_eq, fieldBits, byteOfBits, List.getElem_map, List.getElem_range,
      UInt8.toNat_ofNat']
    rw [show (2 : Nat) ^ 8 = 2 ^ 8 from rfl, Nat.testBit_mod_two_pow, testBit_foldr]
    simp only [hi, decide_true, Bool.true_and]
    by_cases hin : i < bits.length
    · rw [List.getElem_append_left hin, List.getD_eq_getElem?_getD, List.getElem?_eq_getElem hin,
        Option.getD_some]
    · rw [List.getElem_append_right (by omega), List.getElem_replicate,
        List.getD_eq_getElem?_getD, List.getElem?_eq_none (by omega), Option.getD_none]

theorem byteOfBits_byteBits (b : UInt8) : byteOfBits (byteBits b) = b := by
  apply UInt8.toNat_inj.mp
  rw [byteOfBits, UInt8.toNat_ofNat', byteBits_eq]
  apply Nat.eq_of_testBit_eq
  intro i
  have hb : b.toNat < 2 ^ 8 := b.toNat_lt
  rw [Nat.testBit_mod_two_pow, testBit_foldr]
  by_cases hi : i < 8
  · simp [fieldBits, hi]
  · rw [Nat.testBit_lt_two_pow (Nat.lt_of_lt_of_le hb (Nat.pow_le_pow_right (by omega) (by omega)))]
    simp [hi]

/-- Packed bits stand in the bytes one after the other, with less than a byte of zeros at the
end. -/
theorem flatMap_byteBits_packInto (output : Buffer) (bits : List Bool) :
    ∃ padding, padding < 8 ∧ (packInto output bits).toList.flatMap byteBits =
      output.toList.flatMap byteBits ++ bits ++ List.replicate padding false := by
  fun_induction packInto output bits with
  | case1 output b0 b1 b2 b3 b4 b5 b6 b7 rest ih =>
      obtain ⟨padding, hpadding, hbits⟩ := ih
      refine ⟨padding, hpadding, ?_⟩
      rw [hbits, Array.toList_push, List.flatMap_append, List.flatMap_singleton,
        byteBits_byteOfBits (by simp)]
      simp
  | case2 output => exact ⟨0, by omega, by simp⟩
  | case3 output bits hshort hne =>
      have hlength : bits.length < 8 := by
        match bits, hshort with
        | [], _ | [_], _ | [_, _], _ | [_, _, _], _ | [_, _, _, _], _ | [_, _, _, _, _], _
        | [_, _, _, _, _, _], _ | [_, _, _, _, _, _, _], _ => simp
        | b0 :: b1 :: b2 :: b3 :: b4 :: b5 :: b6 :: b7 :: rest, hshort =>
            exact absurd rfl (hshort b0 b1 b2 b3 b4 b5 b6 b7 rest)
      have hpositive := List.length_pos_iff.mpr hne
      refine ⟨8 - bits.length, by omega, ?_⟩
      rw [Array.toList_push, List.flatMap_append, List.flatMap_singleton,
        byteBits_byteOfBits (by omega), List.append_assoc]

theorem length_flatMap_byteBits (bytes : Bytes) :
    (bytes.flatMap byteBits).length = 8 * bytes.length := by
  induction bytes with
  | nil => rfl
  | cons b bytes ih =>
      rw [List.flatMap_cons, List.length_append, ih, List.length_cons, Nat.mul_succ, Nat.add_comm]
      rfl

theorem flatMap_byteBits_inj {left right : Bytes}
    (hbits : left.flatMap byteBits = right.flatMap byteBits) : left = right := by
  induction left generalizing right with
  | nil =>
      cases right with
      | nil => rfl
      | cons b right => simp [byteBits] at hbits
  | cons a left ih =>
      cases right with
      | nil => simp [byteBits] at hbits
      | cons b right =>
          obtain ⟨hbyte, hrest⟩ := List.append_inj hbits rfl
          rw [← byteOfBits_byteBits a, ← byteOfBits_byteBits b, hbyte, ih hrest]

namespace BitSource

/-- Whether these bits are what is unread of a source that holds less than a byte of them apart. -/
def Stands (source : BitSource) (bits : List Bool) : Prop :=
  source.bits = bits ∧ source.pending.length < 8

theorem stands_ofBytes (bytes : Bytes) : (ofBytes bytes).Stands (bytes.flatMap byteBits) :=
  ⟨rfl, by simp [ofBytes]⟩

variable {source : BitSource} {rest : List Bool}

theorem Stands.next? {bit : Bool} (hstands : source.Stands (bit :: rest)) :
    ∃ last, source.next? = some (bit, last) ∧ last.Stands rest := by
  obtain ⟨hbits, hpending⟩ := hstands
  cases hnext : source.next? with
  | none =>
      rw [bits_of_next?_eq_none hnext] at hbits
      cases hbits
  | some found =>
      obtain ⟨found, last⟩ := found
      rw [bits_of_next? hnext] at hbits
      cases hbits
      refine ⟨last, rfl, rfl, ?_⟩
      obtain ⟨pending, bytes⟩ := source
      cases pending with
      | cons b pending =>
          cases hnext
          exact Nat.lt_of_succ_lt hpending
      | nil =>
          cases bytes with
          | nil => cases hnext
          | cons b bytes =>
              cases hnext
              exact Nat.lt_succ_self 7

theorem fieldBits_succ (width n : Nat) :
    fieldBits (width + 1) n = n.testBit 0 :: fieldBits width (n / 2) := by
  simp only [fieldBits, List.range_succ_eq_map, List.map_cons, List.map_map]
  congr 1
  apply List.map_congr_left
  intro i _
  exact Nat.testBit_succ n i

theorem Stands.take {width n : Nat} (hn : n < 2 ^ width)
    (hstands : source.Stands (fieldBits width n ++ rest)) :
    ∃ last, source.take width = .ok (n, last) ∧ last.Stands rest := by
  induction width generalizing source n with
  | zero =>
      have hzero : n = 0 := by simpa using hn
      exact ⟨source, by rw [hzero]; rfl, hstands⟩
  | succ width ih =>
      rw [fieldBits_succ, List.cons_append] at hstands
      obtain ⟨middle, hnext, hmiddle⟩ := hstands.next?
      obtain ⟨last, htake, hlast⟩ := ih (by rw [Nat.pow_succ] at hn; omega) hmiddle
      refine ⟨last, ?_, hlast⟩
      simp only [BitSource.take, hnext, htake]
      have hbit : (n.testBit 0).toNat + 2 * (n / 2) = n := by
        rw [Nat.testBit_zero]
        rcases Nat.mod_two_eq_zero_or_one n with hmod | hmod
        all_goals
          simp [hmod]
          omega
      rw [hbit]

theorem Stands.align {padding : List Bool} {bytes : Bytes} (hpadding : padding.length < 8)
    (hstands : source.Stands (padding ++ bytes.flatMap byteBits)) :
    source.align.bytes = bytes := by
  obtain ⟨hbits, hpending⟩ := hstands
  have htotal := congrArg List.length hbits
  simp only [BitSource.bits, List.length_append, length_flatMap_byteBits] at htotal
  obtain ⟨-, hbytes⟩ := List.append_inj hbits (by omega)
  exact flatMap_byteBits_inj hbytes

end BitSource

end TreeImage.Codec
