import TreeImage.Bytes.Buffer

namespace TreeImage.Buffer

theorem size_overwrite (buffer : Buffer) (start : Nat) (bytes : Bytes) :
    (buffer.overwrite start bytes).size = max buffer.size (start + bytes.length) := by
  rw [← Array.length_toList, toList_overwrite, List.length_append, List.length_append,
    List.length_take, List.length_drop, Array.length_toList, size_zeroExtend]
  omega

theorem length_take_zeroExtend (buffer : Buffer) (start count : Nat) :
    ((buffer.zeroExtend (start + count)).toList.take start).length = start := by
  rw [List.length_take, Array.length_toList, size_zeroExtend]
  omega

theorem getElem?_overwrite {buffer : Buffer} {start : Nat} {bytes : Bytes} {i : Nat}
    (houtside : i < start ∧ i < buffer.size ∨ start + bytes.length ≤ i) :
    (buffer.overwrite start bytes).toList[i]? = buffer.toList[i]? := by
  have hextended : (buffer.zeroExtend (start + bytes.length)).toList[i]? = buffer.toList[i]? := by
    rw [toList_zeroExtend]
    by_cases hi : i < buffer.size
    · rw [List.getElem?_append_left (by simpa using hi)]
    · have hnone : buffer.toList[i]? = none :=
        List.getElem?_eq_none (by simpa using Nat.le_of_not_lt hi)
      rw [hnone]
      apply List.getElem?_eq_none
      rw [List.length_append, Array.length_toList, List.length_replicate]
      omega
  have hlength := buffer.length_take_zeroExtend start bytes.length
  rw [toList_overwrite, ← hextended]
  rcases houtside with ⟨hbefore, -⟩ | hafter
  · rw [List.append_assoc, List.getElem?_append_left (by omega), List.getElem?_take_of_lt hbefore]
  · rw [List.getElem?_append_right (by rw [List.length_append]; omega), List.getElem?_drop,
      List.length_append, hlength, Nat.add_sub_cancel' hafter]

theorem prefix_drop_overwrite (buffer : Buffer) (start : Nat) (bytes : Bytes) :
    bytes <+: (buffer.overwrite start bytes).toList.drop start := by
  have hlength := buffer.length_take_zeroExtend start bytes.length
  rw [toList_overwrite, List.append_assoc, List.drop_left' hlength]
  exact List.prefix_append bytes _

/-- What an overwrite leaves at a place: its own bytes, zeros in a gap, and what was there. -/
theorem getElem?_overwrite_eq (buffer : Buffer) (start : Nat) (bytes : Bytes) (i : Nat) :
    (buffer.overwrite start bytes).toList[i]? =
      if i < start then some (buffer.toList[i]?.getD 0)
      else if i < start + bytes.length then bytes[i - start]?
      else buffer.toList[i]? := by
  have hlength := buffer.length_take_zeroExtend start bytes.length
  by_cases hbefore : i < start
  · rw [if_pos hbefore, toList_overwrite, List.append_assoc,
      List.getElem?_append_left (by omega), List.getElem?_take_of_lt hbefore, toList_zeroExtend]
    by_cases hi : i < buffer.toList.length
    · rw [List.getElem?_append_left hi, List.getElem?_eq_getElem hi, Option.getD_some]
    · have hnone : buffer.toList[i]? = none := List.getElem?_eq_none (Nat.le_of_not_lt hi)
      have hgap : i - buffer.toList.length < start + bytes.length - buffer.size := by
        rw [Array.length_toList] at hi ⊢
        omega
      rw [hnone, List.getElem?_append_right (by omega), List.getElem?_replicate, if_pos hgap,
        Option.getD_none]
  · rw [if_neg hbefore]
    by_cases hinside : i < start + bytes.length
    · rw [if_pos hinside, toList_overwrite, List.append_assoc,
        List.getElem?_append_right (by omega), hlength, List.getElem?_append_left (by omega)]
    · rw [if_neg hinside, getElem?_overwrite (Or.inr (by omega))]

theorem overwrite_append (buffer : Buffer) (start : Nat) (front back : Bytes) :
    (buffer.overwrite start front).overwrite (start + front.length) back =
      buffer.overwrite start (front ++ back) := by
  apply Array.toList_inj.mp
  apply List.ext_getElem?
  intro i
  simp only [getElem?_overwrite_eq, List.length_append]
  by_cases hbefore : i < start
  · rw [if_pos (by omega), if_pos hbefore, if_pos hbefore, Option.getD_some]
  · rw [if_neg hbefore]
    by_cases hfront : i < start + front.length
    · rw [if_pos hfront, if_neg hbefore, if_pos hfront, if_pos (by omega),
        List.getElem?_append_left (by omega), List.getElem?_eq_getElem (by omega),
        Option.getD_some]
    · rw [if_neg hfront, if_neg hbefore, if_neg hfront, Nat.add_assoc]
      by_cases hback : i < start + (front.length + back.length)
      · rw [if_pos hback, if_pos hback, List.getElem?_append_right (by omega), Nat.sub_sub]
      · rw [if_neg hback, if_neg hback]

theorem overwrite_before (buffer : Buffer) (start : Nat) (front back : Bytes) :
    (buffer.overwrite (start + front.length) back).overwrite start front =
      buffer.overwrite start (front ++ back) := by
  apply Array.toList_inj.mp
  apply List.ext_getElem?
  intro i
  simp only [getElem?_overwrite_eq, List.length_append]
  by_cases hbefore : i < start
  · rw [if_pos hbefore, if_pos hbefore, if_pos (by omega), Option.getD_some]
  · rw [if_neg hbefore, if_neg hbefore]
    by_cases hfront : i < start + front.length
    · rw [if_pos hfront, if_pos (by omega), List.getElem?_append_left (by omega)]
    · rw [if_neg hfront, if_neg hfront, Nat.add_assoc]
      by_cases hback : i < start + (front.length + back.length)
      · rw [if_pos hback, if_pos hback, List.getElem?_append_right (by omega), Nat.sub_sub]
      · rw [if_neg hback, if_neg hback]

theorem toList_overwrite_eq (buffer : Buffer) (start : Nat) (bytes : Bytes) :
    (buffer.overwrite start bytes).toList =
      (buffer.toList ++ List.replicate (start - buffer.size) 0).take start ++ bytes ++
        buffer.toList.drop (start + bytes.length) := by
  have hheld : buffer.toList.length = buffer.size := Array.length_toList
  have hrest : start + bytes.length - buffer.size - (start + bytes.length - buffer.size) = 0 :=
    Nat.sub_self _
  rw [toList_overwrite, toList_zeroExtend]
  congr 1
  · congr 1
    rw [List.take_append, List.take_append, List.take_replicate, List.take_replicate, hheld]
    congr 2
    omega
  · rw [List.drop_append, List.drop_replicate, hheld, hrest, List.replicate_zero, List.append_nil]

end TreeImage.Buffer
