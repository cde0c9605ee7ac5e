import TreeImage.Bytes.Word

namespace TreeImage

abbrev Buffer := Array UInt8

namespace Buffer

/-- The bytes from `start` on, at most `count` of them and fewer at the end of the buffer. -/
def slice (buffer : Buffer) (start count : Nat) : Bytes :=
  (buffer.extract start (start + count)).toList

/-- The buffer followed by as many zeros as a size of at least `size` needs. -/
def zeroExtend (buffer : Buffer) (size : Nat) : Buffer :=
  buffer ++ Array.replicate (size - buffer.size) 0

/-- Replaces the bytes from `start` on, one by one; bytes past the end are dropped. -/
def setFrom (buffer : Buffer) (start : Nat) : Bytes → Buffer
  | [] => buffer
  | b :: bytes => setFrom (buffer.setIfInBounds start b) (start + 1) bytes

/-- Puts `bytes` at `start`, after extending the buffer with zeros so that they fit. -/
def overwrite (buffer : Buffer) (start : Nat) (bytes : Bytes) : Buffer :=
  setFrom (buffer.zeroExtend (start + bytes.length)) start bytes

def pushAll (buffer : Buffer) (bytes : Bytes) : Buffer := bytes.foldl Array.push buffer

theorem toList_slice (buffer : Buffer) (start count : Nat) :
    buffer.slice start count = (buffer.toList.drop start).take count := by
  simp [slice, List.extract_eq_take_drop]

@[simp] theorem toList_zeroExtend (buffer : Buffer) (size : Nat) :
    (buffer.zeroExtend size).toList
      = buffer.toList ++ List.replicate (size - buffer.size) 0 := by
  simp [zeroExtend]

@[simp] theorem size_zeroExtend (buffer : Buffer) (size : Nat) :
    (buffer.zeroExtend size).size = max buffer.size size := by
  simp only [zeroExtend, Array.size_append, Array.size_replicate]
  omega

theorem toList_setFrom (buffer : Buffer) (start : Nat) (bytes : Bytes)
    (hfits : start + bytes.length ≤ buffer.size) :
    (buffer.setFrom start bytes).toList
      = buffer.toList.take start ++ bytes ++ buffer.toList.drop (start + bytes.length) := by
  induction bytes generalizing buffer start with
  | nil => simp [setFrom]
  | cons b bytes ih =>
      simp only [List.length_cons] at hfits
      have hstart : start < buffer.toList.length := by simpa using (by omega : start < buffer.size)
      rw [setFrom, ih _ _ (by simpa using (by omega : start + 1 + bytes.length ≤ buffer.size))]
      simp only [Array.toList_setIfInBounds, List.length_cons]
      rw [List.take_set, List.drop_set_of_lt (by omega), List.take_add_one,
        List.getElem?_eq_getElem hstart]
      rw [List.set_append_right _ _ (List.length_take_le ..)]
      have hmin : min start buffer.size = start := Nat.min_eq_left (by omega)
      simp [hmin, Nat.add_comm, Nat.add_left_comm]

theorem toList_overwrite (buffer : Buffer) (start : Nat) (bytes : Bytes) :
    (buffer.overwrite start bytes).toList
      = (buffer.zeroExtend (start + bytes.length)).toList.take start ++ bytes
        ++ (buffer.zeroExtend (start + bytes.length)).toList.drop (start + bytes.length) := by
  rw [overwrite, toList_setFrom]
  simp only [size_zeroExtend]
  omega

@[simp] theorem toList_pushAll (buffer : Buffer) (bytes : Bytes) :
    (buffer.pushAll bytes).toList = buffer.toList ++ bytes := by
  induction bytes generalizing buffer with
  | nil => simp [pushAll]
  | cons b bytes ih =>
      rw [pushAll, List.foldl_cons, ← pushAll, ih]
      simp

end Buffer

end TreeImage
