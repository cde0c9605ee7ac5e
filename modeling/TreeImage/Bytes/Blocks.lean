import TreeImage.Bytes.Word

namespace TreeImage

/-- Cuts the rest of a string into blocks, after those already cut, which come latest first. -/
def cutBlocks (size : Nat) (blocks : List Bytes) (bytes : Bytes) : List Bytes :=
  if size = 0 ∨ bytes = [] then blocks.reverse
  else cutBlocks size (bytes.take size :: blocks) (bytes.drop size)
termination_by bytes.length
decreasing_by
  rename_i h
  have hlength : bytes.length ≠ 0 := fun hzero => h (Or.inr (List.length_eq_zero_iff.mp hzero))
  rw [List.length_drop]
  omega

/-- Consecutive blocks of `size` bytes; the last one may be shorter.  A size of zero gives no
blocks. -/
def blocksOf (size : Nat) (bytes : Bytes) : List Bytes := cutBlocks size [] bytes

theorem cutBlocks_append (size : Nat) (front back : List Bytes) (bytes : Bytes) :
    cutBlocks size (front ++ back) bytes = back.reverse ++ cutBlocks size front bytes := by
  fun_induction cutBlocks size front bytes with
  | case1 front bytes h => rw [cutBlocks, if_pos h, List.reverse_append]
  | case2 front bytes h ih => rw [cutBlocks, if_neg h, ← List.cons_append, ih]

@[simp] theorem blocksOf_nil (size : Nat) : blocksOf size [] = [] := by
  rw [blocksOf, cutBlocks, if_pos (by simp), List.reverse_nil]

theorem blocksOf_of_ne_nil {size : Nat} (hsize : size ≠ 0) {bytes : Bytes} (hbytes : bytes ≠ []) :
    blocksOf size bytes = bytes.take size :: blocksOf size (bytes.drop size) := by
  have hrest : ¬(size = 0 ∨ bytes = []) := by simp [hsize, hbytes]
  rw [blocksOf, cutBlocks, if_neg hrest]
  exact cutBlocks_append size [] [bytes.take size] _

theorem flatten_blocksOf {size : Nat} (hsize : size ≠ 0) (bytes : Bytes) :
    (blocksOf size bytes).flatten = bytes := by
  by_cases hbytes : bytes = []
  · simp [hbytes]
  · have hlength : bytes.length ≠ 0 := fun hzero => hbytes (List.length_eq_zero_iff.mp hzero)
    rw [blocksOf_of_ne_nil hsize hbytes, List.flatten_cons, flatten_blocksOf hsize,
      List.take_append_drop]
termination_by bytes.length
decreasing_by
  rw [List.length_drop]
  omega

theorem length_le_of_mem_blocksOf {size : Nat} {bytes block : Bytes}
    (hmem : block ∈ blocksOf size bytes) : block.length ≤ size := by
  by_cases hsize : size = 0
  · rw [blocksOf, cutBlocks, if_pos (Or.inl hsize)] at hmem
    simp at hmem
  · by_cases hbytes : bytes = []
    · simp [hbytes] at hmem
    · have hlength : bytes.length ≠ 0 := fun hzero => hbytes (List.length_eq_zero_iff.mp hzero)
      rw [blocksOf_of_ne_nil hsize hbytes] at hmem
      rcases List.mem_cons.mp hmem with rfl | hrest
      · exact List.length_take_le ..
      · exact length_le_of_mem_blocksOf hrest
termination_by bytes.length
decreasing_by
  rw [List.length_drop]
  omega

end TreeImage
