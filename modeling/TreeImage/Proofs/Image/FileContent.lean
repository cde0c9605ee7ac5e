import TreeImage.Proofs.Bytes.Blocks
import TreeImage.Proofs.Image.OpenFile

namespace TreeImage

open Format

namespace OpenFile

variable {file : OpenFile} {content : Bytes}

/-- Whether the blocks of a file are those of a byte string. -/
structure Holds (file : OpenFile) (content : Bytes) : Prop where
  blockSize_ne_zero : file.blockSize ≠ 0
  size_eq : file.size = content.length
  loadBlock : ∀ index block, (blocksOf file.blockSize content)[index]? = some block →
    file.loadBlock index = .ok block

theorem blockLength_of_getElem? (hblockSize : file.blockSize ≠ 0)
    (hsize : file.size = content.length) {index : Nat} {block : Bytes}
    (hblock : (blocksOf file.blockSize content)[index]? = some block) :
    file.blockLength index = .ok block.length := by
  obtain ⟨hindex, rfl⟩ := eq_of_getElem?_blocksOf hblockSize hblock
  rw [← hsize] at hindex
  rw [blockLength_of_le (Nat.le_of_lt hindex), List.length_take, List.length_drop, hsize,
    Nat.min_comm]

theorem Holds.loadBlocks (hholds : file.Holds content) (count index : Nat)
    (hcount : index + count ≤ (blocksOf file.blockSize content).length) :
    file.loadBlocks count index =
      .ok (((blocksOf file.blockSize content).drop index).take count) := by
  induction count generalizing index with
  | zero => rw [List.take_zero, OpenFile.loadBlocks]
  | succ count ih =>
      have hindex : index < (blocksOf file.blockSize content).length := by omega
      rw [OpenFile.loadBlocks, hholds.loadBlock index _ (List.getElem?_eq_getElem hindex),
        Except.ok_bind, ih (index + 1) (by omega), Except.ok_bind, List.drop_eq_getElem_cons hindex,
        List.take_succ_cons]
      rfl

theorem Holds.bytesAt (hholds : file.Holds content) (offset count : Nat) :
    file.bytesAt offset count = .ok ((content.drop offset).take count) := by
  obtain ⟨hblockSize, hsize, -⟩ := id hholds
  have hlt := file.size_lt
  unfold OpenFile.bytesAt
  by_cases hwanted : min count (file.size - offset) = 0
  · have hnil : (content.drop offset).take count = [] := by
      rw [List.take_eq_nil_iff, List.drop_eq_nil_iff]
      omega
    simp only [if_pos hwanted, hnil]
    rfl
  · simp only [if_neg hwanted]
    generalize hmin : min count (file.size - offset) = wanted at *
    have hstop : offset + wanted ≤ content.length := by omega
    have hinside := div_lt_length_blocksOf hblockSize
      (show offset + wanted - 1 < content.length by omega)
    have hfirst : offset / file.blockSize ≤ (offset + wanted - 1) / file.blockSize :=
      Nat.div_le_div_right (by omega)
    obtain ⟨hpart, hslice⟩ := slice_blocksOf hblockSize hstop rfl
    rw [Trapping.add_eq_ok (by omega), Except.ok_bind, Trapping.div_eq_ok hblockSize,
      Except.ok_bind, Trapping.div_eq_ok hblockSize, Except.ok_bind,
      hholds.loadBlocks _ _ (by omega), Except.ok_bind,
      Trapping.slice_eq_ok (Nat.le_add_right _ _) hpart, Nat.add_sub_cancel_left, hslice, ← hmin,
      hsize, ← List.length_drop, ← List.take_eq_take_min]

theorem Holds.run_readAt (hholds : file.Holds content) (hcache : file.CacheIsLoaded)
    (offset count : Nat) :
    ((readAt offset count).run file).1 = .ok ((content.drop offset).take count) := by
  obtain ⟨kept, hrun, -⟩ := readAt_readsAs offset count file.cache hcache
  rw [show file.keeping file.cache = file from rfl, hholds.bytesAt] at hrun
  rw [hrun]

end OpenFile

end TreeImage
