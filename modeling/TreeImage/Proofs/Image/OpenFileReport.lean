import TreeImage.Proofs.Image.OpenFile
import TreeImage.Proofs.Image.Report

namespace TreeImage

open Format

namespace OpenFile

/-- What holds of a file that was opened in memory, however it was read since. -/
structure InMemory (file : OpenFile) : Prop where
  image : file.image.InMemory
  fragment : file.body.hasFragment = true → file.body.fragment.toNat < file.image.fragments.size
  cache : file.CacheIsLoaded
  position_lt : file.position < addressSpace

theorem placeBlocks_reports {storageFails : Prop} (inodeNumber : UInt32) (blockSize : Nat)
    (words : List UInt32) (position : Nat) (blocks : Array StoredBlock) :
    Reports storageFails (placeBlocks inodeNumber blockSize words position blocks) := by
  induction words generalizing position blocks with
  | nil => exact .ok _
  | cons word words ih =>
      rw [placeBlocks]
      split
      · exact .error trivial
      · split
        · exact .error trivial
        · exact ih _ _

theorem ofBody_reports {storageFails : Prop} (image : Image) (inodeNumber : UInt32)
    (body : FileBody) : Reports storageFails (ofBody image inodeNumber body) := by
  refine .bind (placeBlocks_reports _ _ _ _ _) fun placed _ => ?_
  refine .refuse trivial fun _ => ?_
  exact .refuse trivial fun _ => .ok _

theorem inMemory_of_ofBody {image : Image} (hmemory : image.InMemory) {inodeNumber : UInt32}
    {body : FileBody} {file : OpenFile} (hopen : ofBody image inodeNumber body = .ok file) :
    file.InMemory ∧ file.image = image := by
  obtain ⟨placed, -, hopen⟩ := Except.bind_eq_ok.mp hopen
  obtain ⟨-, hopen⟩ := Except.refuse_eq_ok.mp hopen
  obtain ⟨hfragment, hopen⟩ := Except.refuse_eq_ok.mp hopen
  cases hopen
  refine ⟨⟨hmemory, ?_, ?_, Nat.two_pow_pos 64⟩, rfl⟩
  · intro hhas
    simpa [hhas] using hfragment
  · intro index data hkept
    cases hkept

theorem readStored_reports {image : Image} (hmemory : image.InMemory) (position : Nat)
    (word : UInt32) : Reports (image.region.declared ≠ none) (readStored image position word) := by
  have hinodes := hmemory.checked.inodes_le_directories
  have hdirectories := hmemory.checked.directories_le_bytesUsed
  unfold readStored
  refine .refuse trivial fun hinside => ?_
  simp only [Bool.or_eq_true, decide_eq_true_eq, not_or, Nat.not_lt] at hinside
  refine .bind (hmemory.region.read_reports (hmemory.holds.mono (by omega))) fun stored _ => ?_
  split
  · exact .ok _
  · exact hmemory.codec.reports _ (Codec.toNat_le_maxCapacity _)

variable {file : OpenFile}

theorem InMemory.loadData_reports (hmemory : file.InMemory) {index : Nat}
    (hindex : index * file.blockSize ≤ file.size) (block : StoredBlock) :
    Reports (file.image.region.declared ≠ none) (file.loadData index block) := by
  refine .bind (.of_eq_ok (blockLength_of_le hindex)) fun expected _ => ?_
  split
  · exact .ok _
  · refine .bind (readStored_reports hmemory.image _ _) fun data _ => ?_
    exact .refuse trivial fun _ => .ok _

theorem InMemory.loadTail_reports (hmemory : file.InMemory) {index : Nat}
    (hindex : index * file.blockSize ≤ file.size) :
    Reports (file.image.region.declared ≠ none) (file.loadTail index) := by
  unfold loadTail
  refine .refuse trivial fun hmissing => ?_
  have hhas : file.body.hasFragment = true := by simpa using hmissing
  refine .bind (.of_eq_ok (blockLength_of_le hindex)) fun expected hexpected => ?_
  obtain ⟨-, -, hlength⟩ := blockLength_eq_ok.mp hexpected
  refine .bind (.of_eq_ok (Trapping.entry_eq_ok (hmemory.fragment hhas))) fun entry _ => ?_
  refine .bind (readStored_reports hmemory.image _ _) fun fragment _ => ?_
  have hstart := file.body.fragmentOffset.toNat_lt
  have hblockSize : file.blockSize < 2 ^ 32 := file.image.superblock.blockSize.toNat_lt
  have hfits : file.body.fragmentOffset.toNat + expected < addressSpace := by
    unfold addressSpace
    omega
  refine .bind (.of_eq_ok (Trapping.add_eq_ok hfits)) fun stop hstop => ?_
  obtain ⟨-, rfl⟩ := Trapping.eq_of_add_eq_ok hstop
  refine .refuse trivial fun houtside => ?_
  exact .of_eq_ok (Trapping.slice_eq_ok (Nat.le_add_right ..) (Nat.le_of_not_lt houtside))

theorem InMemory.loadBlock_reports (hmemory : file.InMemory) {index : Nat}
    (hindex : index * file.blockSize ≤ file.size) :
    Reports (file.image.region.declared ≠ none) (file.loadBlock index) := by
  unfold loadBlock
  split
  · exact hmemory.loadData_reports hindex _
  · exact hmemory.loadTail_reports hindex

theorem InMemory.loadBlocks_reports (hmemory : file.InMemory) {count index : Nat}
    (hindices : ∀ other < index + count, other * file.blockSize ≤ file.size) :
    Reports (file.image.region.declared ≠ none) (file.loadBlocks count index) := by
  induction count generalizing index with
  | zero => exact .ok _
  | succ count ih =>
      refine .bind (hmemory.loadBlock_reports (hindices index (by omega))) fun first _ => ?_
      refine .bind (ih fun other hother => hindices other (by omega)) fun rest _ => ?_
      exact .ok _

theorem within_le_length {offset wanted : Nat} (hblockSize : file.blockSize ≠ 0)
    (hwanted : wanted ≠ 0) (hsize : offset + wanted ≤ file.size) {blocks : List Bytes}
    (hload : file.loadBlocks
      ((offset + wanted - 1) / file.blockSize + 1 - offset / file.blockSize)
      (offset / file.blockSize) = .ok blocks) :
    offset % file.blockSize + wanted ≤ blocks.flatten.length := by
  have hlength := length_of_loadBlocks hload
  have hfirst : offset / file.blockSize ≤ (offset + wanted - 1) / file.blockSize :=
    Nat.div_le_div_right (by omega)
  rw [show offset / file.blockSize + ((offset + wanted - 1) / file.blockSize + 1 -
    offset / file.blockSize) = (offset + wanted - 1) / file.blockSize + 1 by omega,
    Nat.add_mul, Nat.one_mul] at hlength
  have hbefore := Nat.div_add_mod offset file.blockSize
  have hlast := Nat.div_add_mod (offset + wanted - 1) file.blockSize
  have hwithin := Nat.mod_lt (offset + wanted - 1) (Nat.pos_of_ne_zero hblockSize)
  rw [Nat.mul_comm] at hbefore hlast
  omega

theorem InMemory.bytesAt_reports (hmemory : file.InMemory) (offset count : Nat) :
    Reports (file.image.region.declared ≠ none) (file.bytesAt offset count) := by
  have hblockSize : file.blockSize ≠ 0 := Nat.ne_of_gt hmemory.image.checked.blockSize_pos
  unfold bytesAt
  generalize hcount : min count (file.size - offset) = wanted
  dsimp only
  split
  · exact .ok _
  · rename_i hwanted
    have hsize := file.size_lt
    have hstop : offset + wanted ≤ file.size := by omega
    have hlast := Nat.div_mul_le_self (offset + wanted - 1) file.blockSize
    refine .bind (.of_eq_ok (Trapping.add_eq_ok (by omega))) fun stop hstopValue => ?_
    obtain ⟨-, rfl⟩ := Trapping.eq_of_add_eq_ok hstopValue
    rw [Trapping.div_eq_ok hblockSize, Except.ok_bind, Trapping.div_eq_ok hblockSize,
      Except.ok_bind]
    have hindices : ∀ other < offset / file.blockSize +
        ((offset + wanted - 1) / file.blockSize + 1 - offset / file.blockSize),
        other * file.blockSize ≤ file.size := by
      intro other hother
      have hfirst : offset / file.blockSize ≤ (offset + wanted - 1) / file.blockSize :=
        Nat.div_le_div_right (by omega)
      have hle : other ≤ (offset + wanted - 1) / file.blockSize := by omega
      have hmul := Nat.mul_le_mul_right file.blockSize hle
      omega
    refine .bind (hmemory.loadBlocks_reports hindices) fun blocks hblocks => ?_
    have hinside := within_le_length hblockSize hwanted hstop hblocks
    exact .of_eq_ok (Trapping.slice_eq_ok (Nat.le_add_right ..) hinside)

theorem length_bytesAt_le {offset count : Nat} {data : Bytes}
    (hread : file.bytesAt offset count = .ok data) : data.length ≤ file.size - offset := by
  unfold bytesAt at hread
  generalize hcount : min count (file.size - offset) = wanted at hread
  dsimp only at hread
  split at hread
  · cases hread
    exact Nat.zero_le _
  · obtain ⟨stop, -, hread⟩ := Except.bind_eq_ok.mp hread
    obtain ⟨first, -, hread⟩ := Except.bind_eq_ok.mp hread
    obtain ⟨last, -, hread⟩ := Except.bind_eq_ok.mp hread
    obtain ⟨blocks, -, hread⟩ := Except.bind_eq_ok.mp hread
    obtain ⟨-, rfl⟩ := Trapping.eq_of_slice_eq_ok hread
    rw [List.length_take]
    omega

theorem InMemory.readAt_reports (hmemory : file.InMemory) (offset count : Nat) :
    Reports (file.image.region.declared ≠ none) ((readAt offset count).run file).1 ∧
      ((readAt offset count).run file).2.InMemory ∧
      ((readAt offset count).run file).2.image = file.image := by
  obtain ⟨kept, hrun, hkept⟩ := readAt_readsAs offset count file.cache hmemory.cache
  change (readAt offset count).run file = _ at hrun
  rw [hrun]
  exact ⟨hmemory.bytesAt_reports offset count,
    ⟨hmemory.image, hmemory.fragment, hkept, hmemory.position_lt⟩, rfl⟩

/-- Reading on from the position fails with reports only: the position stays an address, since it
moves past it only as far as the file goes. -/
theorem InMemory.advance_reports (hmemory : file.InMemory) (count : Nat) :
    Reports (file.image.region.declared ≠ none) ((advance count).run file).1 ∧
      ((advance count).run file).2.InMemory ∧
      ((advance count).run file).2.image = file.image := by
  obtain ⟨kept, hrun, hkept⟩ := readAt_readsAs file.position count file.cache hmemory.cache
  change (readAt file.position count).run file = _ at hrun
  have hreports := hmemory.bytesAt_reports file.position count
  rw [advance, Action.run_bind_of_ok (Action.run_get file)]
  cases hbytes : file.bytesAt file.position count with
  | error error =>
      rw [hbytes] at hrun hreports
      rw [Action.run_bind_of_error hrun]
      exact ⟨.error (hreports error rfl),
        ⟨hmemory.image, hmemory.fragment, hkept, hmemory.position_lt⟩, rfl⟩
  | ok data =>
      rw [hbytes] at hrun
      have hlength := length_bytesAt_le hbytes
      have hsize := file.size_lt
      have hposition := hmemory.position_lt
      have hfits : file.position + data.length < addressSpace := by omega
      rw [Action.run_bind_of_ok hrun, Trapping.add_eq_ok hfits]
      exact ⟨.ok _, ⟨hmemory.image, hmemory.fragment, hkept, hfits⟩, rfl⟩

def seekTarget (file : OpenFile) (anchor : Anchor) (distance : Int) : Int :=
  ((match anchor with
    | .start => 0
    | .current => file.position
    | .fileEnd => file.size : Nat) : Int) + distance

theorem seek_eq (file : OpenFile) (anchor : Anchor) (distance : Int) :
    (seek anchor distance).run file =
      if file.seekTarget anchor distance < 0 ∨
          (addressSpace : Int) ≤ file.seekTarget anchor distance then
        (.error ⟨.invalidInput, "seek to a negative or overflowing position"⟩, file)
      else
        (.ok (file.seekTarget anchor distance).toNat,
          { file with position := (file.seekTarget anchor distance).toNat }) := by
  have hrun : (seek anchor distance).run file =
      (if file.seekTarget anchor distance < 0 ∨
          (addressSpace : Int) ≤ file.seekTarget anchor distance then
        throw ⟨.invalidInput, "seek to a negative or overflowing position"⟩
      else do
        set { file with position := (file.seekTarget anchor distance).toNat }
        return (file.seekTarget anchor distance).toNat : StreamAction Nat).run file := by
    cases anchor
    all_goals
      simp only [seek]
      rfl
  rw [hrun]
  split
  · rfl
  · rfl

theorem seek_cases (file : OpenFile) (anchor : Anchor) (distance : Int) :
    (∃ position, position < addressSpace ∧
      (seek anchor distance).run file = (.ok position, { file with position })) ∨
      ∃ text, (seek anchor distance).run file = (.error ⟨.invalidInput, text⟩, file) := by
  rw [seek_eq]
  by_cases houtside : file.seekTarget anchor distance < 0 ∨
      (addressSpace : Int) ≤ file.seekTarget anchor distance
  · rw [if_pos houtside]
    exact Or.inr ⟨_, rfl⟩
  · rw [if_neg houtside]
    exact Or.inl ⟨_, by omega, rfl⟩

end OpenFile

namespace Image

variable {image : Image}

theorem InMemory.openFile_reports (hmemory : image.InMemory) (path : String) :
    Reports (image.region.declared ≠ none) (image.openFile path) := by
  refine .bind (hmemory.resolve_reports path true) fun inode _ => ?_
  split
  · exact OpenFile.ofBody_reports image _ _
  · exact .error trivial

theorem inMemory_of_openFile (hmemory : image.InMemory) {path : String} {file : OpenFile}
    (hopen : image.openFile path = .ok file) : file.InMemory ∧ file.image = image := by
  obtain ⟨inode, -, hopen⟩ := Except.bind_eq_ok.mp hopen
  split at hopen
  · exact OpenFile.inMemory_of_ofBody hmemory hopen
  · cases hopen

theorem InMemory.content_reports (hmemory : image.InMemory) (path : String) :
    Reports (image.region.declared ≠ none) (image.content path) := by
  refine .bind (hmemory.openFile_reports path) fun file hopen => ?_
  obtain ⟨hfile, himage⟩ := inMemory_of_openFile hmemory hopen
  have hread := (hfile.readAt_reports 0 file.size).1
  rwa [himage] at hread

end Image

end TreeImage
