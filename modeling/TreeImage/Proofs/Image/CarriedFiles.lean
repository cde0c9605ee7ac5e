import TreeImage.Proofs.Image.Carried
import TreeImage.Proofs.Image.FileContent

namespace TreeImage

open Build Format Staging OpenFile

namespace Build

variable {storing : Storing} {area : DataArea} {position : Nat} {words : List UInt32}
  {blocks : List Bytes}

theorem DataArea.HasSparse.storedLength_le {word : UInt32} {block : Bytes}
    (hsized : storing.IsSized) (hblock : DataArea.HasSparse storing area position word block) :
    storedLength word ≤ storing.blockSize := by
  rcases hblock with ⟨rfl, -⟩ | ⟨frame, isCompressed, hform, rfl, -, hlength, -⟩
  · exact Nat.zero_le _
  · rw [DataArea.storedLength_sizeWord (DataArea.length_lt_of_isForm hsized hform hlength)]
    exact Nat.le_trans hform.length_le hlength

theorem DataArea.HasBlock.word_ne_zero {word : UInt32} {block : Bytes}
    (hsized : storing.IsSized) (hcodec : storing.codec.IsFaithful)
    (hblock : DataArea.HasBlock storing area position word block) : word ≠ 0 := by
  obtain ⟨frame, isCompressed, hform, rfl, hne, hlength, -⟩ := hblock
  exact DataArea.sizeWord_ne_zero (DataArea.length_lt_of_isForm hsized hform hlength)
    (hform.represents (fun _ => hcodec) hne).stored_ne_nil

theorem DataArea.HasBlocks.placeBlocks (hsized : storing.IsSized)
    (hblocks : DataArea.HasBlocks storing area position words blocks)
    (hend : position + (words.map storedLength).sum < addressSpace) (inodeNumber : UInt32)
    (before : Array StoredBlock) :
    ∃ placed : List StoredBlock,
      OpenFile.placeBlocks inodeNumber storing.blockSize words position before =
        .ok (before ++ placed.toArray, position + (words.map storedLength).sum) ∧
      placed.length = blocks.length ∧
      ∀ (index : Nat) (block : Bytes), blocks[index]? = some block →
        ∃ stored : StoredBlock, placed[index]? = some stored ∧
          DataArea.HasSparse storing area stored.position stored.word block := by
  induction words generalizing position blocks before with
  | nil =>
      cases blocks with
      | nil => exact ⟨[], by simp [OpenFile.placeBlocks], rfl, fun _ _ hblock => nomatch hblock⟩
      | cons block blocks => exact hblocks.elim
  | cons word words ih =>
      cases blocks with
      | nil => exact hblocks.elim
      | cons block blocks =>
          obtain ⟨hblock, hrest⟩ := hblocks
          rw [List.map_cons, List.sum_cons, ← Nat.add_assoc] at hend ⊢
          obtain ⟨placed, hplaced, hlength, hfound⟩ := ih hrest hend (before.push ⟨position, word⟩)
          refine ⟨⟨position, word⟩ :: placed, ?_, congrArg (· + 1) hlength, ?_⟩
          · have hfits := hblock.storedLength_le hsized
            rw [OpenFile.placeBlocks, if_neg (Nat.not_lt.mpr hfits), if_neg (by omega), hplaced]
            simp
          · intro index other hother
            cases index with
            | zero =>
                cases hother
                exact ⟨_, rfl, hblock⟩
            | succ index => exact hfound index other hother

end Build

namespace Image

variable {image : Image} {codec : Codec} {blockSize : UInt32} {plan : Plan} {tables : Tables}
  {inodes listings : Bytes} (hcarries : image.Carries codec blockSize plan tables inodes listings)
  (hrecords : Records codec blockSize plan tables inodes listings)
include hcarries hrecords

theorem Carries.readStored {position : Nat} {word : UInt32} {block : Bytes}
    (hblock : DataArea.HasBlock ⟨codec, blockSize.toNat, plan.options⟩ plan.contents.area position
      word block) : OpenFile.readStored image position word = .ok block := by
  obtain ⟨frame, isCompressed, hform, rfl, hne, hlength, front, rest, hbytes, rfl⟩ := hblock
  have hstores := hcarries.data
  rw [hbytes] at hstores
  have hend := hcarries.data_end
  rw [hbytes, List.length_append, List.length_append] at hend
  have hinside : ¬((decide (superblockSize + front.length < superblockSize) ||
      decide (image.superblock.inodeTableStart.toNat <
        superblockSize + front.length + frame.length)) = true) := by
    simp only [Bool.or_eq_true, decide_eq_true_eq]
    omega
  unfold OpenFile.readStored
  have hframe := DataArea.length_lt_of_isForm hrecords.storing hform hlength
  rw [DataArea.storedLength_sizeWord hframe, DataArea.isRaw_sizeWord hframe]
  refine Except.refuse_eq_ok.mpr ⟨hinside, ?_⟩
  rw [hstores.right.left.read hcarries.isOpen, Except.ok_bind, hcarries.codec_eq,
    hcarries.blockSize_eq]
  have hrestores := (hform.represents (fun _ => hcarries.faithful) hne).restores blockSize.toNat
    hlength (Codec.toNat_le_maxCapacity blockSize)
  cases isCompressed with
  | true => simpa using hrestores
  | false => exact hrestores

theorem Carries.loadData {file : OpenFile} (himage : file.image = image) {content block : Bytes}
    (hsize : file.size = content.length) {index : Nat}
    (hindex : (blocksOf file.blockSize content)[index]? = some block) {stored : StoredBlock}
    (hblock : DataArea.HasSparse ⟨codec, blockSize.toNat, plan.options⟩ plan.contents.area
      stored.position stored.word block) : file.loadData index stored = .ok block := by
  have hpositive := hrecords.storing.blockSize_pos
  have hblockSize : file.blockSize = blockSize.toNat := by
    rw [OpenFile.blockSize, himage, hcarries.blockSize_eq]
  have hexpected := blockLength_of_getElem? (by rw [hblockSize]; exact Nat.ne_of_gt hpositive)
    hsize hindex
  rw [OpenFile.loadData, hexpected, Except.ok_bind]
  rcases hblock with ⟨hzero, hzeros⟩ | hblock
  · rw [if_pos hzero, ← hzeros]
    rfl
  · rw [if_neg (hblock.word_ne_zero hrecords.storing hcarries.faithful), himage,
      hcarries.readStored hrecords hblock, Except.ok_bind]
    exact Except.refuse_eq_ok.mpr ⟨not_not_intro rfl, rfl⟩

theorem Carries.loadTail {file : OpenFile} (himage : file.image = image) {content tail : Bytes}
    (hsize : file.size = content.length) {index : Nat}
    (hindex : (blocksOf file.blockSize content)[index]? = some tail) {ref : TailRef}
    (hfragment : file.body.fragment = ref.fragment)
    (hoffset : file.body.fragmentOffset = ref.offset)
    (htail : DataArea.HasTail ⟨codec, blockSize.toNat, plan.options⟩ plan.contents.area ref
      tail) : file.loadTail index = .ok tail := by
  have hpositive := hrecords.storing.blockSize_pos
  have hblockSize : file.blockSize = blockSize.toNat := by
    rw [OpenFile.blockSize, himage, hcarries.blockSize_eq]
  have hne : tail ≠ [] := ne_nil_of_mem_blocksOf (List.mem_of_getElem? hindex)
  have hexpected := blockLength_of_getElem? (by rw [hblockSize]; exact Nat.ne_of_gt hpositive)
    hsize hindex
  obtain ⟨hfits, hsome, before, block, hbefore, ⟨rest, hrest⟩, start, word, hentry, hblock⟩ :=
    hrecords.fragment hne htail
  have hread := hcarries.readStored hrecords hblock
  obtain ⟨frame, isCompressed, -, -, -, hlength, front, back, hbytes, hstart⟩ := hblock
  -- the fragment block starts at an address
  have hdata := hcarries.data_end
  have htable := image.superblock.inodeTableStart.toNat_lt
  rw [hbytes, List.length_append] at hdata
  have hstartWord : (UInt64.ofNat start).toNat = start := by
    rw [UInt64.toNat_ofNat']
    omega
  have hstop : ref.offset.toNat + tail.length ≤ block.length := by
    rw [← hrest, List.length_append, List.length_append]
    omega
  have hshort : block.length < 2 ^ 32 := Nat.lt_of_le_of_lt hlength blockSize.toNat_lt
  have hvalue : plan.contents.area.fragments[ref.fragment.toNat] = ⟨UInt64.ofNat start, word⟩ :=
    (Array.getElem?_eq_some_iff.mp hentry).2
  have hslice : (block.drop ref.offset.toNat).take
      (ref.offset.toNat + tail.length - ref.offset.toNat) = tail := by
    rw [← hrest, List.append_assoc, List.drop_left' hbefore, Nat.add_sub_cancel_left,
      List.take_left]
  unfold OpenFile.loadTail
  refine Except.refuse_eq_ok.mpr ⟨by simp [FileBody.hasFragment, hfragment, hsome], ?_⟩
  rw [hexpected, Except.ok_bind, himage, hcarries.fragments_eq, hfragment,
    Trapping.entry_eq_ok hfits, Except.ok_bind, hvalue, hstartWord, hread, Except.ok_bind, hoffset]
  dsimp only
  rw [Trapping.add_eq_ok (by unfold addressSpace; omega), Except.ok_bind]
  refine Except.refuse_eq_ok.mpr ⟨Nat.not_lt.mpr hstop, ?_⟩
  rw [Trapping.slice_eq_ok (Nat.le_add_right _ _) hstop, hslice]

theorem Carries.loadBlock {file : OpenFile} (himage : file.image = image) {content : Bytes}
    (hsize : file.size = content.length) {data : Buffer} {placement : Placement}
    (hbody : file.body = Tables.fileBody data placement) {blocks : List Bytes}
    (hlength : file.blocks.size = blocks.length)
    (hfound : ∀ (index : Nat) (block : Bytes), blocks[index]? = some block →
      ∃ stored, file.blocks[index]? = some stored ∧
        DataArea.HasSparse ⟨codec, blockSize.toNat, plan.options⟩ plan.contents.area
          stored.position stored.word block)
    (hcut : blocksOf file.blockSize content = blocks ∨
      ∃ ref tail, placement.tail = some ref ∧ blocksOf file.blockSize content = blocks ++ [tail] ∧
        DataArea.HasTail ⟨codec, blockSize.toNat, plan.options⟩ plan.contents.area ref tail)
    {index : Nat} {block : Bytes}
    (hindex : (blocksOf file.blockSize content)[index]? = some block) :
    file.loadBlock index = .ok block := by
  have hdata : blocks[index]? = some block → file.loadBlock index = .ok block := by
    intro hblock
    obtain ⟨stored, hstored, hsparse⟩ := hfound index block hblock
    rw [OpenFile.loadBlock, hstored]
    exact hcarries.loadData hrecords himage hsize hindex hsparse
  rcases hcut with hcut | ⟨ref, tail, hsome, hcut, htail⟩
  · exact hdata (hcut ▸ hindex)
  · have hplace := hindex
    rw [hcut] at hplace
    rcases Nat.lt_or_ge index blocks.length with hbefore | hpast
    · rw [List.getElem?_append_left hbefore] at hplace
      exact hdata hplace
    · rw [List.getElem?_append_right hpast] at hplace
      obtain rfl := List.mem_singleton.mp (List.mem_of_getElem? hplace)
      have hfragment : file.body.fragment = ref.fragment := by
        simp only [hbody, Tables.fileBody, hsome]
      have hoffset : file.body.fragmentOffset = ref.offset := by
        simp only [hbody, Tables.fileBody, hsome]
      rw [OpenFile.loadBlock, Array.getElem?_eq_none (by omega)]
      exact hcarries.loadTail hrecords himage hsize hindex hfragment hoffset htail

theorem Carries.fragment_lt (data : Buffer) {placement : Placement} {content : Bytes}
    (hholds : placement.Holds ⟨codec, blockSize.toNat, plan.options⟩ plan.contents.area content) :
    ¬((Tables.fileBody data placement).hasFragment &&
      decide (image.fragments.size ≤ (Tables.fileBody data placement).fragment.toNat)) = true := by
  obtain ⟨blocks, -, -, ⟨hnone, -⟩ | ⟨ref, tail, hsome, hne, -, -, -, htail⟩⟩ := hholds
  · simp [FileBody.hasFragment, Tables.fileBody, hnone]
  · obtain ⟨hfits, -⟩ := hrecords.fragment hne htail
    rw [hcarries.fragments_eq]
    simp only [Tables.fileBody, hsome, Bool.and_eq_true, decide_eq_true_eq, not_and]
    exact fun _ => Nat.not_le.mpr hfits

/-- A file of the tree is opened, and its blocks are those of its content. -/
theorem Carries.ofBody {id : NodeId} {data : Buffer} {attributes : Attributes}
    (hid : id ∈ plan.numbering.order)
    (hfile : plan.tree.node? id = some ⟨.file data, attributes⟩) (inodeNumber : UInt32) :
    ∃ file, OpenFile.ofBody image inodeNumber
        (Tables.fileBody data (plan.contents.placement id)) = .ok file ∧
      file.cache = none ∧ file.Holds data.toList := by
  have hdata := hcarries.data_end
  have htable := image.superblock.inodeTableStart.toNat_lt
  have hholds := hrecords.placed.placed id hid data attributes hfile
  generalize plan.contents.placement id = placement at *
  have hfragment := hcarries.fragment_lt hrecords data hholds
  obtain ⟨blocks, hblocks, hend, hcut⟩ := hholds
  rw [← hdata] at hend
  have hstart : (UInt64.ofNat placement.start).toNat = placement.start := by
    rw [UInt64.toNat_ofNat']
    omega
  obtain ⟨placed, hplaced, hlength, hfound⟩ :=
    hblocks.placeBlocks hrecords.storing (Nat.lt_of_le_of_lt hend htable) inodeNumber #[]
  rw [Array.empty_append] at hplaced
  have hsize : (UInt64.ofNat data.size).toNat = data.toList.length :=
    (hrecords.toNat_size hfile).trans Array.length_toList.symm
  have hblockSize : image.superblock.blockSize.toNat = blockSize.toNat := by
    rw [hcarries.blockSize_eq]
  have hcuts : blocksOf image.superblock.blockSize.toNat data.toList = blocks ∨
      ∃ ref tail, placement.tail = some ref ∧
        blocksOf image.superblock.blockSize.toNat data.toList = blocks ++ [tail] ∧
        DataArea.HasTail ⟨codec, blockSize.toNat, plan.options⟩ plan.contents.area ref tail := by
    rw [hblockSize]
    rcases hcut with ⟨-, hcut⟩ | ⟨ref, tail, hsome, -, -, -, hcut, htail⟩
    · exact Or.inl hcut
    · exact Or.inr ⟨ref, tail, hsome, hcut, htail⟩
  refine ⟨⟨image, Tables.fileBody data placement, inodeNumber, placed.toArray, 0, none⟩, ?_, rfl,
    ?_, hsize, ?_⟩
  · unfold OpenFile.ofBody
    change (OpenFile.placeBlocks inodeNumber image.superblock.blockSize.toNat
      placement.blockSizes.toList (UInt64.ofNat placement.start).toNat #[] >>= _) = _
    rw [hstart, hblockSize, hplaced, Except.ok_bind]
    refine Except.refuse_eq_ok.mpr ⟨Nat.not_lt.mpr hend, ?_⟩
    exact Except.refuse_eq_ok.mpr ⟨hfragment, rfl⟩
  · change image.superblock.blockSize.toNat ≠ 0
    rw [hblockSize]
    exact Nat.ne_of_gt hrecords.storing.blockSize_pos
  · intro index block hindex
    refine hcarries.loadBlock hrecords (show OpenFile.image ⟨image, Tables.fileBody data placement,
      inodeNumber, placed.toArray, 0, none⟩ = image from rfl) hsize rfl
      (List.size_toArray.trans hlength) ?_ hcuts hindex
    intro index block hblock
    obtain ⟨stored, hstored, hsparse⟩ := hfound index block hblock
    exact ⟨stored, List.getElem?_toArray.trans hstored, hsparse⟩

end Image

end TreeImage
