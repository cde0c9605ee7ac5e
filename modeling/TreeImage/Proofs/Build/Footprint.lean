import TreeImage.Proofs.Build.Parts
import TreeImage.Proofs.Image.RoundTrip

namespace TreeImage

open Build Format Staging

namespace Build

variable {codec : Codec} {blockSize time : UInt32} {tree : Tree} {options : Options} {plan : Plan}
  {tables : Tables} {layout : Layout}

theorem IsMade.parse_header (hmade : IsMade codec blockSize tree options plan tables layout)
    (htree : tree.WellFormed) (hblockSize : isBlockSize blockSize.toNat = true)
    (htiles : (hmade.parts time).Tiles) :
    Superblock.parse (hmade.parts time).header.toBytes = .ok (hmade.parts time).header := by
  obtain ⟨rfl, -⟩ := hmade.tree_eq
  obtain ⟨inodes, listings, hholds⟩ :=
    Tables.exists_holds_of_ofPlan htree hmade.numbering_eq hmade.tables_eq
  obtain ⟨inode, -, hroot⟩ := hholds.described Staging.root (root_mem_postOrder htree) _
    (Array.getElem?_eq_getElem htree.root_lt)
  have hchecked : (hmade.parts time).header.IsChecked := by
    refine ⟨hblockSize, ?_, hroot.offset_lt⟩
    have hinodes := htiles.inodeTable
    have hdirectories := htiles.directoryTable
    have hfragments := htiles.fragments
    have hids := htiles.ids
    have hused := htiles.bytesUsed
    simp only [Superblock.tablesInOrder, Bool.and_eq_true, decide_eq_true_eq,
      UInt64.le_iff_toNat_le]
    omega
  exact Superblock.parse_toBytes hchecked (toNat_log2 hchecked.blockSize_pos).symm

end Build

namespace Builder

variable {codecs : Codecs} {codec : Codec} {blockSize time : UInt32} {tree : Tree}
  {options : Options} {builder last : Builder}

theorem exists_parts_of_run {prior : Bytes} {start size : Nat} {written : Region}
    (hblockSize : isBlockSize blockSize.toNat = true)
    (hrun : (imageScript codec blockSize time tree options).run
      (Region.ofStorage (Storage.ofBytes prior) start size) = (.ok (), written)) :
    ∃ plan tables layout, ∃ hmade : IsMade codec blockSize tree options plan tables layout,
      DataArea.Consistent ⟨codec, blockSize.toNat, options⟩ plan.contents.area ∧
      start + (hmade.parts time).bytes.length < addressSpace ∧
      written.storage.content = Buffer.overwrite prior.toArray start (hmade.parts time).bytes := by
  obtain ⟨houtcome, -⟩ := Script.run_eq_ok.mp hrun
  obtain ⟨plan, tables, layout, hmade, -⟩ := imageScript_eq_ok.mp (Script.eq_of_outcome houtcome)
  have hdata := (hmade.holds (isSized_of_isBlockSize hblockSize codec options)).1.consistent
  have hmoves : (Storage.ofBytes prior).Moves := fun _ _ hpositive => hpositive
  have hend := hmade.end_lt_of_run hdata hrun
  obtain ⟨count, last, hdeposits, hresult⟩ := hmade.run_cases hdata hmoves hend
  rw [hrun] at hresult
  refine ⟨plan, tables, layout, hmade, hdata, hend, ?_⟩
  rcases hresult with ⟨hsame, hcount, -⟩ | ⟨⟨error, hfailed⟩, -⟩
  · obtain ⟨-, rfl⟩ := Prod.mk.inj hsame
    change Region.Deposits _ _ ((publishing start (hmade.parts time).bytes).take count) at hdeposits
    rw [hcount, ← length_publishing start (hmade.parts time).bytes, List.take_length] at hdeposits
    rw [hdeposits.content_eq]
    exact putAll_publishing start _ (hmade.parts time).bytes_ne_nil
  · exact nomatch (Prod.mk.inj hfailed).1

/-- An image that is finalized in memory consists of parts that depend on the tree, the block size,
the options and the time alone, and that lie in order, without gaps and up to the alignment, where
the superblock says.  Every byte of it is written once, and no other byte is written: what was there
before the window and after the image stays, and a gap before the window is filled with zeros. -/
theorem footprint_of_finalize {prior : Bytes} {start size : Nat} {clock : NodeId → UInt32}
    (hcreate : create (Storage.ofBytes prior) start size blockSize clock = .ok builder)
    (edits : List Edit)
    (hfinalize : (finalize codecs time options).run (builder.editAll edits) = (.ok (), last)) :
    let tree := (builder.editAll edits).tree
    ∃ codec parts, options.algorithm.codec codecs = .ok codec ∧
      Parts.ofTree codec blockSize time tree options = .ok parts ∧ parts.Tiles ∧
      Superblock.parse parts.header.toBytes = .ok parts.header ∧
      let script := imageScript codec blockSize time tree options
      script.run (builder.editAll edits).region = (.ok (), last.region) ∧
      (∀ address, ((Region.streamOf start script.writes).map Prod.fst).count address =
        if start ≤ address ∧ address < start + parts.bytes.length then 1 else 0) ∧
      last.region.storage.content.toList =
        (prior ++ List.replicate (start - prior.length) 0).take start ++ parts.bytes ++
          prior.drop (start + parts.bytes.length) := by
  intro tree
  obtain ⟨hblockSize, hstages⟩ := stages_of_create hcreate edits
  obtain ⟨codec, hcodec, hrun⟩ := hstages.finalize_eq_ok hfinalize
  obtain ⟨plan, tables, layout, hmade, hdata, hend, hcontent⟩ :=
    exists_parts_of_run hblockSize hrun
  have htiles := hmade.tiles hdata (Nat.lt_of_le_of_lt (Nat.le_add_left _ _) hend)
  refine ⟨codec, hmade.parts time, hcodec, hmade.ofTree_eq time, htiles,
    hmade.parse_header hstages.wellFormed hblockSize htiles, ?_, ?_, ?_⟩
  · rw [hstages.region_eq]
    exact hrun
  · intro address
    rw [hmade.streamOf_script hdata, count_publishing]
  · rw [hcontent]
    exact Buffer.toList_overwrite_eq ..

/-- The image of the sample tree lies behind the bytes that were there before, and zeros. -/
theorem footprint_sample :
    ∃ last, ∃ parts : Parts,
      (finalize Codecs.machine 9 sampleOptions).run (sampleBuilder.editAll sampleEdits) =
          (.ok (), last) ∧
        parts.Tiles ∧ last.region.storage.content.toList = [9, 9, 0, 0, 0] ++ parts.bytes := by
  obtain ⟨last, hrun⟩ := finalize_sample
  obtain ⟨codec, parts, -, -, htiles, -, -, -, hcontent⟩ :=
    footprint_of_finalize create_sample sampleEdits hrun
  have hpast : ([9, 9] : Bytes).length ≤ 5 + parts.bytes.length :=
    Nat.le_add_right_of_le (by decide)
  refine ⟨last, parts, hrun, htiles, ?_⟩
  rw [hcontent, List.drop_of_length_le hpast, List.append_nil]
  rfl

/-- What finalizing leaves in the window of a storage that may fail: a prefix of the image. -/
structure Publishes (storage : Storage) (start size : Nat) (image : Bytes)
    (result : Except Error Unit) (last : Storage) : Prop where
  /-- It ends well if the window and the storage have room for the image. -/
  ok_iff : result = .ok () ↔ (size = 0 ∨ image.length ≤ size) ∧
    ∀ budget, storage.budget = some budget → image.length ≤ budget
  /-- It fails only with an error of the storage. -/
  io : ∀ error, result = .error error → ∃ cause, error = .io cause
  /-- The bytes that were put down are the first ones, in the order that ends with the
  superblock. -/
  written : ∃ count, count ≤ image.length ∧ (count = image.length ↔ result = .ok ()) ∧
    last.budget = storage.budget.map (· - count) ∧
    last.content = storage.content.putAll ((publishing start image).take count)
  /-- Nothing is put in the place of the superblock unless the rest of the image is in place. -/
  header : (∀ i, start ≤ i → i < start + superblockSize → i < storage.size →
      last.content.toList[i]? = storage.content.toList[i]?) ∨
    ∀ i, superblockSize ≤ i → i < image.length → last.content.toList[start + i]? = image[i]?
  /-- What is stored outside the window stays. -/
  outside : ∀ i < storage.size,
    i < start ∨ start + image.length ≤ i ∨ size ≠ 0 ∧ start + size ≤ i →
      last.content.toList[i]? = storage.content.toList[i]?

/-- Whatever part of an image was put down, the bytes around it are kept. -/
theorem publishes_of_deposits {storage : Storage} {start size count : Nat} {image : Bytes}
    {result : Except Error Unit} {last : Region}
    (hdeposits : (Region.ofStorage storage start size).Deposits last
      ((publishing start image).take count))
    (hcount : count ≤ image.length) (hdone : count = image.length ↔ result = .ok ())
    (hok : result = .ok () ↔ (size = 0 ∨ image.length ≤ size) ∧
      ∀ budget, storage.budget = some budget → image.length ≤ budget)
    (hio : ∀ error, result = .error error → ∃ cause, error = .io cause) :
    Publishes storage start size image result last.storage := by
  have hcontent : last.storage.content =
      storage.content.putAll ((publishing start image).take count) := hdeposits.content_eq
  have htaken : ((publishing start image).take count).length = count :=
    List.length_take_of_le (by rw [length_publishing]; exact hcount)
  refine ⟨hok, hio, ⟨count, hcount, hdone, ?_, hcontent⟩, ?_, ?_⟩
  · have hbudget := hdeposits.budget_eq
    rwa [htaken] at hbudget
  · rw [hcontent]
    exact header_or_rest storage.content count
  · intro i hheld haway
    rw [hcontent]
    refine Buffer.getElem?_putAll hheld fun hmem => ?_
    obtain ⟨put, hput, rfl⟩ := List.mem_map.mp hmem
    have himage := mem_publishing (List.mem_of_mem_take hput)
    rcases haway with hbefore | hafter | ⟨hsize, hpast⟩
    · omega
    · omega
    · have hinside := hdeposits.inside size (if_neg hsize) put hput
      change put.1 < start + size at hinside
      omega

theorem fits_ofStorage_iff (storage : Storage) (start size : Nat) (image : Bytes) :
    (Region.ofStorage storage start size).Fits (0, image) ↔ size = 0 ∨ image.length ≤ size := by
  unfold Region.Fits Region.ofStorage
  dsimp only
  rw [Nat.zero_add]
  by_cases hsize : size = 0
  · rw [if_pos hsize]
    exact iff_of_true nofun (.inl hsize)
  · rw [if_neg hsize, or_iff_right hsize]
    exact ⟨fun hfits => hfits size rfl, fun hle _ hsame => Option.some.inj hsame ▸ hle⟩

theorem publishes_of_isMade {storage : Storage} {start : Nat} (size : Nat) {plan : Plan}
    {tables : Tables} {layout : Layout} {storing : Storing}
    (hmade : IsMade codec blockSize tree options plan tables layout)
    (hdata : DataArea.Consistent storing plan.contents.area) (hmoves : storage.Moves)
    (hend : start + (hmade.parts time).bytes.length < addressSpace) :
    ∃ result last,
      (imageScript codec blockSize time tree options).run (Region.ofStorage storage start size) =
        (result, last) ∧
      Publishes storage start size (hmade.parts time).bytes result last.storage := by
  obtain ⟨count, last, hdeposits, hresult⟩ := hmade.run_cases hdata
    (show (Region.ofStorage storage start size).storage.Moves from hmoves) hend
  change Region.Deposits _ _ ((publishing start (hmade.parts time).bytes).take count) at hdeposits
  rw [fits_ofStorage_iff] at hresult
  rcases hresult with ⟨hrun, hcount, hfits⟩ | ⟨⟨error, hrun⟩, hcount, hreason⟩
  · refine ⟨.ok (), last, hrun, publishes_of_deposits hdeposits (Nat.le_of_eq hcount)
      (iff_of_true hcount rfl) (iff_of_true rfl ⟨hfits, ?_⟩) nofun⟩
    intro budget hbudget
    have hle := hdeposits.length_le budget hbudget
    have hall : count ≤ (publishing start (hmade.parts time).bytes).length :=
      Nat.le_of_eq (by rw [length_publishing, hcount])
    rw [List.length_take_of_le hall, hcount] at hle
    exact hle
  · refine ⟨.error (.io error), last, hrun, publishes_of_deposits hdeposits (Nat.le_of_lt hcount)
      (iff_of_false (Nat.ne_of_lt hcount) nofun) (iff_of_false nofun ?_) ?_⟩
    · rintro ⟨hroom, haccepts⟩
      rcases hreason with hout | hbudget
      · exact hout hroom
      · exact Nat.not_le_of_lt hcount (haccepts count hbudget)
    · rintro _ ⟨⟩
      exact ⟨error, rfl⟩

/-- If an image can be finalized in an empty memory, finalizing it in a window of any storage, each
call to which moves something, ends well exactly if the window and the storage have room for it.
Otherwise it fails with an error of the storage, the builder is failed and has its tree, and a
prefix of the image was put down, in which the superblock comes last. -/
theorem publishes_of_finalize {storage : Storage} {start size : Nat} {clock : NodeId → UInt32}
    {complete : Builder} (hmoves : storage.Moves)
    (hcreate : create storage start size blockSize clock = .ok builder) (edits : List Edit)
    (hcomplete : (finalize codecs time options).run
      { builder.editAll edits with region := Region.ofStorage (Storage.ofBytes []) start 0 } =
        (.ok (), complete)) :
    ∃ result last, (finalize codecs time options).run (builder.editAll edits) = (result, last) ∧
      last.stage = (if result = .ok () then .finalized else .failed) ∧
      last.tree = (builder.editAll edits).tree ∧
      Publishes storage start size (complete.region.storage.content.toList.drop start) result
        last.region.storage := by
  obtain ⟨hblockSize, hstages⟩ := stages_of_create hcreate edits
  have hempty : Stages
      { builder.editAll edits with region := Region.ofStorage (Storage.ofBytes []) start 0 }
      (Region.ofStorage (Storage.ofBytes []) start 0) blockSize :=
    ⟨rfl, hstages.blockSize_eq, hstages.stage_eq, hstages.wellFormed⟩
  obtain ⟨codec, hcodec, hrun⟩ := hempty.finalize_eq_ok hcomplete
  obtain ⟨plan, tables, layout, hmade, hdata, hend, hcontent⟩ :=
    exists_parts_of_run hblockSize hrun
  have himage : complete.region.storage.content.toList.drop start =
      (hmade.parts time).bytes := by
    have hgap : (([] : Bytes) ++ List.replicate start 0).take start = List.replicate start 0 := by
      rw [List.nil_append, List.take_of_length_le (Nat.le_of_eq List.length_replicate)]
    rw [hcontent, Buffer.toList_overwrite_eq]
    change ((([] : Bytes) ++ List.replicate start 0).take start ++ (hmade.parts time).bytes ++
      ([] : Bytes).drop _).drop start = _
    rw [hgap, List.drop_nil, List.append_nil, List.drop_left' List.length_replicate]
  rw [himage]
  obtain ⟨result, written, hwritten, hpublishes⟩ :=
    publishes_of_isMade size hmade hdata hmoves hend
  rw [← hstages.region_eq, ← hstages.blockSize_eq] at hwritten
  obtain ⟨reached, -, hfinalize⟩ := exists_finalize_eq hstages.stage_eq hcodec hwritten
  refine ⟨result, _, hfinalize, ?_, rfl, hpublishes⟩
  rcases result with error | ⟨⟩
  · obtain ⟨cause, rfl⟩ := hpublishes.io error rfl
    exact (if_neg nofun).symm
  · exact (if_pos rfl).symm

/-- A storage that moves at most seven bytes in one call and accepts two hundred in all. -/
def limitedStorage : Storage :=
  { content := #[9, 9], grant := fun _ count => min count 7, budget := some 200 }

def limitedBuilder : Builder :=
  ⟨Region.ofStorage limitedStorage 5 0, 4096, Tree.new UInt32.ofNat, .staging⟩

/-- The image of the sample tree does not fit there: finalizing fails, and what lies before the
window stays. -/
theorem publishes_sample :
    ∃ error last,
      (finalize Codecs.machine 9 sampleOptions).run (limitedBuilder.editAll sampleEdits) =
        (.error (.io error), last) ∧
      last.stage = .failed ∧ last.region.storage.content.toList[1]? = some 9 := by
  have hmoves : limitedStorage.Moves := by
    intro address count hpositive
    change 0 < min count 7
    omega
  let memory := Region.ofStorage (Storage.ofBytes []) 5 0
  rcases hrun : (finalize Codecs.machine 9 sampleOptions).run
      { limitedBuilder.editAll sampleEdits with region := memory } with ⟨done, complete⟩
  have hdone : ((finalize Codecs.machine 9 sampleOptions).run
      { limitedBuilder.editAll sampleEdits with region := memory }).1.toOption = some () := by
    decide +kernel
  rw [hrun] at hdone
  obtain rfl : done = .ok () := Except.eq_ok_of_toOption hdone
  have hcreate : create limitedStorage 5 0 4096 UInt32.ofNat = .ok limitedBuilder := rfl
  obtain ⟨result, last, hfinalize, hstage, -, hpublishes⟩ :=
    publishes_of_finalize hmoves hcreate sampleEdits hrun
  have hfails : ((finalize Codecs.machine 9 sampleOptions).run
      (limitedBuilder.editAll sampleEdits)).1.toOption = none := by
    decide +kernel
  rw [hfinalize] at hfails
  rcases result with error | ⟨⟩
  · obtain ⟨cause, rfl⟩ := hpublishes.io error rfl
    refine ⟨cause, last, hfinalize, ?_,
      hpublishes.outside 1 (by decide) (.inl (by decide))⟩
    rw [hstage, if_neg nofun]
  · cases hfails

end Builder

end TreeImage
