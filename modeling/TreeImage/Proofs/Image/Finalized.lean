import TreeImage.Proofs.Build.Builder
import TreeImage.Proofs.Image.Carried

namespace TreeImage

open Build Format Staging

namespace Build

/-- The bytes of the listing of a node in the image of a tree, if there is such an image. -/
def listingBytes (codec : Codec) (blockSize : UInt32) (tree : Tree) (options : Options)
    (id : NodeId) : Bytes :=
  let listing : Except Error Bytes := do
    let plan ← (Plan.ofTree codec blockSize tree options).outcome
    let tables ← Tables.ofPlan codec plan
    return Listing.encode (Tables.listing plan tables.refs id)
  listing.toOption.getD []

variable {codec : Codec} {blockSize time : UInt32} {tree : Tree} {options : Options}
  {plan : Plan} {tables : Tables} {layout : Layout}

theorem length_listingBytes_le (codec : Codec) (blockSize : UInt32) (tree : Tree)
    (options : Options) (id : NodeId) :
    (listingBytes codec blockSize tree options id).length ≤
      ((tree.children id).map fun entry => 20 + (Text.utf8 entry.1).length).sum := by
  unfold listingBytes
  cases hplan : (Plan.ofTree codec blockSize tree options).outcome with
  | error error => exact Nat.zero_le _
  | ok plan =>
      cases htables : Tables.ofPlan codec plan with
      | error error =>
          rw [Except.ok_bind, htables]
          exact Nat.zero_le _
      | ok tables =>
          obtain ⟨-, hmade, -⟩ := Plan.ofTree_eq_ok.mp (Script.eq_of_outcome hplan)
          have hle := Listing.length_encode_le (Tables.listing plan tables.refs id)
          rw [Tables.listing, List.map_map, hmade] at hle
          rw [Except.ok_bind, htables, hmade]
          exact hle

theorem IsMade.listingBytes_eq (hmade : IsMade codec blockSize tree options plan tables layout)
    (id : NodeId) :
    listingBytes codec blockSize tree options id =
      Listing.encode (Tables.listing plan tables.refs id) := by
  unfold listingBytes
  rw [hmade.plan_eq]
  dsimp only
  rw [Except.ok_bind, hmade.tables_eq]
  rfl

theorem isSized_of_isBlockSize (hblockSize : isBlockSize blockSize.toNat = true) (codec : Codec)
    (options : Options) : Storing.IsSized ⟨codec, blockSize.toNat, options⟩ := by
  simp only [isBlockSize, Bool.and_eq_true, decide_eq_true_eq] at hblockSize
  unfold minBlockSize maxBlockSize at hblockSize
  refine ⟨?_, ?_⟩
  · dsimp only
    omega
  · unfold dataRaw
    dsimp only
    omega

theorem IsMade.exists_records (hmade : IsMade codec blockSize tree options plan tables layout)
    (htree : tree.WellFormed) (hblockSize : isBlockSize blockSize.toNat = true)
    (hnodes : tree.size < 2 ^ 32 - 1)
    (hlistings : ∀ id < tree.size,
      (listingBytes codec blockSize tree options id).length < 2 ^ 32 - 3) :
    ∃ inodes listings, Records codec blockSize plan tables inodes listings := by
  have hsized := isSized_of_isBlockSize hblockSize codec options
  obtain ⟨hplaced, htails⟩ := hmade.holds hsized
  obtain ⟨rfl, rfl⟩ := hmade.tree_eq
  have hnumbering := hmade.numbering_eq
  have horder : plan.numbering.order = postOrder plan.tree := congrArg Numbering.order hnumbering
  obtain ⟨inodes, listings, hholds⟩ :=
    Tables.exists_holds_of_ofPlan htree hnumbering hmade.tables_eq
  have hroot := root_mem_postOrder htree
  obtain ⟨inode, hdescribes, hrecord⟩ :=
    hholds.described Staging.root hroot _ (Array.getElem?_eq_getElem htree.root_lt)
  have hids : tables.ids.values.toList ≠ [] := by
    intro hnil
    have hindex := (Array.getElem?_eq_some_iff.mp hdescribes.uid).1
    rw [← Array.length_toList, hnil] at hindex
    cases hindex
  have hcount := hplaced.count_le
  rw [DataArea.fragmentCount, htails] at hcount
  rw [← horder] at hroot hholds hplaced hcount
  refine ⟨inodes, listings, htree, horder, hsized, ⟨?_, ?_, ?_, hholds.ids_valid.size_le, hids,
    hrecord.offset_lt⟩, hholds, hplaced, htails, ?_⟩
  · rw [horder]
    exact Nat.lt_of_le_of_lt (length_postOrder_le htree) hnodes
  · exact List.ne_nil_of_mem hroot
  · exact Nat.le_trans (Nat.le_add_right _ _) hcount
  · intro id
    rw [← hmade.listingBytes_eq]
    rcases Nat.lt_or_ge id plan.tree.size with hid | hid
    · exact hlistings id hid
    · have hnone : plan.tree.children id = [] := Tree.children_eq_nil fun hdirectory =>
        Nat.not_lt_of_le hid (Tree.lt_size_of_isDirectory hdirectory)
      have hnil : Tables.listing plan tables.refs id = [] := List.map_eq_nil_iff.mpr hnone
      rw [hmade.listingBytes_eq, hnil, Listing.encode_nil]
      decide

theorem IsWritten.reopen {region : Region}
    (hwritten : IsWritten codec blockSize time plan tables layout region) :
    IsWritten codec blockSize time plan tables layout
      ⟨region.storage, region.start, none⟩ := by
  have hstores : ∀ {offset bytes}, region.Stores offset bytes →
      Region.Stores ⟨region.storage, region.start, none⟩ offset bytes :=
    fun h => ⟨h.isPrefix, h.end_lt⟩
  obtain ⟨hdata, ⟨hinodes, hdirectories, hfragments, hexports, hids⟩, hheader⟩ := hwritten
  exact ⟨hstores hdata, ⟨hstores hinodes, hstores hdirectories, hstores hfragments,
    fun exports hsome => hstores (hexports exports hsome), hstores hids⟩, hstores hheader⟩

end Build

namespace Builder

theorem exists_image_of_finalize {codecs : Codecs} (hcodecs : codecs.All Codec.IsFaithful)
    {prior : Bytes} {start size : Nat} {blockSize time : UInt32} {clock : NodeId → UInt32}
    {options : Options} {builder last : Builder} {codec : Codec}
    (hcodec : options.algorithm.codec codecs = .ok codec)
    (hcreate : create (Storage.ofBytes prior) start size blockSize clock = .ok builder)
    (edits : List Edit)
    (hfinalize : (finalize codecs time options).run (builder.editAll edits) = (.ok (), last))
    (hnodes : (builder.editAll edits).tree.size < 2 ^ 32 - 1)
    (hlistings : ∀ id < (builder.editAll edits).tree.size,
      (listingBytes codec blockSize (builder.editAll edits).tree options id).length <
        2 ^ 32 - 3) :
    ∃ plan tables layout image inodes listings,
      IsMade codec blockSize (builder.editAll edits).tree options plan tables layout ∧
        Image.ofRegion codecs (Region.ofStorage last.region.storage start 0) = .ok image ∧
        image.Carries codec blockSize plan tables inodes listings ∧
        Records codec blockSize plan tables inodes listings := by
  obtain ⟨hblockSize, hstages⟩ := stages_of_create hcreate edits
  obtain ⟨found, hfound, hrun⟩ := hstages.finalize_eq_ok hfinalize
  obtain rfl : codec = found := Except.ok.inj (hcodec.symm.trans hfound)
  have hfaithful := hcodecs _ _ hcodec
  have halgorithm : codec.algorithm.codec codecs = .ok codec := by
    rwa [Algorithm.algorithm_of_codec hcodec]
  obtain ⟨hgrant, hstart, plan, tables, layout, hmade, hwritten⟩ := exists_isWritten_of_run
    (isSized_of_isBlockSize hblockSize codec options)
    (show (Storage.ofBytes prior).Moves from fun _ _ hcount => hcount) hrun
  obtain ⟨inodes, listings, hrecords⟩ :=
    hmade.exists_records hstages.wellFormed hblockSize hnodes hlistings
  have hreopened := hwritten.reopen
  rw [hstart] at hreopened
  obtain ⟨image, hopened, hcarries⟩ := Image.exists_carries_of_isWritten hreopened
    hmade.isMadeOf hrecords.fit ⟨fun _ _ => congrFun₂ hgrant _ _, rfl⟩ hfaithful halgorithm
    hblockSize hrecords.placed.consistent hrecords.holds.wrote_inodes hrecords.holds.wrote_listings
  exact ⟨plan, tables, layout, image, inodes, listings, hmade, hopened, hcarries, hrecords⟩

end Builder

end TreeImage
