import TreeImage.Proofs.Format.InodeForm
import TreeImage.Proofs.Image.Basic
import TreeImage.Proofs.Image.Written

namespace TreeImage

open Build Format Staging

namespace Build

variable {codec : Codec} {blockSize time : UInt32} {tree : Tree} {options : Options}

/-- What is written for a tree: the tables, with the streams of the inodes and of the listings, and
the contents of the files. -/
structure Records (codec : Codec) (blockSize : UInt32) (plan : Plan) (tables : Tables)
    (inodes listings : Bytes) : Prop where
  wellFormed : plan.tree.WellFormed
  order_eq : plan.numbering.order = postOrder plan.tree
  storing : Storing.IsSized ⟨codec, blockSize.toNat, plan.options⟩
  fit : tables.Fit plan
  holds : Tables.Holds plan codec (!plan.options.rawInodes) plan.numbering.order tables inodes
    listings
  placed : Contents.Holds ⟨codec, blockSize.toNat, plan.options⟩ plan.tree plan.numbering.order
    plan.contents
  tails : plan.contents.area.tails = #[]
  listings_lt : ∀ id, (Listing.encode (Tables.listing plan tables.refs id)).length < 2 ^ 32 - 3

variable {plan : Plan} {tables : Tables} {inodes listings : Bytes}

/-- A tail that is placed is in a fragment block that is stored, whose index is a word and not the
one that stands for no fragment. -/
theorem Records.fragment (hrecords : Records codec blockSize plan tables inodes listings)
    {ref : TailRef} {tail : Bytes} (hne : tail ≠ [])
    (htail : DataArea.HasTail ⟨codec, blockSize.toNat, plan.options⟩ plan.contents.area ref tail) :
    ref.fragment.toNat < plan.contents.area.fragments.size ∧
      (ref.fragment != noFragment) = true ∧
      ∃ before block, before.length = ref.offset.toNat ∧ before ++ tail <+: block ∧
        DataArea.HasFragment ⟨codec, blockSize.toNat, plan.options⟩ plan.contents.area
          ref.fragment.toNat block := by
  obtain ⟨-, index, before, hword, hbefore, ⟨block, hprefix, hfragment⟩ | ⟨-, hbegun⟩⟩ := htail
  · obtain ⟨start, word, hentry, -⟩ := id hfragment
    have hindex := (Array.getElem?_eq_some_iff.mp hentry).1
    have hfragments := hrecords.fit.fragments_le
    have hnodes := hrecords.fit.nodes_lt
    have htoNat : ref.fragment.toNat = index := by
      rw [hword]
      exact UInt32.toNat_ofNat_of_lt' (by unfold UInt32.size; omega)
    refine ⟨by rwa [htoNat], ?_, before, block, hbefore, hprefix, by rwa [htoNat]⟩
    rw [bne_iff_ne]
    intro hequal
    rw [hequal] at htoNat
    change 2 ^ 32 - 1 = index at htoNat
    omega
  · rw [hrecords.tails] at hbegun
    exact absurd (List.append_eq_nil_iff.mp (List.prefix_nil.mp hbegun)).2 hne

theorem Records.toNat_size (hrecords : Records codec blockSize plan tables inodes listings)
    {id : NodeId} {data : Buffer} {attributes : Attributes}
    (hfile : plan.tree.node? id = some ⟨.file data, attributes⟩) :
    (UInt64.ofNat data.size).toNat = data.size := by
  have hle := hrecords.wellFormed.file_le hfile
  unfold maxFileSize at hle
  rw [UInt64.toNat_ofNat']
  omega

theorem Records.toNat_listingSize (hrecords : Records codec blockSize plan tables inodes listings)
    (id : NodeId) :
    (UInt32.ofNat (Listing.encode (Tables.listing plan tables.refs id)).length +
        UInt32.ofNat listingBias).toNat =
      (Listing.encode (Tables.listing plan tables.refs id)).length + listingBias := by
  have hlt := hrecords.listings_lt id
  rw [UInt32.toNat_add, UInt32.toNat_ofNat', UInt32.toNat_ofNat']
  unfold listingBias
  omega

theorem Records.isStorable_fileBody
    (hrecords : Records codec blockSize plan tables inodes listings) {id : NodeId} {data : Buffer}
    {attributes : Attributes} (hid : id ∈ plan.numbering.order)
    (hfile : plan.tree.node? id = some ⟨.file data, attributes⟩) :
    InodeBody.IsStorable blockSize.toNat
      (.file (Tables.fileBody data (plan.contents.placement id))) := by
  have hpositive : 0 < blockSize.toNat := hrecords.storing.blockSize_pos
  have hsize : (UInt64.ofNat data.size).toNat = data.toList.length :=
    (hrecords.toNat_size hfile).trans Array.length_toList.symm
  obtain ⟨blocks, hblocks, -, hcut⟩ := hrecords.placed.placed id hid data attributes hfile
  have hwords := hblocks.length_eq
  have hcount := length_blocksOf (Nat.ne_of_gt hpositive) data.toList
  have hflatten := congrArg List.length (flatten_blocksOf (Nat.ne_of_gt hpositive) data.toList)
  generalize plan.contents.placement id = placement at *
  change wordCount (UInt64.ofNat data.size).toNat blockSize.toNat _ =
    .ok placement.blockSizes.toList.length
  rw [wordCount, if_neg (Nat.ne_of_gt hpositive), hsize, hwords, blockCount, FileBody.hasFragment]
  rcases hcut with ⟨hnone, hcut⟩ | ⟨ref, tail, hsome, hne, hlt, hfull, hcut, htail⟩
  · rw [Tables.fileBody, hnone, if_neg (by simp), ← hcut, hcount]
  · obtain ⟨-, hfragment, -⟩ := hrecords.fragment hne htail
    rw [Tables.fileBody, hsome, if_pos hfragment]
    dsimp only at hlt hfull hcut
    rw [hcut, List.flatten_append, List.length_append, length_flatten_of_length hfull,
      List.flatten_singleton] at hflatten
    rw [← hflatten, Nat.mul_comm, Nat.mul_add_div hpositive, Nat.div_eq_of_lt hlt, Nat.add_zero]

theorem Records.exists_inode (hrecords : Records codec blockSize plan tables inodes listings)
    {id : NodeId} {node : Node} (hid : id ∈ plan.numbering.order)
    (hnode : plan.tree.node? id = some node) :
    ∃ inode, Tables.Describes plan codec (!plan.options.rawInodes) tables listings id node inode ∧
      Table.HasRecord codec (!plan.options.rawInodes) inodes (Tables.ref tables.refs id)
        inode.encode ∧
      inode.body.IsStorable blockSize.toNat := by
  obtain ⟨inode, hdescribes, hrecord⟩ := hrecords.holds.described id hid node hnode
  refine ⟨inode, hdescribes, hrecord, ?_⟩
  obtain ⟨content, attributes⟩ := node
  cases content with
  | directory entries =>
      obtain ⟨body, hbody, -⟩ := hdescribes.directory entries rfl
      rw [hbody]
      exact trivial
  | file data =>
      rw [hdescribes.file data rfl]
      exact hrecords.isStorable_fileBody hid hnode
  | symlink target =>
      obtain ⟨body, hbody, htarget⟩ := hdescribes.symlink target rfl
      rw [hbody]
      change body.target.length ≤ maxLinkTarget
      rw [htarget, Text.length_utf8]
      exact (hrecords.wellFormed.target_size hnode).2

theorem Records.isStorable_of_mem_listing
    (hrecords : Records codec blockSize plan tables inodes listings) {id : NodeId}
    (hid : id ∈ plan.numbering.order) {entry : ListingEntry}
    (hmem : entry ∈ Tables.listing plan tables.refs id) : entry.IsStorable := by
  obtain ⟨⟨name, child⟩, hchildren, rfl⟩ := List.mem_map.mp hmem
  have hchild := Tree.mem_children.mp hchildren
  have hname := hrecords.wellFormed.name_storable hchild
  have hlength := hname.length_le
  have hlt := (hrecords.wellFormed.child_lt hchild).2
  rw [hrecords.order_eq] at hid
  have hmem := mem_postOrder_of_child hrecords.wellFormed hid hchild
  rw [← hrecords.order_eq] at hmem
  obtain ⟨inode, -, hrecord, -⟩ := hrecords.exists_inode hmem (Array.getElem?_eq_getElem hlt)
  refine ⟨hname.valid, ?_, hrecord.offset_lt⟩
  unfold maxNameLength at hlength
  dsimp only
  omega

end Build

namespace Image

variable {image : Image} {codec : Codec} {blockSize : UInt32} {plan : Plan} {tables : Tables}
  {inodes listings : Bytes} (hcarries : image.Carries codec blockSize plan tables inodes listings)
  (hrecords : Records codec blockSize plan tables inodes listings)
include hcarries hrecords

theorem Carries.readInode {id : NodeId} {node : Node} (hid : id ∈ plan.numbering.order)
    (hnode : plan.tree.node? id = some node) :
    ∃ inode, image.readInode (Tables.ref tables.refs id) = .ok inode ∧
      Tables.Describes plan codec (!plan.options.rawInodes) tables listings id node inode := by
  obtain ⟨inode, hdescribes, hrecord, hstorable⟩ := hrecords.exists_inode hid hnode
  refine ⟨inode, ?_, hdescribes⟩
  rw [← hcarries.codec_eq] at hrecord
  rw [← hcarries.blockSize_eq] at hstorable
  obtain ⟨cursor, rest, hcursor, hstands⟩ := hcarries.inodes.cursor hrecord inode.encode_ne_nil
  obtain ⟨last, hdecode, -⟩ := Inode.decode_reads hstorable cursor rest hstands
  rw [Image.readInode, hcursor, Except.ok_bind, hdecode]
  rfl

theorem Carries.readListing {id : NodeId} {node : Node} {inode : Inode}
    (hid : id ∈ plan.numbering.order)
    (hdescribes : Tables.Describes plan codec (!plan.options.rawInodes) tables listings id node
      inode) {entries : Std.TreeMap String NodeId} (hcontent : node.content = .directory entries) :
    ∃ body, inode.body = .directory body ∧
      image.readListing body = .ok (Tables.listing plan tables.refs id) ∧
      body.fileSize.toNat =
        (Listing.encode (Tables.listing plan tables.refs id)).length + listingBias := by
  obtain ⟨body, hbody, hsize, hrecord⟩ := hdescribes.directory entries hcontent
  have hlength : body.fileSize.toNat =
      (Listing.encode (Tables.listing plan tables.refs id)).length + listingBias := by
    rw [hsize]
    exact hrecords.toNat_listingSize id
  refine ⟨body, hbody, ?_, hlength⟩
  have hstorable : ∀ entry ∈ Tables.listing plan tables.refs id, entry.IsStorable :=
    fun _ hmem => hrecords.isStorable_of_mem_listing hid hmem
  generalize Tables.listing plan tables.refs id = entries at *
  rw [readListing_eq_ok, hlength]
  by_cases hnil : entries = []
  · rw [hnil, Listing.encode_nil]
    exact Or.inl ⟨rfl, rfl⟩
  · have hne := Listing.encode_ne_nil hnil
    have hpositive := List.length_pos_iff.mpr hne
    rw [← hcarries.codec_eq] at hrecord
    obtain ⟨cursor, rest, hcursor, hstands⟩ := hcarries.listings.cursor hrecord hne
    obtain ⟨last, htake, -⟩ := (RecordTable.front _ _).take_of_stands hstands
    refine Or.inr ⟨cursor, _, last, by omega, hcursor, ?_,
      Listing.decode_encode_of_storable hstorable⟩
    rw [Nat.add_sub_cancel]
    exact htake

end Image

end TreeImage
