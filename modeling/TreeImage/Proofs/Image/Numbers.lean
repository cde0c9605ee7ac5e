import TreeImage.Proofs.Build.InodeNumbers
import TreeImage.Proofs.Image.RoundTrip

namespace TreeImage

open Build Format Staging

namespace Build

variable {codec : Codec} {blockSize : UInt32} {plan : Plan} {tables : Tables}
  {inodes listings : Bytes}

theorem Records.mem_order_iff (hrecords : Records codec blockSize plan tables inodes listings)
    {id : NodeId} : id ∈ plan.numbering.order ↔ id < plan.tree.size := by
  rw [hrecords.order_eq]
  exact mem_postOrder_iff hrecords.wellFormed

theorem Records.length_order (hrecords : Records codec blockSize plan tables inodes listings) :
    plan.numbering.order.length = plan.tree.size := by
  rw [hrecords.order_eq]
  exact length_postOrder hrecords.wellFormed

theorem Records.size_lt (hrecords : Records codec blockSize plan tables inodes listings) :
    plan.tree.size < 2 ^ 32 - 1 := hrecords.length_order ▸ hrecords.fit.nodes_lt

end Build

namespace Image

/-- Whether the body of a directory's inode agrees with the numbers of the nodes of a tree: it
counts its links, names its parent, and lists its entries under the numbers of their inodes. -/
structure NumbersEntries (image : Image) (tree : Tree) (number : NodeId → UInt32) (id : NodeId)
    (body : DirectoryBody) : Prop where
  linkCount_eq : body.linkCount.toNat =
    2 + (tree.children id).countP fun entry => tree.isDirectory entry.2
  parent_eq : ∀ parent name, tree.child? parent name = some id → body.parentInode = number parent
  parent_root : id = Staging.root → body.parentInode.toNat = tree.size + 1
  entries : ∃ listing, image.readListing body = .ok listing ∧
    ∀ name child, tree.child? id name = some child → ∃ entry inode,
      listing.find? (·.name == name) = some entry ∧ entry.inodeNumber = number child ∧
        image.readInode entry.ref = .ok inode ∧
        image.inodeWithNumber entry.inodeNumber = .ok inode ∧
        inode.inodeNumber = entry.inodeNumber ∧ inode.kind = entry.kind

/-- Whether the inodes of an image are numbered as the nodes of a tree are, from one to the number
of nodes, and are found by their numbers. -/
structure Numbers (image : Image) (tree : Tree) (number : NodeId → UInt32) : Prop where
  count_eq : image.superblock.inodeCount.toNat = tree.size
  bijOn : Set.BijOn (fun id => (number id).toNat) (Set.Iio tree.size) (Set.Icc 1 tree.size)
  number_lt : ∀ x y, IsBelow tree x y → y ≠ x → (number y).toNat < (number x).toNat
  number_root : (number Staging.root).toNat = tree.size
  found : ∀ n : UInt32, n.toNat ∈ Set.Icc 1 tree.size → ∃ inode, image.inodeWithNumber n = .ok inode
  missing : ∀ n : UInt32, n.toNat ∉ Set.Icc 1 tree.size →
    ∃ text, image.inodeWithNumber n = .error (.notFound text)
  inode : ∀ id < tree.size, ∃ inode, image.inodeWithNumber (number id) = .ok inode ∧
    inode.inodeNumber = number id ∧ inode.kind = tree.kind id ∧
      (tree.isDirectory id = true → ∃ body, inode.body = .directory body ∧
        image.NumbersEntries tree number id body)
  path : ∀ path id, tree.lookup path = .ok id → ∃ metadata inode,
    image.linkMetadata path = .ok metadata ∧ metadata.inodeNumber = number id ∧
      image.resolve path false = .ok inode ∧
      image.inodeWithNumber metadata.inodeNumber = .ok inode

theorem inodeNumber_of_metadataOf {image : Image} {inode : Inode} {metadata : Metadata}
    (hmetadata : image.metadataOf inode = .ok metadata) :
    metadata.inodeNumber = inode.inodeNumber := by
  obtain ⟨uid, -, hmetadata⟩ := Except.bind_eq_ok.mp hmetadata
  obtain ⟨gid, -, hmetadata⟩ := Except.bind_eq_ok.mp hmetadata
  cases hmetadata
  rfl

variable {image : Image} {codec : Codec} {blockSize : UInt32} {plan : Plan} {tables : Tables}
  {inodes listings : Bytes}

section Carried

variable (hcarries : image.Carries codec blockSize plan tables inodes listings)
  (hrecords : Records codec blockSize plan tables inodes listings)
include hcarries hrecords

theorem Carries.inodeWithNumber (hexport : plan.options.exportTable = true)
    (hnumbering : plan.numbering = Numbering.ofTree plan.tree) {id : NodeId} {node : Node}
    (hnode : plan.tree.node? id = some node) :
    ∃ inode, image.inodeWithNumber (plan.numbering.number id) = .ok inode ∧
      image.readInode (Tables.ref tables.refs id) = .ok inode ∧
      Tables.Describes plan codec (!plan.options.rawInodes) tables listings id node inode := by
  obtain ⟨i, -, hplace, hnumber⟩ := Numbering.exists_place hrecords.wellFormed hrecords.size_lt
    (Tree.lt_size_of_node? hnode)
  rw [← hnumbering] at hnumber
  rw [← hrecords.order_eq] at hplace
  obtain ⟨inode, hread, hdescribes⟩ :=
    hcarries.readInode hrecords (List.mem_of_getElem? hplace) hnode
  refine ⟨inode, ?_, hread, hdescribes⟩
  have hnonzero : plan.numbering.number id ≠ 0 := by
    intro hzero
    rw [hzero] at hnumber
    cases hnumber
  have hslot : (plan.numbering.order.map (Tables.ref tables.refs)).toArray[
      (plan.numbering.number id).toNat - 1]? = some (Tables.ref tables.refs id) := by
    rw [hnumber, Nat.add_sub_cancel, List.getElem?_toArray, List.getElem?_map, hplace]
    rfl
  rw [Image.inodeWithNumber, hcarries.exports_eq hexport]
  simp only [if_neg hnonzero, hslot, hread, Except.ok_bind]
  exact Except.refuse_eq_ok.mpr ⟨fun hne => hne hdescribes.inodeNumber, rfl⟩

theorem Carries.inodeWithNumber_missing (hexport : plan.options.exportTable = true) {n : UInt32}
    (hn : n.toNat ∉ Set.Icc 1 plan.tree.size) :
    ∃ text, image.inodeWithNumber n = .error (.notFound text) := by
  have hlength := hrecords.length_order
  rw [Image.inodeWithNumber, hcarries.exports_eq hexport]
  have hnone : (if n = 0 then none
      else (plan.numbering.order.map (Tables.ref tables.refs)).toArray[n.toNat - 1]?) = none := by
    by_cases hzero : n = 0
    · rw [if_pos hzero]
    · have hpositive : 0 < n.toNat := Nat.pos_of_ne_zero fun h => hzero (UInt32.toNat_inj.mp h)
      have hlarge : plan.tree.size < n.toNat := by
        rw [Set.mem_Icc, not_and, Nat.not_le] at hn
        exact hn hpositive
      rw [if_neg hzero, Array.getElem?_eq_none]
      rw [List.size_toArray, List.length_map, hlength]
      omega
  simp only [hnone]
  exact ⟨_, rfl⟩

/-- The listing of a directory leads to the inodes that are found by the numbers in it. -/
theorem Carries.numbersEntries (hexport : plan.options.exportTable = true)
    (hnumbering : plan.numbering = Numbering.ofTree plan.tree) {id : NodeId} {inode : Inode}
    {entries : Std.TreeMap String NodeId} {attributes : Attributes}
    (hnode : plan.tree.node? id = some ⟨.directory entries, attributes⟩)
    (hdescribes : Tables.Describes plan codec (!plan.options.rawInodes) tables listings id
      ⟨.directory entries, attributes⟩ inode) :
    ∃ body, inode.body = .directory body ∧
      image.NumbersEntries plan.tree plan.numbering.number id body := by
  have htree := hrecords.wellFormed
  have hnodes := hrecords.size_lt
  have hid := hrecords.mem_order_iff.mpr (Tree.lt_size_of_node? hnode)
  obtain ⟨body, hbody, hlisting, -⟩ := hcarries.readListing hrecords hid hdescribes rfl
  obtain ⟨hlinks, hparent⟩ := hdescribes.links body hbody
  refine ⟨body, hbody, ?_, ?_, ?_, _, hlisting, ?_⟩
  · rw [hlinks]
    exact toNat_directoryLinks htree hnodes id
  · intro parent name hchild
    rw [hparent, hnumbering]
    exact Numbering.parentNumber_of_child htree hchild
  · rintro rfl
    rw [hparent, hnumbering]
    exact Numbering.toNat_parentNumber_root htree hnodes
  · intro name child hchild
    have hchildNode := Array.getElem?_eq_getElem (htree.child_lt hchild).2
    obtain ⟨found, hfound, hread, hchildDescribes⟩ :=
      hcarries.inodeWithNumber hrecords hexport hnumbering hchildNode
    refine ⟨_, found, find?_listing hchild, rfl, hread, hfound, hchildDescribes.inodeNumber, ?_⟩
    exact hchildDescribes.kind_eq.trans (Tree.kind_of_node? hchildNode).symm

theorem Carries.numbers (hexport : plan.options.exportTable = true)
    (hnumbering : plan.numbering = Numbering.ofTree plan.tree) :
    image.Numbers plan.tree plan.numbering.number := by
  have htree := hrecords.wellFormed
  have hnodes := hrecords.size_lt
  have hbijOn := Numbering.bijOn_number htree hnodes
  rw [← hnumbering] at hbijOn
  refine ⟨?_, hbijOn, ?_, ?_, ?_, ?_, ?_, ?_⟩
  · rw [hcarries.count_eq, hrecords.length_order]
  · rw [hnumbering]
    exact fun x y hbelow hne => Numbering.number_lt_of_isBelow htree hnodes hbelow hne
  · rw [hnumbering]
    exact Numbering.number_root htree hnodes
  · intro n hn
    obtain ⟨id, hid, hnumber⟩ := hbijOn.surjOn hn
    obtain ⟨inode, hfound, -⟩ := hcarries.inodeWithNumber hrecords hexport hnumbering
      (Array.getElem?_eq_getElem (Set.mem_Iio.mp hid))
    exact ⟨inode, UInt32.toNat_inj.mp hnumber ▸ hfound⟩
  · exact fun n hn => hcarries.inodeWithNumber_missing hrecords hexport hn
  · intro id hid
    have hnode := Array.getElem?_eq_getElem hid
    obtain ⟨inode, hfound, -, hdescribes⟩ :=
      hcarries.inodeWithNumber hrecords hexport hnumbering hnode
    refine ⟨inode, hfound, hdescribes.inodeNumber,
      hdescribes.kind_eq.trans (Tree.kind_of_node? hnode).symm, ?_⟩
    intro hdirectory
    obtain ⟨entries, attributes, hentries⟩ := Tree.isDirectory_iff.mp hdirectory
    rw [Option.some.inj (hnode.symm.trans hentries)] at hdescribes
    exact hcarries.numbersEntries hrecords hexport hnumbering hentries hdescribes
  · intro path id hlookup
    obtain ⟨hid, inode, hresolve, hread⟩ :=
      hcarries.resolve_of_lookup hrecords hlookup false (fun hfollow => nomatch hfollow)
    have hnode := Array.getElem?_eq_getElem (hrecords.mem_order_iff.mp hid)
    obtain ⟨found, hfound, hsame, hdescribes⟩ :=
      hcarries.inodeWithNumber hrecords hexport hnumbering hnode
    obtain rfl : inode = found := Except.ok.inj (hread.symm.trans hsame)
    obtain ⟨metadata, hmetadata, -⟩ := hcarries.metadataOf hrecords hid hnode hdescribes
    have hnumber : metadata.inodeNumber = plan.numbering.number id :=
      (inodeNumber_of_metadataOf hmetadata).trans hdescribes.inodeNumber
    refine ⟨metadata, inode, ?_, hnumber, hresolve, hnumber ▸ hfound⟩
    rw [Image.linkMetadata, hresolve, Except.ok_bind, hmetadata]

end Carried

end Image

namespace Builder

/-- In an image that is finalized in memory with an export table, the inodes are numbered as the
nodes of the tree are in post-order: their numbers, the export table, the entries of the directories
and the links between them agree. -/
theorem numbers_of_finalize {codecs : Codecs} (hcodecs : codecs.All Codec.IsFaithful)
    {prior : Bytes} {start size : Nat} {blockSize time : UInt32} {clock : NodeId → UInt32}
    {options : Options} {builder last : Builder} {codec : Codec}
    (hcodec : options.algorithm.codec codecs = .ok codec)
    (hcreate : create (Storage.ofBytes prior) start size blockSize clock = .ok builder)
    (edits : List Edit)
    (hfinalize : (finalize codecs time options).run (builder.editAll edits) = (.ok (), last))
    (hexport : options.exportTable = true)
    (hnodes : (builder.editAll edits).tree.size < 2 ^ 32 - 1)
    (hlistings : ∀ id < (builder.editAll edits).tree.size,
      (listingBytes codec blockSize (builder.editAll edits).tree options id).length <
        2 ^ 32 - 3) :
    ∃ image, Image.ofRegion codecs (Region.ofStorage last.region.storage start 0) = .ok image ∧
      image.Numbers (builder.editAll edits).tree
        (Numbering.ofTree (builder.editAll edits).tree).number := by
  obtain ⟨plan, tables, layout, image, inodes, listings, hmade, hopened, hcarries, hrecords⟩ :=
    exists_image_of_finalize hcodecs hcodec hcreate edits hfinalize hnodes hlistings
  obtain ⟨htree, hoptions⟩ := hmade.tree_eq
  have hnumbers := hcarries.numbers hrecords (hoptions ▸ hexport) hmade.numbering_eq
  rw [hmade.numbering_eq, htree] at hnumbers
  exact ⟨image, hopened, hnumbers⟩

/-- The directory of the sample tree has the number three, and its parent the number four. -/
theorem numbers_sample :
    ∃ last image,
      (finalize Codecs.machine 9 sampleOptions).run (sampleBuilder.editAll sampleEdits) =
          (.ok (), last) ∧
        Image.ofRegion Codecs.machine (Region.ofStorage last.region.storage 5 0) = .ok image ∧
        image.superblock.inodeCount.toNat = 4 ∧
        ∃ inode body, image.inodeWithNumber 3 = .ok inode ∧ inode.body = .directory body ∧
          body.parentInode = 4 := by
  obtain ⟨last, hrun⟩ := finalize_sample
  obtain ⟨image, hopened, hnumbers⟩ := numbers_of_finalize Codec.isFaithful_machine rfl
    create_sample sampleEdits hrun rfl (by decide +kernel) listings_sample
  have hsize : (sampleBuilder.editAll sampleEdits).tree.size = 4 := by decide +kernel
  have hdirectory : (Numbering.ofTree (sampleBuilder.editAll sampleEdits).tree).number 1 = 3 := by
    decide +kernel
  have hroot : (Numbering.ofTree (sampleBuilder.editAll sampleEdits).tree).number Staging.root =
      4 := by
    decide +kernel
  obtain ⟨inode, hfound, -, -, hentries⟩ := hnumbers.inode 1 (by rw [hsize]; decide)
  obtain ⟨body, hbody, hagrees⟩ := hentries (by decide +kernel)
  have hparent := hagrees.parent_eq Staging.root "d" (by decide +kernel)
  exact ⟨last, image, hrun, hopened, hnumbers.count_eq.trans hsize, inode, body,
    hdirectory ▸ hfound, hbody, hparent.trans hroot⟩

end Builder

end TreeImage
