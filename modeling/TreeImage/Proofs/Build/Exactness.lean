import TreeImage.Proofs.Build.Footprint
import TreeImage.Proofs.Image.Numbers

/-!
The numbers in an image that was written.  Sizes, positions, indexes and counts go into words that
are narrower than what they count.  Two of them are not checked before they are written: how many
nodes there are, and how long a listing is.  While these fit, every word says what it stands for.
-/

namespace TreeImage

open Build Format OpenFile Staging Table

namespace Table

/-- Whether a table says where a record of its stream begins: the byte at which the metadata block
of its first byte begins, and the place in that block. -/
def Begins (codec : Codec) (compress : Bool) (stream : Bytes) (ref : RecordRef) (record : Bytes) :
    Prop :=
  ∃ front rest, stream = front ++ (record ++ rest) ∧
    ref.block.toNat = (storedTable codec compress (fullBefore stream front.length)).length ∧
    ref.offset.toNat = front.length % metadataBlockSize

theorem HasRecord.begins {codec : Codec} {compress : Bool} {stream record : Bytes}
    {ref : RecordRef} (hrecord : HasRecord codec compress stream ref record) :
    Begins codec compress stream ref record := by
  obtain ⟨front, rest, hstream, rfl, hblock⟩ := hrecord
  refine ⟨front, rest, hstream, ?_, ?_⟩
  · rw [placeOf, UInt32.toNat_ofNat', Nat.mod_eq_of_lt hblock]
  · have hoffset := Nat.mod_lt front.length (show 0 < metadataBlockSize by decide)
    rw [placeOf, UInt16.toNat_ofNat']
    unfold metadataBlockSize at *
    omega

/-- Whether the header of a metadata block says how long its stored form is and whether that is
compressed. -/
def Headed (codec : Codec) (compress : Bool) (payload : Bytes) : Prop :=
  ∃ frame isCompressed, codec.IsForm frame isCompressed payload ∧
    (isCompressed = true → compress = true) ∧
    storedBlock codec compress payload =
      littleEndian 2 (frame.length + if isCompressed then 0 else metadataRaw) ++ frame ∧
    fromLittleEndian (littleEndian 2 (frame.length + if isCompressed then 0 else metadataRaw)) =
      frame.length + if isCompressed then 0 else metadataRaw

end Table

namespace Build

variable {storing : Storing} {area : DataArea} {position : Nat} {word : UInt32} {block : Bytes}

namespace DataArea

/-- Whether a block is stored at a position, and a word says how long its stored form is and whether
that is compressed. -/
def Tells (storing : Storing) (area : DataArea) (position : Nat) (word : UInt32) (block : Bytes) :
    Prop :=
  ∃ frame isCompressed, storing.codec.IsForm frame isCompressed block ∧
    area.Has position frame ∧ frame.length < dataRaw ∧
    word.toNat = frame.length + if isCompressed then 0 else dataRaw

theorem HasBlock.tells (hsized : storing.IsSized)
    (hblock : HasBlock storing area position word block) :
    area.Tells storing position word block := by
  obtain ⟨frame, isCompressed, hform, rfl, -, hlength, hhas⟩ := hblock
  have hframe := length_lt_of_isForm hsized hform hlength
  exact ⟨frame, isCompressed, hform, hhas, hframe, toNat_sizeWord hframe⟩

theorem Has.end_le {frame : Bytes} (hhas : area.Has position frame) :
    position + frame.length ≤ superblockSize + area.bytes.length := by
  obtain ⟨front, rest, hbytes, rfl⟩ := hhas
  rw [hbytes, List.length_append, List.length_append]
  omega

theorem HasBlocks.exists_block {words : List UInt32} {blocks : List Bytes}
    (hblocks : HasBlocks storing area position words blocks) {i : Nat}
    (hword : words[i]? = some word) :
    ∃ block, blocks[i]? = some block ∧
      HasSparse storing area (position + ((words.take i).map storedLength).sum) word block := by
  induction words generalizing position blocks i with
  | nil => cases hword
  | cons first words ih =>
      cases blocks with
      | nil => exact hblocks.elim
      | cons block blocks =>
          cases i with
          | zero =>
              cases hword
              exact ⟨block, rfl, hblocks.1⟩
          | succ i =>
              obtain ⟨found, hfound, hsparse⟩ := ih hblocks.2 hword
              refine ⟨found, hfound, ?_⟩
              rwa [List.take_succ_cons, List.map_cons, List.sum_cons, ← Nat.add_assoc]

end DataArea

theorem pow_log2_of_isBlockSize {size : Nat} (hsize : isBlockSize size = true) :
    2 ^ size.log2 = size := by
  simp only [isBlockSize, Bool.and_eq_true, beq_iff_eq] at hsize
  rw [← Nat.one_shiftLeft]
  exact hsize.2

/-- Whether a number is that of a node: its place in the post-order, counted from one. -/
def IsNumber (tree : Tree) (id : NodeId) (number : UInt32) : Prop :=
  ∃ i, (postOrder tree)[i]? = some id ∧ number.toNat = i + 1

/-- Whether the body of a file's inode says where its content is and how long it is. -/
structure StatesFile (storing : Storing) (area : DataArea) (placement : Placement)
    (content : Bytes) (body : FileBody) : Prop where
  fileSize : body.fileSize.toNat = content.length
  blocksStart : body.blocksStart.toNat = placement.start
  blockSizes : ∀ (i : Nat) (word : UInt32), body.blockSizes[i]? = some word →
    ∃ block, (blocksOf storing.blockSize content)[i]? = some block ∧
      (word = 0 ∧ block = List.replicate block.length 0 ∨
        area.Tells storing
          (placement.start + ((body.blockSizes.take i).map storedLength).sum) word block)
  fragment : ∀ ref, placement.tail = some ref → ∃ before tail block,
    (blocksOf storing.blockSize content)[body.blockSizes.length]? = some tail ∧
      before ++ tail <+: block ∧ body.fragmentOffset.toNat = before.length ∧
      DataArea.HasFragment storing area body.fragment.toNat block
  noFragment : placement.tail = none → body.fragment = noFragment

/-- Whether the body of a directory's inode says where its listing is and how long it is, how many
links there are, and which number its parent has. -/
structure StatesDirectory (codec : Codec) (plan : Plan) (tables : Tables) (listings : Bytes)
    (id : NodeId) (body : DirectoryBody) : Prop where
  fileSize : body.fileSize.toNat =
    (Listing.encode (Tables.listing plan tables.refs id)).length + listingBias
  linkCount : body.linkCount.toNat =
    2 + (plan.tree.children id).countP fun entry => plan.tree.isDirectory entry.2
  parent : ∀ parent name, plan.tree.child? parent name = some id →
    IsNumber plan.tree parent body.parentInode
  parent_root : id = Staging.root → body.parentInode.toNat = plan.tree.size + 1
  listing : Table.Begins codec (!plan.options.rawInodes) listings ⟨body.startBlock, body.offset⟩
    (Listing.encode (Tables.listing plan tables.refs id))
  decode : Listing.decode (Listing.encode (Tables.listing plan tables.refs id)) =
    .ok (Tables.listing plan tables.refs id)

/-- Whether an inode says what a node is; that its form has narrower words than the inode loses
nothing. -/
structure StatesNode (codec : Codec) (blockSize : UInt32) (plan : Plan) (tables : Tables)
    (listings : Bytes) (id : NodeId) (node : Node) (inode : Inode) : Prop where
  inodeNumber : IsNumber plan.tree id inode.inodeNumber
  uid : tables.ids.values[inode.uidIndex.toNat]? =
    some (plan.options.forceUid.getD node.attributes.uid)
  gid : tables.ids.values[inode.gidIndex.toNat]? =
    some (plan.options.forceGid.getD node.attributes.gid)
  decode : Inode.decode blockSize.toNat inode.encode = .ok (inode, ([] : Bytes))
  directory : ∀ entries, node.content = .directory entries → ∃ body,
    inode.body = .directory body ∧ StatesDirectory codec plan tables listings id body
  file : ∀ data, node.content = .file data → ∃ body, inode.body = .file body ∧
    StatesFile ⟨codec, blockSize.toNat, plan.options⟩ plan.contents.area
      (plan.contents.placement id) data.toList body
  symlink : ∀ target, node.content = .symlink target → ∃ body,
    inode.body = .symlink body ∧ body.target = Text.utf8 target

/-- Whether all words in the parts of an image say what they stand for, if `inodes` and `listings`
are the streams in its tables. -/
structure Exact (codec : Codec) (blockSize : UInt32) (plan : Plan) (tables : Tables)
    (parts : Parts) (inodes listings : Bytes) : Prop where
  tiles : parts.Tiles
  inodeCount : parts.header.inodeCount.toNat = plan.tree.size
  fragmentCount : parts.header.fragmentCount.toNat = plan.contents.area.fragments.size
  idCount : parts.header.idCount.toNat = tables.ids.values.size
  blockLog : 2 ^ parts.header.blockLog.toNat = parts.header.blockSize.toNat
  root : parts.header.root = Tables.ref tables.refs Staging.root
  inodeTable : parts.layout.inodeTable = storedTable codec (!plan.options.rawInodes) inodes
  directoryTable :
    parts.layout.directoryTable = storedTable codec (!plan.options.rawInodes) listings
  headers : ∀ stream ∈ [inodes, listings], ∀ payload ∈ blocksOf metadataBlockSize stream,
    Table.Headed codec (!plan.options.rawInodes) payload
  lookups : ∀ lookup ∈ parts.layout.fragments :: parts.layout.ids :: parts.layout.exports.toList,
    ∀ block ∈ lookup.blocks, ∃ payload,
      block = storedBlock codec (!plan.options.rawInodes) payload ∧
        Table.Headed codec (!plan.options.rawInodes) payload
  fragments : ∀ (i : Nat) (entry : FragmentEntry),
    plan.contents.area.fragments[i]? = some entry → ∃ block,
      plan.contents.area.Tells ⟨codec, blockSize.toNat, plan.options⟩ entry.start.toNat entry.size
        block
  number : ∀ id < plan.tree.size, IsNumber plan.tree id (plan.numbering.number id)
  nodes : ∀ id node, plan.tree.node? id = some node → ∃ inode,
    Table.Begins codec (!plan.options.rawInodes) inodes (Tables.ref tables.refs id)
      inode.encode ∧
    StatesNode codec blockSize plan tables listings id node inode

theorem headed_of_mem_holding {codec : Codec} (compress : Bool) {start : Nat}
    {entries block : Bytes} (hmem : block ∈ (Lookup.holding codec compress start entries).blocks) :
    ∃ payload, block = storedBlock codec compress payload ∧
      Table.Headed codec compress payload := by
  obtain ⟨payload, hpayload, rfl⟩ := List.mem_map.mp hmem
  exact ⟨payload, rfl,
    Table.exists_form_storedBlock codec compress (length_le_of_mem_blocksOf hpayload)⟩

section Records

variable {codec : Codec} {blockSize time : UInt32} {plan : Plan} {tables : Tables}
  {inodes listings : Bytes} {id : NodeId}
  (hrecords : Records codec blockSize plan tables inodes listings)
include hrecords

theorem Records.isNumber (hnumbering : plan.numbering = Numbering.ofTree plan.tree)
    (hid : id < plan.tree.size) : IsNumber plan.tree id (plan.numbering.number id) := by
  rw [hnumbering]
  obtain ⟨i, -, hplace, hnumber⟩ :=
    Numbering.exists_place hrecords.wellFormed hrecords.size_lt hid
  exact ⟨i, hplace, hnumber⟩

theorem Records.statesFile (hend : superblockSize + plan.contents.area.bytes.length < addressSpace)
    {data : Buffer} {attributes : Attributes}
    (hfile : plan.tree.node? id = some ⟨.file data, attributes⟩) :
    StatesFile ⟨codec, blockSize.toNat, plan.options⟩ plan.contents.area
      (plan.contents.placement id) data.toList
      (Tables.fileBody data (plan.contents.placement id)) := by
  have hid := hrecords.mem_order_iff.mpr (Tree.lt_size_of_node? hfile)
  obtain ⟨blocks, hblocks, hstart, hcut⟩ := hrecords.placed.placed id hid data attributes hfile
  refine ⟨?_, ?_, ?_, ?_, ?_⟩
  · rw [Array.length_toList]
    exact hrecords.toNat_size hfile
  · exact toNat_ofNat_of_lt (by omega)
  · intro i word hword
    obtain ⟨block, hblock, hsparse⟩ := hblocks.exists_block hword
    refine ⟨block, ?_, hsparse.imp_right fun hstored => hstored.tells hrecords.storing⟩
    rcases hcut with ⟨-, hcut⟩ | ⟨ref, tail, -, -, -, -, hcut, -⟩
    · rw [hcut, hblock]
    · rw [hcut, List.getElem?_append_left (List.getElem?_eq_some_iff.mp hblock).1, hblock]
  · intro ref href
    rcases hcut with ⟨hnone, -⟩ | ⟨other, tail, hsome, hne, -, -, hcut, htail⟩
    · cases hnone.symm.trans href
    · obtain ⟨-, -, before, block, hbefore, hprefix, hfragment⟩ := hrecords.fragment hne htail
      refine ⟨before, tail, block, ?_, hprefix, ?_, ?_⟩
      · change (blocksOf blockSize.toNat data.toList)[_]? = _
        rw [hcut]
        change (blocks ++ [tail])[(plan.contents.placement id).blockSizes.toList.length]? = _
        rw [hblocks.length_eq, List.getElem?_concat_length]
      · simp only [Tables.fileBody, hsome]
        exact hbefore.symm
      · simp only [Tables.fileBody, hsome]
        exact hfragment
  · intro hnone
    simp only [Tables.fileBody, hnone]

theorem Records.statesDirectory (hnumbering : plan.numbering = Numbering.ofTree plan.tree)
    {entries : Std.TreeMap String NodeId} {attributes : Attributes}
    (hnode : plan.tree.node? id = some ⟨.directory entries, attributes⟩) {inode : Inode}
    (hdescribes : Tables.Describes plan codec (!plan.options.rawInodes) tables listings id
      ⟨.directory entries, attributes⟩ inode) :
    ∃ body, inode.body = .directory body ∧
      StatesDirectory codec plan tables listings id body := by
  have htree := hrecords.wellFormed
  have hid := hrecords.mem_order_iff.mpr (Tree.lt_size_of_node? hnode)
  obtain ⟨body, hbody, hsize, hrecord⟩ := hdescribes.directory entries rfl
  obtain ⟨hlinks, hparent⟩ := hdescribes.links body hbody
  refine ⟨body, hbody, ?_, ?_, ?_, ?_, hrecord.begins, ?_⟩
  · rw [hsize]
    exact hrecords.toNat_listingSize id
  · rw [hlinks]
    exact toNat_directoryLinks htree hrecords.size_lt id
  · intro parent name hchild
    rw [hparent, hnumbering, Numbering.parentNumber_of_child htree hchild, ← hnumbering]
    exact hrecords.isNumber hnumbering
      (Tree.lt_size_of_isDirectory (Tree.isDirectory_of_child? hchild))
  · rintro rfl
    rw [hparent, hnumbering]
    exact Numbering.toNat_parentNumber_root htree hrecords.size_lt
  · exact Listing.decode_encode_of_storable fun entry hmem =>
      hrecords.isStorable_of_mem_listing hid hmem

theorem Records.statesNode (hnumbering : plan.numbering = Numbering.ofTree plan.tree)
    (hend : superblockSize + plan.contents.area.bytes.length < addressSpace) {node : Node}
    (hnode : plan.tree.node? id = some node) :
    ∃ inode, Table.Begins codec (!plan.options.rawInodes) inodes (Tables.ref tables.refs id)
        inode.encode ∧
      StatesNode codec blockSize plan tables listings id node inode := by
  have hlt := Tree.lt_size_of_node? hnode
  obtain ⟨inode, hdescribes, hrecord, hstorable⟩ :=
    hrecords.exists_inode (hrecords.mem_order_iff.mpr hlt) hnode
  refine ⟨inode, hrecord.begins, ?_, hdescribes.uid, hdescribes.gid, ?_, ?_, ?_,
    hdescribes.symlink⟩
  · rw [hdescribes.inodeNumber]
    exact hrecords.isNumber hnumbering hlt
  · exact (Inode.decode_reads hstorable).eq_of_whole
  · obtain ⟨content, attributes⟩ := node
    rintro entries rfl
    exact hrecords.statesDirectory hnumbering hnode hdescribes
  · obtain ⟨content, attributes⟩ := node
    rintro data rfl
    exact ⟨_, hdescribes.file data rfl, hrecords.statesFile hend hnode⟩

/-- If what is not checked fits its words, every word of an image says what it stands for. -/
theorem Records.exact {tree : Tree} {options : Options} {layout : Layout}
    (hmade : IsMade codec blockSize tree options plan tables layout)
    (hblockSize : isBlockSize blockSize.toNat = true)
    (hend : (hmade.parts time).bytes.length < addressSpace) :
    Exact codec blockSize plan tables (hmade.parts time) inodes listings := by
  have hlayout := hmade.isMadeOf
  have hnumbering := hmade.numbering_eq
  have htiles := hmade.tiles hrecords.placed.consistent hend
  have hdata : superblockSize + plan.contents.area.bytes.length < addressSpace := by
    rw [Parts.length_bytes, Parts.body, List.length_append] at hend
    dsimp only [IsMade.parts] at hend
    omega
  have hnodes := hrecords.size_lt
  refine ⟨htiles, ?_, ?_, ?_, ?_, rfl, hrecords.holds.wrote_inodes.eq_of_finish hlayout.inodes,
    hrecords.holds.wrote_listings.eq_of_finish hlayout.directories, ?_, ?_, ?_, ?_, ?_⟩
  · exact (toNat_inodeCount codec blockSize time hrecords.fit layout).trans hrecords.length_order
  · have hcount := hrecords.fit.fragments_le
    rw [hrecords.length_order] at hcount
    change (UInt32.ofNat plan.contents.area.fragments.size).toNat = _
    rw [UInt32.toNat_ofNat']
    omega
  · exact IdTable.toNat_ofNat_of_le hrecords.fit.ids_le
  · change 2 ^ (UInt16.ofNat blockSize.toNat.log2).toNat = blockSize.toNat
    rw [toNat_log2 hrecords.storing.blockSize_pos]
    exact pow_log2_of_isBlockSize hblockSize
  · intro stream _ payload hpayload
    exact Table.exists_form_storedBlock codec _ (length_le_of_mem_blocksOf hpayload)
  · intro lookup hlookup block hblock
    rcases List.mem_cons.mp hlookup with rfl | hlookup
    · exact headed_of_mem_holding _ (hlayout.fragments_eq ▸ hblock)
    rcases List.mem_cons.mp hlookup with rfl | hlookup
    · exact headed_of_mem_holding _ (hlayout.ids_eq ▸ hblock)
    · rw [(hlayout.of_exports (Option.mem_toList.mp hlookup)).2] at hblock
      exact headed_of_mem_holding _ hblock
  · intro i entry hentry
    obtain ⟨block, start, word, hfound, hblock⟩ :=
      hrecords.placed.consistent.fragments i (Array.getElem?_eq_some_iff.mp hentry).1
    obtain rfl := Option.some.inj (hentry.symm.trans hfound)
    obtain ⟨frame, isCompressed, -, -, -, -, hhas⟩ := id hblock
    have hstart := hhas.end_le
    refine ⟨block, ?_⟩
    dsimp only
    rw [toNat_ofNat_of_lt (by omega)]
    exact hblock.tells hrecords.storing
  · exact fun id hid => hrecords.isNumber hnumbering hid
  · exact fun id node hnode => hrecords.statesNode hnumbering hdata hnode

end Records

/-- What is not checked before it is written: that the nodes of a tree can be numbered, and that
the lengths of their listings fit their words. -/
structure Fits (codec : Codec) (blockSize : UInt32) (tree : Tree) (options : Options) : Prop where
  nodes : tree.size < 2 ^ 32 - 1
  listings : ∀ id < tree.size,
    (listingBytes codec blockSize tree options id).length < 2 ^ 32 - 3

section Made

variable {codec : Codec} {blockSize time : UInt32} {tree : Tree} {options : Options}
  {plan : Plan} {tables : Tables} {layout : Layout}
  (hmade : IsMade codec blockSize tree options plan tables layout) (htree : tree.WellFormed)
include hmade htree

theorem IsMade.fits_of_exact {parts : Parts} {inodes listings : Bytes}
    (hexact : Exact codec blockSize plan tables parts inodes listings) :
    Fits codec blockSize tree options := by
  obtain ⟨rfl, -⟩ := hmade.tree_eq
  have hstates : ∀ id entries attributes,
      plan.tree.node? id = some ⟨.directory entries, attributes⟩ →
        ∃ body, StatesDirectory codec plan tables listings id body := by
    intro id entries attributes hnode
    obtain ⟨inode, -, hinode⟩ := hexact.nodes id _ hnode
    obtain ⟨body, -, hbody⟩ := hinode.directory entries rfl
    exact ⟨body, hbody⟩
  constructor
  · obtain ⟨entries, attributes, hroot⟩ := Tree.isDirectory_iff.mp htree.root_isDirectory
    obtain ⟨body, hbody⟩ := hstates _ entries attributes hroot
    have hparent := hbody.parent_root rfl
    have hword := body.parentInode.toNat_lt
    omega
  · intro id hid
    rw [hmade.listingBytes_eq]
    by_cases hdirectory : plan.tree.isDirectory id = true
    · obtain ⟨entries, attributes, hnode⟩ := Tree.isDirectory_iff.mp hdirectory
      obtain ⟨body, hbody⟩ := hstates id entries attributes hnode
      have hsize := hbody.fileSize
      have hword := body.fileSize.toNat_lt
      unfold listingBias at hsize
      omega
    · have hnil : Tables.listing plan tables.refs id = [] :=
        List.map_eq_nil_iff.mpr (Tree.children_eq_nil hdirectory)
      rw [hnil, Listing.encode_nil]
      decide

theorem IsMade.exact_iff_fits (hblockSize : isBlockSize blockSize.toNat = true)
    (hend : (hmade.parts time).bytes.length < addressSpace) :
    (∃ inodes listings,
      Exact codec blockSize plan tables (hmade.parts time) inodes listings) ↔
        Fits codec blockSize tree options := by
  constructor
  · rintro ⟨inodes, listings, hexact⟩
    exact hmade.fits_of_exact htree hexact
  · rintro ⟨hnodes, hlistings⟩
    obtain ⟨inodes, listings, hrecords⟩ :=
      hmade.exists_records htree hblockSize hnodes hlistings
    exact ⟨inodes, listings, hrecords.exact hmade hblockSize hend⟩

end Made

end Build

namespace Builder

/-- When an image of any storage is finalized, its parts are made of tables whose numbers all say
what they stand for if and only if the nodes can be numbered and the lengths of the listings fit
their words.  Neither of these is checked. -/
theorem exact_iff_of_finalize {codecs : Codecs} {storage : Storage} {start size : Nat}
    {blockSize time : UInt32} {clock : NodeId → UInt32} {options : Options}
    {builder last : Builder}
    (hcreate : create storage start size blockSize clock = .ok builder) (edits : List Edit)
    (hfinalize : (finalize codecs time options).run (builder.editAll edits) = (.ok (), last)) :
    let tree := (builder.editAll edits).tree
    ∃ codec plan tables parts, options.algorithm.codec codecs = .ok codec ∧
      (Plan.ofTree codec blockSize tree options).outcome = .ok plan ∧
      Tables.ofPlan codec plan = .ok tables ∧
      Parts.ofTree codec blockSize time tree options = .ok parts ∧
      (imageScript codec blockSize time tree options).run (builder.editAll edits).region =
        (.ok (), last.region) ∧
      ((∃ inodes listings, Exact codec blockSize plan tables parts inodes listings) ↔
        Fits codec blockSize tree options) := by
  intro tree
  obtain ⟨hblockSize, hstages⟩ := stages_of_create hcreate edits
  obtain ⟨codec, hcodec, hrun⟩ := hstages.finalize_eq_ok hfinalize
  obtain ⟨houtcome, -⟩ := Script.run_eq_ok.mp hrun
  obtain ⟨plan, tables, layout, hmade, -⟩ := imageScript_eq_ok.mp (Script.eq_of_outcome houtcome)
  have hdata := (hmade.holds (isSized_of_isBlockSize hblockSize codec options)).1.consistent
  have hend := hmade.end_lt_of_run hdata hrun
  refine ⟨codec, plan, tables, hmade.parts time, hcodec, ?_, hmade.tables_eq, hmade.ofTree_eq time,
    ?_, ?_⟩
  · rw [hmade.plan_eq]
  · rw [hstages.region_eq]
    exact hrun
  · exact hmade.exact_iff_fits hstages.wellFormed hblockSize
      (Nat.lt_of_le_of_lt (Nat.le_add_left _ _) hend)

/-- All numbers in the image of the sample tree say what they stand for, the number of inodes
four. -/
theorem exact_sample :
    ∃ last plan tables, ∃ parts : Parts, ∃ inodes listings,
      (finalize Codecs.machine 9 sampleOptions).run (sampleBuilder.editAll sampleEdits) =
          (.ok (), last) ∧
        Exact Codecs.machine.gzip 4096 plan tables parts inodes listings ∧
        parts.header.inodeCount.toNat = 4 := by
  obtain ⟨last, hrun⟩ := finalize_sample
  obtain ⟨codec, plan, tables, parts, hcodec, hplan, -, -, -, hiff⟩ :=
    exact_iff_of_finalize create_sample sampleEdits hrun
  obtain rfl : Codecs.machine.gzip = codec := Except.ok.inj hcodec
  have hsize : (sampleBuilder.editAll sampleEdits).tree.size = 4 := by decide +kernel
  have hnodes : (sampleBuilder.editAll sampleEdits).tree.size < 2 ^ 32 - 1 := by
    rw [hsize]
    decide
  obtain ⟨inodes, listings, hexact⟩ := hiff.mpr ⟨hnodes, listings_sample⟩
  have htree := (Plan.ofTree_eq_ok.mp (Script.eq_of_outcome hplan)).2.1
  refine ⟨last, plan, tables, parts, inodes, listings, hrun, hexact, ?_⟩
  rw [hexact.inodeCount, htree]
  exact hsize

end Builder

end TreeImage
