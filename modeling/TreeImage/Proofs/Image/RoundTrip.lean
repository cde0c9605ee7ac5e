import TreeImage.Proofs.Codec.FrameLimit
import TreeImage.Proofs.Image.CarriedFiles
import TreeImage.Proofs.Image.CarriedPaths
import TreeImage.Proofs.Image.Finalized

namespace TreeImage

open Build Format Staging

/-- The size of a node in an image that holds a listing for it. -/
def Staging.Content.sizeWith (listing : Bytes) : Staging.Content → Nat
  | .directory _ => listing.length + listingBias
  | .file data => data.size
  | .symlink target => (Text.utf8 target).length

/-- Whether the attributes of an entry are those of a node, except for an owner and a group that
the options set for all nodes. -/
structure Metadata.Describes (metadata : Metadata) (options : Options) (listing : Bytes)
    (node : Node) : Prop where
  kind : metadata.kind = node.content.kind
  size : metadata.size = node.content.sizeWith listing
  permissions : metadata.permissions = node.attributes.mode
  uid : metadata.uid = options.forceUid.getD node.attributes.uid
  gid : metadata.gid = options.forceGid.getD node.attributes.gid
  mtime : metadata.mtime = node.attributes.mtime

namespace Image

structure Shows (image : Image) (tree : Tree) (options : Options) (listing : Bytes)
    (path : String) (id : NodeId) (node : Node) : Prop where
  linkMetadata : ∃ metadata, image.linkMetadata path = .ok metadata ∧
    metadata.Describes options listing node
  entries : tree.isDirectory id = true → ∃ entries, image.entries path = .ok entries ∧
    (entries.map fun entry => (entry.name, entry.kind)) =
      (tree.children id).map (fun (name, child) => (name, tree.kind child)) ∧
    entries.Pairwise fun left right => Text.utf8 left.name < Text.utf8 right.name
  missing : tree.isDirectory id = true → ∀ name, Listing.isEntryName name = true →
    tree.child? id name = none →
      image.linkMetadata (path ++ "/" ++ name) = .error (.notFound (path ++ "/" ++ name))
  linkTarget : ∀ target, node.content = .symlink target → image.linkTarget path = .ok target

variable {image : Image} {codec : Codec} {blockSize : UInt32} {plan : Plan} {tables : Tables}
  {inodes listings : Bytes}

section Carried

variable (hcarries : image.Carries codec blockSize plan tables inodes listings)
  (hrecords : Records codec blockSize plan tables inodes listings)
include hcarries hrecords

/-- The attributes in the inode of a node are those of the node. -/
theorem Carries.metadataOf {id : NodeId} {node : Node} {inode : Inode}
    (hid : id ∈ plan.numbering.order) (hnode : plan.tree.node? id = some node)
    (hdescribes : Tables.Describes plan codec (!plan.options.rawInodes) tables listings id node
      inode) :
    ∃ metadata, image.metadataOf inode = .ok metadata ∧
      metadata.Describes plan.options (Listing.encode (Tables.listing plan tables.refs id))
        node := by
  have huid : image.idAt inode.uidIndex = .ok (plan.options.forceUid.getD node.attributes.uid) := by
    rw [idAt, hcarries.ids_eq, hdescribes.uid]
  have hgid : image.idAt inode.gidIndex = .ok (plan.options.forceGid.getD node.attributes.gid) := by
    rw [idAt, hcarries.ids_eq, hdescribes.gid]
  have hsize : inode.size = node.content.sizeWith
      (Listing.encode (Tables.listing plan tables.refs id)) := by
    unfold Inode.size
    obtain ⟨content, attributes⟩ := node
    cases content with
    | directory entries =>
        obtain ⟨body, hbody, -, hsize⟩ := hcarries.readListing hrecords hid hdescribes rfl
        rw [hbody]
        exact hsize
    | file data =>
        rw [hdescribes.file data rfl]
        exact hrecords.toNat_size hnode
    | symlink target =>
        obtain ⟨body, hbody, htarget⟩ := hdescribes.symlink target rfl
        rw [hbody]
        exact congrArg List.length htarget
  refine ⟨⟨inode.kind, inode.size, inode.permissions, _, _, inode.mtime, inode.inodeNumber⟩, ?_,
    hdescribes.kind_eq, hsize, hdescribes.permissions, rfl, rfl, hdescribes.mtime⟩
  rw [Image.metadataOf, huid, Except.ok_bind, hgid, Except.ok_bind]
  rfl

theorem Carries.shows {path : String} {id : NodeId} {node : Node}
    (hlookup : plan.tree.lookup path = .ok id) (hnode : plan.tree.node? id = some node) :
    image.Shows plan.tree plan.options (Listing.encode (Tables.listing plan tables.refs id)) path
      id node := by
  obtain ⟨hid, inode, hresolve, hread⟩ :=
    hcarries.resolve_of_lookup hrecords hlookup false (fun hfollow => nomatch hfollow)
  obtain ⟨found, hfound, hdescribes⟩ := hcarries.readInode hrecords hid hnode
  obtain rfl : inode = found := Except.ok.inj (hread.symm.trans hfound)
  refine ⟨?_, ?_, ?_, ?_⟩
  · obtain ⟨metadata, hmetadata, hshown⟩ := hcarries.metadataOf hrecords hid hnode hdescribes
    refine ⟨metadata, ?_, hshown⟩
    rw [Image.linkMetadata, hresolve, Except.ok_bind, hmetadata]
  · intro hdirectory
    obtain ⟨entries, attributes, hother⟩ := Tree.isDirectory_iff.mp hdirectory
    obtain rfl := Option.some.inj (hnode.symm.trans hother)
    obtain ⟨-, followed, hfollowed, hsame⟩ := hcarries.resolve_of_lookup hrecords hlookup true (by
      intro _ target others hlink
      cases hnode.symm.trans hlink)
    obtain rfl : inode = followed := Except.ok.inj (hread.symm.trans hsame)
    obtain ⟨body, hbody, hlisting, -⟩ := hcarries.readListing hrecords hid hdescribes rfl
    refine ⟨Tables.listing plan tables.refs id, ?_, ?_, ?_⟩
    · rw [Image.entries, hfollowed, Except.ok_bind, hbody]
      exact hlisting
    · rw [Tables.listing, List.map_map]
      rfl
    · rw [Tables.listing, List.pairwise_map]
      exact Tree.children_sorted plan.tree id
  · intro hdirectory name hname hchild
    rw [Image.linkMetadata,
      hcarries.resolve_missing hrecords hlookup hdirectory hname hchild false]
    rfl
  · intro target hcontent
    obtain ⟨body, hbody, htarget⟩ := hdescribes.symlink target hcontent
    rw [Image.linkTarget, hresolve, Except.ok_bind, hbody]
    dsimp only
    rw [htarget, Text.ofUtf8?_utf8]
    rfl

theorem Carries.openFile {path : String} {id : NodeId} {data : Buffer} {attributes : Attributes}
    (hlookup : plan.tree.lookup path = .ok id)
    (hfile : plan.tree.node? id = some ⟨.file data, attributes⟩) :
    ∃ file, image.openFile path = .ok file ∧ file.cache = none ∧ file.Holds data.toList := by
  obtain ⟨hid, inode, hresolve, hread⟩ := hcarries.resolve_of_lookup hrecords hlookup true (by
    intro _ target others hlink
    cases hfile.symm.trans hlink)
  obtain ⟨found, hfound, hdescribes⟩ := hcarries.readInode hrecords hid hfile
  obtain rfl : inode = found := Except.ok.inj (hread.symm.trans hfound)
  rw [Image.openFile, hresolve, Except.ok_bind, hdescribes.file data rfl]
  exact hcarries.ofBody hrecords hid hfile inode.inodeNumber

end Carried

end Image

namespace Builder

/-- An image that is finalized in memory is opened, and shows every node of the tree at its path:
the entries of directories, the targets of links and all attributes. -/
theorem shows_of_finalize {codecs : Codecs} (hcodecs : codecs.All Codec.IsFaithful)
    {prior : Bytes} {start size : Nat} {blockSize time : UInt32} {clock : NodeId → UInt32}
    {options : Options} {builder last : Builder} {codec : Codec}
    (hcodec : options.algorithm.codec codecs = .ok codec)
    (hcreate : create (Storage.ofBytes prior) start size blockSize clock = .ok builder)
    (edits : List Edit)
    (hfinalize : (finalize codecs time options).run (builder.editAll edits) = (.ok (), last))
    (hnodes : (builder.editAll edits).tree.size < 2 ^ 32 - 1)
    (hlistings : ∀ id < (builder.editAll edits).tree.size,
      (listingBytes codec blockSize (builder.editAll edits).tree options id).length <
        2 ^ 32 - 3) :
    ∃ image, Image.ofRegion codecs (Region.ofStorage last.region.storage start 0) = .ok image ∧
      ∀ path id node, (builder.editAll edits).tree.lookup path = .ok id →
        (builder.editAll edits).tree.node? id = some node →
          image.Shows (builder.editAll edits).tree options
            (listingBytes codec blockSize (builder.editAll edits).tree options id) path id
            node := by
  obtain ⟨plan, tables, layout, image, inodes, listings, hmade, hopened, hcarries, hrecords⟩ :=
    exists_image_of_finalize hcodecs hcodec hcreate edits hfinalize hnodes hlistings
  refine ⟨image, hopened, ?_⟩
  intro path id node hlookup hnode
  rw [hmade.listingBytes_eq]
  obtain ⟨htree, hoptions⟩ := hmade.tree_eq
  rw [← htree] at hlookup hnode ⊢
  rw [← hoptions]
  exact hcarries.shows hrecords hlookup hnode

/-- The nodes of a sample are dated by their numbers. -/
def sampleBuilder : Builder :=
  ⟨Region.ofStorage (Storage.ofBytes [9, 9]) 5 0, 4096, Tree.new UInt32.ofNat, .staging⟩

/-- A directory with a file and a link. -/
def sampleEdits : List Edit :=
  [.mkdir "d", .putFile "d/f" [1, 2, 3], .symlink "../d" "d/up", .setOwner "d" 5 6]

/-- Options that give every node to the super-user and store the tables as they are. -/
def sampleOptions : Options :=
  { forceUid := some 0, forceGid := some 0, rawInodes := true, rawFragments := true }

theorem create_sample :
    create (Storage.ofBytes [9, 9]) 5 0 4096 UInt32.ofNat = .ok sampleBuilder := rfl

theorem finalize_sample :
    ∃ last, (finalize Codecs.machine 9 sampleOptions).run (sampleBuilder.editAll sampleEdits) =
      (.ok (), last) := by
  rcases hrun : (finalize Codecs.machine 9 sampleOptions).run
    (sampleBuilder.editAll sampleEdits) with ⟨error | _, last⟩
  · have hresult : ((finalize Codecs.machine 9 sampleOptions).run
        (sampleBuilder.editAll sampleEdits)).1.toOption = some () := by
      decide +kernel
    rw [hrun] at hresult
    cases hresult
  · exact ⟨last, rfl⟩

theorem listings_sample : ∀ id < (sampleBuilder.editAll sampleEdits).tree.size,
    (listingBytes Codecs.machine.gzip 4096 (sampleBuilder.editAll sampleEdits).tree
      sampleOptions id).length < 2 ^ 32 - 3 := by
  have hshort : ∀ id < (sampleBuilder.editAll sampleEdits).tree.size,
      (((sampleBuilder.editAll sampleEdits).tree.children id).map fun entry =>
        20 + (Text.utf8 entry.1).length).sum < 2 ^ 32 - 3 := by
    decide +kernel
  intro id hid
  exact Nat.lt_of_le_of_lt (length_listingBytes_le _ _ _ _ id) (hshort id hid)

/-- The link of a sample tree is shown, and nothing beside it. -/
theorem shows_sample :
    ∃ last image,
      (finalize Codecs.machine 9 sampleOptions).run (sampleBuilder.editAll sampleEdits) =
          (.ok (), last) ∧
        Image.ofRegion Codecs.machine (Region.ofStorage last.region.storage 5 0) = .ok image ∧
        image.linkTarget "d/up" = .ok "../d" ∧
        image.linkMetadata "d/none" = .error (.notFound "d/none") := by
  obtain ⟨last, hrun⟩ := finalize_sample
  obtain ⟨image, hopened, hshows⟩ := shows_of_finalize Codec.isFaithful_machine rfl
    create_sample sampleEdits hrun (by decide +kernel) listings_sample
  have hdirectory := hshows "d" 1 _ rfl rfl
  have hlink := hshows "d/up" 3 _ rfl rfl
  exact ⟨last, image, hrun, hopened, hlink.linkTarget "../d" rfl,
    hdirectory.missing rfl "none" (by decide) rfl⟩

/-- An image that is finalized in memory is opened, and every file of the tree is read from it with
all its bytes. -/
theorem content_of_finalize {codecs : Codecs} (hcodecs : codecs.All Codec.IsFaithful)
    {prior : Bytes} {start size : Nat} {blockSize time : UInt32} {clock : NodeId → UInt32}
    {options : Options} {builder last : Builder} {codec : Codec}
    (hcodec : options.algorithm.codec codecs = .ok codec)
    (hcreate : create (Storage.ofBytes prior) start size blockSize clock = .ok builder)
    (edits : List Edit)
    (hfinalize : (finalize codecs time options).run (builder.editAll edits) = (.ok (), last))
    (hnodes : (builder.editAll edits).tree.size < 2 ^ 32 - 1)
    (hlistings : ∀ id < (builder.editAll edits).tree.size,
      (listingBytes codec blockSize (builder.editAll edits).tree options id).length <
        2 ^ 32 - 3) :
    ∃ image, Image.ofRegion codecs (Region.ofStorage last.region.storage start 0) = .ok image ∧
      ∀ path id data attributes, (builder.editAll edits).tree.lookup path = .ok id →
        (builder.editAll edits).tree.node? id = some ⟨.file data, attributes⟩ →
          image.content path = .ok data.toList ∧
            ∃ file, image.openFile path = .ok file ∧ file.size = data.size := by
  obtain ⟨plan, tables, layout, image, inodes, listings, hmade, hopened, hcarries, hrecords⟩ :=
    exists_image_of_finalize hcodecs hcodec hcreate edits hfinalize hnodes hlistings
  refine ⟨image, hopened, ?_⟩
  intro path id data attributes hlookup hfile
  rw [← hmade.tree_eq.1] at hlookup hfile
  obtain ⟨file, hopen, hcache, hholds⟩ := hcarries.openFile hrecords hlookup hfile
  have hloaded : file.CacheIsLoaded := by
    intro index block hkept
    cases hcache.symm.trans hkept
  refine ⟨?_, file, hopen, hholds.size_eq.trans Array.length_toList⟩
  rw [Image.content, hopen, Except.ok_bind, hholds.run_readAt hloaded, hholds.size_eq,
    List.drop_zero, List.take_length]

/-- The file of the sample tree is read. -/
theorem content_sample :
    ∃ last image,
      (finalize Codecs.machine 9 sampleOptions).run (sampleBuilder.editAll sampleEdits) =
          (.ok (), last) ∧
        Image.ofRegion Codecs.machine (Region.ofStorage last.region.storage 5 0) = .ok image ∧
        image.content "d/f" = .ok [1, 2, 3] := by
  obtain ⟨last, hrun⟩ := finalize_sample
  obtain ⟨image, hopened, hcontent⟩ := content_of_finalize Codec.isFaithful_machine rfl
    create_sample sampleEdits hrun (by decide +kernel) listings_sample
  exact ⟨last, image, hrun, hopened, (hcontent "d/f" 2 #[1, 2, 3] _ rfl rfl).1⟩

end Builder

end TreeImage
