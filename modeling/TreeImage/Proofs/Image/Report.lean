import TreeImage.Image.Query
import TreeImage.Proofs.Image.Opening

namespace TreeImage

open Format

namespace Image

variable {image : Image}

theorem InMemory.inodeTable (hmemory : image.InMemory) : image.inodeTable.InMemory := by
  have hinodes := hmemory.checked.inodes_le_directories
  have hdirectories := hmemory.checked.directories_le_bytesUsed
  have hstart := hmemory.start_lt
  have hstop := image.superblock.directoryTableStart.toNat_lt
  refine ⟨hmemory.region, hmemory.codec, hinodes, ?_, hstop, hmemory.holds.mono hdirectories⟩
  dsimp only [Image.inodeTable]
  omega

theorem InMemory.directoryTable (hmemory : image.InMemory) :
    image.directoryTable.InMemory := by
  have hused := image.superblock.bytesUsed.toNat_lt
  have hstop := hmemory.stop_le
  exact ⟨hmemory.region, hmemory.codec, hmemory.start_le, hmemory.start_lt,
    Nat.lt_of_le_of_lt hstop hused, hmemory.holds.mono hstop⟩

theorem InMemory.readInode_reports (hmemory : image.InMemory) (ref : RecordRef) :
    Reports (image.region.declared ≠ none) (image.readInode ref) := by
  have htable := hmemory.inodeTable
  have hblockSize := Nat.ne_of_gt hmemory.checked.blockSize_pos
  have hdecode : Decoder.Reports htable.guard (Inode.decode _) := Inode.decode_reports hblockSize
  unfold readInode
  refine .bind (htable.cursor_reports ref) fun cursor hcursor => ?_
  refine .bind ?_ fun _ _ => .ok _
  exact (hdecode cursor (RecordTable.table_of_cursor hcursor)).1

theorem InMemory.readListing_reports (hmemory : image.InMemory) (body : DirectoryBody) :
    Reports (image.region.declared ≠ none) (image.readListing body) := by
  have htable := hmemory.directoryTable
  unfold readListing
  refine .refuse trivial fun hsize => ?_
  split
  · exact .ok _
  · refine .bind (htable.cursor_reports _) fun cursor hcursor => ?_
    refine .bind (.of_eq_ok (Trapping.sub_eq_ok (by omega))) fun length _ => ?_
    refine .bind ?_ fun taken _ => Listing.decode_reports taken.1
    exact htable.guard.take_reports length (RecordTable.table_of_cursor hcursor)

theorem missing_isReport {storageFails : Prop} (query : Query) (segment : Segment) :
    (missing query segment).IsReport storageFails := by
  unfold missing
  split
  all_goals trivial

theorem notEnterable_isReport {storageFails : Prop} (query : Query) (segment next : Segment) :
    (notEnterable query segment next).IsReport storageFails := by
  unfold notEnterable
  split
  all_goals trivial

theorem InMemory.findEntry_reports (hmemory : image.InMemory) (query : Query)
    (directory : Directory) (segment : Segment) :
    Reports (image.region.declared ≠ none) (image.findEntry query directory segment) := by
  unfold findEntry
  refine .bind (hmemory.readListing_reports _) fun listing _ => ?_
  split
  · exact .error (missing_isReport query segment)
  · exact hmemory.readInode_reports _

theorem InMemory.follow_reports (hmemory : image.InMemory) {query : Query}
    {expand : Link → Except Error Inode}
    (hexpand : ∀ link, Reports (image.region.declared ≠ none) (expand link))
    (segments : List Segment) (location : Location) :
    Reports (image.region.declared ≠ none) (image.follow query expand segments location) := by
  induction segments generalizing location with
  | nil => exact .ok _
  | cons segment rest ih =>
      rw [follow]
      split
      · exact ih _
      · split
        · rename_i error herror
          exact .error (hmemory.findEntry_reports query location.current segment error herror)
        · split
          · exact ih _
          · split
            · exact .ok _
            · exact hexpand _
          · split
            · exact .ok _
            · exact .error (notEnterable_isReport _ _ _)

theorem InMemory.resolveFrom_reports (hmemory : image.InMemory) (query : Query) (budget : Nat)
    (segments : List Segment) (location : Location) :
    Reports (image.region.declared ≠ none)
      (image.resolveFrom query budget segments location) := by
  induction budget generalizing segments location with
  | zero =>
      refine hmemory.follow_reports (fun link => ?_) segments location
      exact .error trivial
  | succ budget ih =>
      refine hmemory.follow_reports (fun link => ?_) segments location
      cases hsplice : splice query link with
      | error error =>
          refine .error ?_
          unfold splice at hsplice
          split at hsplice
          · cases hsplice
            trivial
          · split at hsplice
            · cases hsplice
              trivial
            · cases hsplice
      | ok spliced => exact ih spliced.1 spliced.2

theorem InMemory.root_reports (hmemory : image.InMemory) :
    Reports (image.region.declared ≠ none) image.root := by
  unfold root
  refine .bind (hmemory.readInode_reports _) fun inode _ => ?_
  split
  · exact .ok _
  · exact .error trivial

theorem InMemory.resolve_reports (hmemory : image.InMemory) (path : String) (followLast : Bool) :
    Reports (image.region.declared ≠ none) (image.resolve path followLast) :=
  .bind hmemory.root_reports fun _ _ => hmemory.resolveFrom_reports _ _ _ _

theorem idAt_reports {storageFails : Prop} (image : Image) (index : UInt16) :
    Reports storageFails (image.idAt index) := by
  unfold idAt
  split
  · exact .ok _
  · exact .error trivial

theorem metadataOf_reports {storageFails : Prop} (image : Image) (inode : Inode) :
    Reports storageFails (image.metadataOf inode) := by
  refine .bind (idAt_reports image _) fun _ _ => ?_
  refine .bind (idAt_reports image _) fun _ _ => ?_
  exact .ok _

theorem InMemory.entries_reports (hmemory : image.InMemory) (path : String) :
    Reports (image.region.declared ≠ none) (image.entries path) := by
  refine .bind (hmemory.resolve_reports path true) fun inode _ => ?_
  split
  · exact hmemory.readListing_reports _
  · exact .error trivial

theorem InMemory.metadata_reports (hmemory : image.InMemory) (path : String) :
    Reports (image.region.declared ≠ none) (image.metadata path) :=
  .bind (hmemory.resolve_reports path true) fun inode _ => metadataOf_reports image inode

theorem InMemory.linkMetadata_reports (hmemory : image.InMemory) (path : String) :
    Reports (image.region.declared ≠ none) (image.linkMetadata path) :=
  .bind (hmemory.resolve_reports path false) fun inode _ => metadataOf_reports image inode

theorem InMemory.linkTarget_reports (hmemory : image.InMemory) (path : String) :
    Reports (image.region.declared ≠ none) (image.linkTarget path) := by
  refine .bind (hmemory.resolve_reports path false) fun inode _ => ?_
  split
  · split
    · exact .ok _
    · exact .error trivial
  · exact .error trivial

theorem InMemory.inodeWithNumber_reports (hmemory : image.InMemory) (number : UInt32) :
    Reports (image.region.declared ≠ none) (image.inodeWithNumber number) := by
  unfold inodeWithNumber
  split
  · exact .error trivial
  · split
    · exact .error trivial
    · refine .bind (hmemory.readInode_reports _) fun inode _ => ?_
      exact .refuse trivial fun _ => .ok _

end Image

end TreeImage
