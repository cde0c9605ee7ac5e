import TreeImage.Proofs.Image.OpenFileReport
import TreeImage.Proofs.Image.Resolution
import TreeImage.Proofs.Table.Agreement

namespace TreeImage

open Format

namespace Image

/-- Whether two images hold the same lookup tables and read the same from the other tables and from
the data. -/
structure ReadsLike (image twin : Image) : Prop where
  superblock_eq : twin.superblock = image.superblock
  ids_eq : twin.ids = image.ids
  fragments_eq : twin.fragments = image.fragments
  exports_eq : twin.exports = image.exports
  readInode_eq : ∀ ref, twin.readInode ref = image.readInode ref
  readListing_eq : ∀ body, twin.readListing body = image.readListing body
  readStored_eq : ∀ position word,
    OpenFile.readStored twin position word = OpenFile.readStored image position word

def onRegion (image : Image) (region : Region) : Image := { image with region }

/-- Whether the tables of an image end with its used bytes at the latest. -/
structure IsConfined (image : Image) : Prop where
  checked : image.superblock.IsChecked
  stop_le : image.directoryTableEnd ≤ image.superblock.bytesUsed.toNat

variable {image twin : Image}

/-- No inode, listing or block of an image is read past the bytes that it uses. -/
theorem IsConfined.readsLike (hconfined : image.IsConfined) {other : Region}
    (hagrees : Region.AgreesBelow image.superblock.bytesUsed.toNat image.region other) :
    image.ReadsLike (image.onRegion other) := by
  have hinodes := hconfined.checked.inodes_le_directories
  have hdirectories := hconfined.checked.directories_le_bytesUsed
  refine ⟨rfl, rfl, rfl, rfl, ?_, ?_, ?_⟩
  · intro ref
    have hread : ∀ image : Image, image.readInode ref = image.inodeTable.cursor ref >>=
        fun cursor => (Inode.decode image.superblock.blockSize.toNat cursor).map Prod.fst := by
      intro image
      unfold readInode
      refine Except.bind_congr_of_ok fun cursor _ => ?_
      cases Inode.decode image.superblock.blockSize.toNat cursor with
      | error error => rfl
      | ok read => rfl
    have hbelow : Region.AgreesBelow image.inodeTable.stop image.inodeTable.region other :=
      hagrees.mono hdirectories
    rw [hread, hread]
    exact RecordTable.read_onRegion hbelow (Inode.decode_agrees _) ref
  · intro body
    have hbelow : Region.AgreesBelow image.directoryTable.stop image.directoryTable.region other :=
      hagrees.mono hconfined.stop_le
    unfold readListing
    refine Except.refuse_congr fun _ => ?_
    by_cases hempty : body.fileSize.toNat = listingBias
    · rw [if_pos hempty, if_pos hempty]
    · rw [if_neg hempty, if_neg hempty]
      change ((image.directoryTable.onRegion other).cursor _ >>= _) = _
      rw [RecordTable.cursor_onRegion hbelow]
      cases hcursor : image.directoryTable.cursor ⟨body.startBlock, body.offset⟩ with
      | error error => rfl
      | ok cursor =>
          change (Trapping.sub body.fileSize.toNat listingBias >>= _) =
            (Trapping.sub body.fileSize.toNat listingBias >>= _)
          refine Except.bind_congr_of_ok fun length _ => ?_
          have halike := (RecordTable.likeness hbelow).take_alike length
            ⟨RecordTable.table_of_cursor hcursor, rfl⟩
          generalize RecordSource.take length cursor = taken,
            RecordSource.take length (cursor.onRegion other) = twinTaken at halike ⊢
          cases halike with
          | error error => rfl
          | ok hlike => exact congrArg Listing.decode hlike.1.symm
  · intro position word
    unfold OpenFile.readStored
    refine Except.refuse_congr fun hinside => ?_
    simp only [Bool.or_eq_true, decide_eq_true_eq, not_or, Nat.not_lt] at hinside
    have hbelow : position + OpenFile.storedLength word ≤ image.superblock.bytesUsed.toNat :=
      Nat.le_trans hinside.2 (Nat.le_trans hinodes hdirectories)
    change (other.read position _ >>= _) = _
    rw [hagrees position _ hbelow]
    rfl

section Queries

variable (hlike : image.ReadsLike twin)
include hlike

theorem ReadsLike.findEntry (query : Query) (directory : Directory) (segment : Segment) :
    twin.findEntry query directory segment = image.findEntry query directory segment := by
  unfold Image.findEntry
  rw [hlike.readListing_eq]
  refine Except.bind_congr_of_ok fun listing _ => ?_
  cases listing.find? (·.name == segment.name) with
  | none => rfl
  | some entry => exact hlike.readInode_eq entry.ref

theorem ReadsLike.follow (query : Query) {expand twinExpand : Link → Except Error Inode}
    (hexpand : ∀ link, twinExpand link = expand link) (segments : List Segment)
    (location : Location) :
    twin.follow query twinExpand segments location =
      image.follow query expand segments location := by
  induction segments generalizing location with
  | nil => rw [Image.follow, Image.follow]
  | cons segment rest ih =>
      by_cases hname : segment.name = ".."
      · rw [follow_up hname, follow_up hname]
        exact ih _
      · have hsame := hlike.findEntry query location.current segment
        rcases findEntry_cases image query segment location with
          ⟨error, hentry⟩ | ⟨found, hentry, ⟨sub, hsub⟩ | ⟨link, hlink⟩ | ⟨hdirectory, hsymlink⟩⟩
        all_goals rw [hentry] at hsame
        · rw [follow_error hname hentry, follow_error hname hsame]
        · rw [follow_down hname hentry hsub, follow_down hname hsame hsub]
          exact ih _
        · rw [follow_link hname hentry hlink, follow_link hname hsame hlink, hexpand]
        · rw [follow_other hname hentry hdirectory hsymlink,
            follow_other hname hsame hdirectory hsymlink]

theorem ReadsLike.resolveFrom (query : Query) (budget : Nat) (segments : List Segment)
    (location : Location) :
    twin.resolveFrom query budget segments location =
      image.resolveFrom query budget segments location := by
  induction budget generalizing segments location with
  | zero => exact hlike.follow query (fun _ => rfl) segments location
  | succ budget ih =>
      refine hlike.follow query (fun link => ?_) segments location
      cases splice query link with
      | error error => rfl
      | ok spliced => exact ih _ _

theorem ReadsLike.resolve (path : String) (followLast : Bool) :
    twin.resolve path followLast = image.resolve path followLast := by
  have hroot : twin.root = image.root := by
    unfold Image.root
    rw [hlike.superblock_eq, hlike.readInode_eq]
  unfold Image.resolve
  rw [hroot]
  exact Except.bind_congr_of_ok fun root _ => hlike.resolveFrom _ _ _ _

theorem ReadsLike.metadataOf (inode : Inode) : twin.metadataOf inode = image.metadataOf inode := by
  unfold Image.metadataOf idAt
  rw [hlike.ids_eq]

theorem ReadsLike.entries (path : String) : twin.entries path = image.entries path := by
  unfold Image.entries
  rw [hlike.resolve]
  refine Except.bind_congr_of_ok fun inode _ => ?_
  cases inode.body with
  | directory body => exact hlike.readListing_eq body
  | _ => rfl

theorem ReadsLike.metadata (path : String) : twin.metadata path = image.metadata path := by
  unfold Image.metadata
  rw [hlike.resolve]
  exact Except.bind_congr_of_ok fun inode _ => hlike.metadataOf inode

theorem ReadsLike.linkMetadata (path : String) :
    twin.linkMetadata path = image.linkMetadata path := by
  unfold Image.linkMetadata
  rw [hlike.resolve]
  exact Except.bind_congr_of_ok fun inode _ => hlike.metadataOf inode

theorem ReadsLike.linkTarget (path : String) : twin.linkTarget path = image.linkTarget path := by
  unfold Image.linkTarget
  rw [hlike.resolve]

theorem ReadsLike.inodeWithNumber (number : UInt32) :
    twin.inodeWithNumber number = image.inodeWithNumber number := by
  unfold Image.inodeWithNumber
  simp only [hlike.exports_eq, hlike.readInode_eq]

end Queries

end Image

namespace OpenFile

/-- Whether two files are opened from images that read alike and stand at the same position, with
blocks kept that are those of their files. -/
structure ReadsLike (file twin : OpenFile) : Prop where
  image : file.image.ReadsLike twin.image
  body_eq : twin.body = file.body
  inodeNumber_eq : twin.inodeNumber = file.inodeNumber
  blocks_eq : twin.blocks = file.blocks
  position_eq : twin.position = file.position
  loaded : file.CacheIsLoaded
  twin_loaded : twin.CacheIsLoaded

theorem ofBody_alike {image twin : Image} (hlike : image.ReadsLike twin) (inodeNumber : UInt32)
    (body : FileBody) :
    Alike ReadsLike (ofBody image inodeNumber body) (ofBody twin inodeNumber body) := by
  unfold ofBody
  rw [hlike.superblock_eq, hlike.fragments_eq]
  refine (Alike.of_eq rfl).bind ?_
  rintro ⟨blocks, stop⟩ _ - rfl
  refine .refuse fun _ => ?_
  refine .refuse fun _ => .ok ?_
  exact ⟨hlike, rfl, rfl, rfl, rfl, nofun, nofun⟩

variable {file twin : OpenFile} (hlike : file.ReadsLike twin)
include hlike

theorem ReadsLike.loadBlock (index : Nat) : twin.loadBlock index = file.loadBlock index := by
  obtain ⟨image, body, inodeNumber, blocks, position, cache⟩ := file
  obtain ⟨twinImage, _, _, _, _, twinCache⟩ := twin
  obtain ⟨himage, rfl, rfl, rfl, rfl, -, -⟩ := hlike
  change image.ReadsLike twinImage at himage
  simp only [OpenFile.loadBlock, loadData, loadTail, blockLength, blockSize, size,
    himage.superblock_eq, himage.fragments_eq, himage.readStored_eq]

theorem ReadsLike.bytesAt (offset count : Nat) :
    twin.bytesAt offset count = file.bytesAt offset count := by
  have hblocks : ∀ count index, twin.loadBlocks count index = file.loadBlocks count index := by
    intro count
    induction count with
    | zero => exact fun _ => rfl
    | succ count ih =>
        intro index
        rw [loadBlocks, loadBlocks, hlike.loadBlock, ih]
  have hsize : twin.size = file.size := by rw [size, size, hlike.body_eq]
  have hblockSize : twin.blockSize = file.blockSize := by
    rw [blockSize, blockSize, hlike.image.superblock_eq]
  unfold OpenFile.bytesAt
  rw [hsize, hblockSize]
  simp only [hblocks]

theorem ReadsLike.readAt (offset count : Nat) :
    ((OpenFile.readAt offset count).run twin).1 = ((OpenFile.readAt offset count).run file).1 ∧
      ((OpenFile.readAt offset count).run file).2.ReadsLike
        ((OpenFile.readAt offset count).run twin).2 := by
  obtain ⟨kept, hrun, hkept⟩ := readAt_readsAs offset count file.cache hlike.loaded
  obtain ⟨twinKept, htwinRun, htwinKept⟩ :=
    readAt_readsAs offset count twin.cache hlike.twin_loaded
  change (OpenFile.readAt offset count).run file = _ at hrun
  change (OpenFile.readAt offset count).run twin = _ at htwinRun
  rw [hrun, htwinRun]
  exact ⟨hlike.bytesAt offset count, hlike.image, hlike.body_eq, hlike.inodeNumber_eq,
    hlike.blocks_eq, hlike.position_eq, hkept, htwinKept⟩

theorem ReadsLike.advance (count : Nat) :
    ((OpenFile.advance count).run twin).1 = ((OpenFile.advance count).run file).1 ∧
      ((OpenFile.advance count).run file).2.ReadsLike ((OpenFile.advance count).run twin).2 := by
  have hposition := hlike.position_eq
  obtain ⟨hresult, hlast⟩ := hlike.readAt file.position count
  rw [OpenFile.advance, Action.run_bind_of_ok (Action.run_get file),
    Action.run_bind_of_ok (Action.run_get twin), hposition]
  rcases hrun : (OpenFile.readAt file.position count).run file with ⟨error | data, last⟩
  · rcases htwin : (OpenFile.readAt file.position count).run twin with ⟨result, twinLast⟩
    rw [hrun, htwin] at hresult hlast
    obtain rfl : result = .error error := hresult
    rw [Action.run_bind_of_error hrun, Action.run_bind_of_error htwin]
    exact ⟨rfl, hlast⟩
  · rcases htwin : (OpenFile.readAt file.position count).run twin with ⟨result, twinLast⟩
    rw [hrun, htwin] at hresult hlast
    obtain rfl : result = .ok data := hresult
    rw [Action.run_bind_of_ok hrun, Action.run_bind_of_ok htwin]
    cases hsum : Trapping.add file.position data.length with
    | error error => exact ⟨rfl, hlast⟩
    | ok position =>
        exact ⟨rfl, hlast.image, hlast.body_eq, hlast.inodeNumber_eq, hlast.blocks_eq, rfl,
          hlast.loaded, hlast.twin_loaded⟩

theorem ReadsLike.seek (anchor : Anchor) (distance : Int) :
    ((OpenFile.seek anchor distance).run twin).1 = ((OpenFile.seek anchor distance).run file).1 ∧
      ((OpenFile.seek anchor distance).run file).2.ReadsLike
        ((OpenFile.seek anchor distance).run twin).2 := by
  have htarget : twin.seekTarget anchor distance = file.seekTarget anchor distance := by
    unfold seekTarget size
    rw [hlike.position_eq, hlike.body_eq]
  rw [seek_eq, seek_eq, htarget]
  by_cases houtside : file.seekTarget anchor distance < 0 ∨
      (addressSpace : Int) ≤ file.seekTarget anchor distance
  · rw [if_pos houtside, if_pos houtside]
    exact ⟨rfl, hlike⟩
  · rw [if_neg houtside, if_neg houtside]
    exact ⟨rfl, hlike.image, hlike.body_eq, hlike.inodeNumber_eq, hlike.blocks_eq, rfl,
      hlike.loaded, hlike.twin_loaded⟩

end OpenFile

namespace Image

variable {image twin : Image} (hlike : image.ReadsLike twin)
include hlike

theorem ReadsLike.openFile (path : String) :
    Alike OpenFile.ReadsLike (image.openFile path) (twin.openFile path) := by
  unfold Image.openFile
  refine (Alike.of_eq (hlike.resolve path true)).bind ?_
  rintro _ inode - rfl
  cases inode.body with
  | file body => exact OpenFile.ofBody_alike hlike _ body
  | _ => exact .error _

theorem ReadsLike.content (path : String) : twin.content path = image.content path := by
  have halike := hlike.openFile path
  unfold Image.content
  generalize image.openFile path = opened, twin.openFile path = twinOpened at halike ⊢
  cases halike with
  | error error => rfl
  | @ok file other hfile =>
      have hsize : other.size = file.size := by
        rw [OpenFile.size, OpenFile.size, hfile.body_eq]
      rw [Except.ok_bind, Except.ok_bind, hsize]
      exact (hfile.readAt 0 file.size).1

end Image

end TreeImage
