import TreeImage.Proofs.Codec.Zlib
import TreeImage.Proofs.Image.LinkSubstitution
import TreeImage.Proofs.Image.Written

/-!
Where the lookup tables of an opened image lie.  Opening compares the first block of every table
with the start of the directory table, and lets the directory table end at the least of these first
blocks.  A table whose blocks ascend therefore lies behind the directory table; the later blocks of
a table whose blocks do not may lie anywhere before its index.
-/

namespace TreeImage

open Format

/-- A lookup table as a superblock describes it: where its index starts, and how many entries of
which size it has. -/
structure LookupTable where
  start : UInt64
  count : Nat
  entrySize : Nat

/-- The lookup tables that an image with this superblock has. -/
def Format.Superblock.lookupTables (superblock : Superblock) : List LookupTable :=
  ⟨superblock.idTableStart, superblock.idCount.toNat, idEntrySize⟩ ::
    ((if superblock.fragmentCount = 0 then []
      else [⟨superblock.fragmentTableStart, superblock.fragmentCount.toNat, fragmentEntrySize⟩]) ++
    (if superblock.hasExport && superblock.inodeCount != 0 then
      [⟨superblock.exportTableStart, superblock.inodeCount.toNat, exportEntrySize⟩]
    else []))

namespace Image

/-- The positions of the blocks of a lookup table, in the order of its index. -/
def blockPositions (image : Image) (table : LookupTable) : Except Error (List Nat) :=
  Table.readIndex image.region table.start.toNat table.count table.entrySize
    image.superblock.bytesUsed.toNat

/-- What is known of the places of a lookup table: its blocks and its index are read one before the
other inside the used bytes, and its first block is not before the end of the directory table. -/
structure Bounds (image : Image) (table : LookupTable) (positions : List Nat) : Prop where
  index_eq : image.blockPositions table = .ok positions
  index_le : table.start.toNat + Table.indexLength (table.count * table.entrySize) ≤
    image.superblock.bytesUsed.toNat
  blocks : ∀ position ∈ positions, ∃ block,
    Table.readBlock image.region image.codec position table.start.toNat = .ok block
  first_le : ∀ first, positions.head? = some first → image.directoryTableEnd ≤ first

variable {codecs : Codecs} {region : Region} {codec : Codec} {superblock : Superblock}

theorem readBlock_of_readBlocks {limit : Nat} {positions : List Nat} {data joined : Buffer}
    (hread : Table.readBlocks region codec limit positions data = .ok joined) :
    ∀ position ∈ positions, ∃ block, Table.readBlock region codec position limit = .ok block := by
  induction positions generalizing data with
  | nil => nofun
  | cons first positions ih =>
      obtain ⟨block, hblock, hread⟩ := Except.bind_eq_ok.mp hread
      intro position hmem
      rcases List.mem_cons.mp hmem with rfl | hmem
      · exact ⟨block, hblock⟩
      · exact ih hread position hmem

/-- Every lookup table of an image is loaded when the image is opened, and the first block of each
counts for the end of the directory table. -/
theorem Opens.exists_load {ids fragments : Loaded} {exports : Option Loaded} {stop : Nat}
    (hopens : Opens codecs region codec superblock ids fragments exports stop) {table : LookupTable}
    (hmem : table ∈ superblock.lookupTables) :
    ∃ loaded, load region codec superblock table.start table.count table.entrySize = .ok loaded ∧
      ∀ floor, loaded.floor = some floor →
        floor ∈ [ids.floor, fragments.floor, exports.bind Loaded.floor].filterMap id := by
  have hids := hopens.ids_eq
  have hfragments := hopens.fragments_eq
  have hexports := hopens.exports_eq
  unfold loadIds at hids
  unfold loadFragments at hfragments
  unfold loadExports at hexports
  unfold Superblock.lookupTables at hmem
  rcases List.mem_cons.mp hmem with rfl | hmem
  · split at hids
    · cases hids
    · exact ⟨ids, hids, fun floor hfloor => by simp [hfloor]⟩
  rcases List.mem_append.mp hmem with hmem | hmem
  · by_cases hcount : superblock.fragmentCount = 0
    · rw [if_pos hcount] at hmem
      cases hmem
    · rw [if_neg hcount] at hmem hfragments
      obtain rfl := List.mem_singleton.mp hmem
      exact ⟨fragments, hfragments, fun floor hfloor => by simp [hfloor]⟩
  · by_cases hexport : (superblock.hasExport && superblock.inodeCount != 0) = true
    · rw [if_pos hexport] at hmem hexports
      obtain rfl := List.mem_singleton.mp hmem
      cases hload : load region codec superblock superblock.exportTableStart
          superblock.inodeCount.toNat exportEntrySize with
      | error error =>
          rw [hload] at hexports
          cases hexports
      | ok loaded =>
          rw [hload] at hexports
          cases hexports
          exact ⟨loaded, rfl, fun floor hfloor => by simp [hfloor]⟩
    · rw [if_neg hexport] at hmem
      cases hmem

theorem foldl_min_le_of_mem {floors : List Nat} {floor : Nat} (hmem : floor ∈ floors)
    (bound : Nat) : floors.foldl min bound ≤ floor := by
  induction floors generalizing bound with
  | nil => cases hmem
  | cons first floors ih =>
      rcases List.mem_cons.mp hmem with rfl | hmem
      · exact Nat.le_trans (foldl_min_le floors _) (Nat.min_le_right ..)
      · exact ih hmem _

/-- The directory table of an image that is opened ends at or after its start, and every lookup
table starts behind it; so do all blocks of a lookup table whose index lists them in ascending
order. -/
theorem bounds_of_ofRegion {image : Image} (hopen : ofRegion codecs region = .ok image) :
    image.superblock.directoryTableStart.toNat ≤ image.directoryTableEnd ∧
      image.directoryTableEnd ≤ image.superblock.bytesUsed.toNat ∧
      ∀ table ∈ image.superblock.lookupTables, ∃ positions,
        image.Bounds table positions ∧
          (positions.Pairwise (· ≤ ·) →
            ∀ position ∈ positions, image.directoryTableEnd ≤ position) := by
  obtain ⟨superblock, codec, ids, fragments, exports, hopens, rfl⟩ := exists_opens_of_ofRegion hopen
  have hchecked := (readSuperblock_eq_ok hopens.superblock_eq).1
  refine ⟨le_foldl_min hchecked.directories_le_bytesUsed hopens.stop_le, foldl_min_le _ _, ?_⟩
  intro table htable
  obtain ⟨loaded, hload, hfloor⟩ := hopens.exists_load htable
  obtain ⟨positions, hindex, hload⟩ := Except.bind_eq_ok.mp hload
  obtain ⟨entries, hentries, hload⟩ := Except.bind_eq_ok.mp hload
  cases hload
  obtain ⟨-, data, hdata, -⟩ := Table.readEntries_eq_ok.mp hentries
  obtain ⟨-, -, hend, -⟩ := Table.readIndex_eq_ok.mp hindex
  have hbounds : (assemble region codec superblock ids fragments exports).Bounds table positions :=
    ⟨hindex, hend, readBlock_of_readBlocks hdata,
      fun first hfirst => foldl_min_le_of_mem (hfloor first hfirst) _⟩
  refine ⟨positions, hbounds, ?_⟩
  intro hascending position hmem
  cases positions with
  | nil => cases hmem
  | cons first rest =>
      have hfirst := hbounds.first_le first rfl
      rcases List.mem_cons.mp hmem with rfl | hmem
      · exact hfirst
      · exact Nat.le_trans hfirst (List.rel_of_pairwise_cons hascending hmem)

/-- The one lookup table of a sample image has one block, which lies behind the directory table. -/
theorem bounds_of_linkedImageBytes :
    ∃ image, ofRegion Codecs.machine linkedRegion = .ok image ∧
      ∀ table ∈ image.superblock.lookupTables, ∃ positions, image.Bounds table positions := by
  obtain ⟨image, hopen, -⟩ := exists_ofRegion_linkedRegion
  refine ⟨image, hopen, fun table htable => ?_⟩
  obtain ⟨positions, hbounds, -⟩ := (bounds_of_ofRegion hopen).2.2 table htable
  exact ⟨positions, hbounds⟩

/-- The superblock of an image with 2049 ids and a root directory without entries. -/
def scatteredSuperblock : Superblock where
  inodeCount := 1
  modificationTime := 0
  blockSize := 4096
  fragmentCount := 0
  compression := .gzip
  blockLog := 12
  flags := 0
  idCount := 2049
  root := ⟨0, 0⟩
  bytesUsed := 8346
  idTableStart := 8330
  xattrTableStart := noTable
  inodeTableStart := 102
  directoryTableStart := 136
  fragmentTableStart := noTable
  exportTableStart := noTable

/-- The root of that image, which the last id owns. -/
def scatteredRoot : Inode where
  permissions := 0o755
  uidIndex := 2048
  gidIndex := 0
  mtime := 0
  inodeNumber := 1
  body := .directory
    { startBlock := 0, offset := 0, fileSize := 3, linkCount := 2, parentInode := 2,
      xattr := noXattr }

/-- The ids in the block that the index of that image names first. -/
@[irreducible]
def scatteredIds : List UInt32 := List.replicate 2048 0

/-- What that image has before its directory table; the last id is in the data area. -/
def scatteredHead : Bytes :=
  scatteredSuperblock.toBytes ++ Table.storedBlock Codecs.machine.gzip false (word32 7)
    ++ Table.storedBlock Codecs.machine.gzip false scatteredRoot.encode

/-- The bytes of that image: the index of the id table names the block with the other ids first. -/
def scatteredImageBytes : Bytes :=
  scatteredHead ++ (Table.storedBlock Codecs.machine.gzip false (scatteredIds.flatMap word32)
    ++ [136, 96].flatMap word64)

def scatteredRegion : Region := Region.ofStorage (Storage.ofBytes scatteredImageBytes) 0 0

theorem isOpen_scatteredRegion : scatteredRegion.IsOpen := ⟨fun _ _ => rfl, rfl⟩

theorem length_scatteredIds : scatteredIds.length = 2048 := by
  rw [scatteredIds, List.length_replicate]

theorem length_flatMap_scatteredIds : (scatteredIds.flatMap word32).length = 8192 := by
  rw [length_flatMap_of_length length_word32, length_scatteredIds]

theorem length_scatteredHead : scatteredHead.length = 136 := by decide +kernel

theorem length_scatteredBlock :
    (Table.storedBlock Codecs.machine.gzip false (scatteredIds.flatMap word32)).length = 8194 := by
  rw [Table.storedBlock_raw, List.length_append, length_littleEndian]
  exact congrArg (2 + ·) length_flatMap_scatteredIds

theorem length_scatteredImageBytes : scatteredImageBytes.length = 8346 := by
  rw [scatteredImageBytes, List.length_append, List.length_append, length_scatteredHead,
    length_scatteredBlock]
  rfl

theorem stores_scatteredRegion : scatteredRegion.Stores 0 scatteredImageBytes := by
  refine ⟨List.prefix_refl _, fun _ => ?_⟩
  rw [length_scatteredImageBytes]
  decide

theorem stores_scatteredIds :
    scatteredRegion.Stores 136
        (Table.storedBlock Codecs.machine.gzip false (scatteredIds.flatMap word32)) ∧
      scatteredRegion.Stores 8330 ([136, 96].flatMap word64) := by
  have hrest := stores_scatteredRegion.right
  rw [length_scatteredHead] at hrest
  have hindex := hrest.right
  rw [length_scatteredBlock] at hindex
  exact ⟨hrest.left, hindex⟩

theorem readSuperblock_scatteredRegion :
    readSuperblock scatteredRegion = .ok scatteredSuperblock := by
  have hsize : scatteredRegion.storage.size = 8346 := length_scatteredImageBytes
  refine readSuperblock_of_stores isOpen_scatteredRegion stores_scatteredRegion.left.left.left
    ⟨by decide, by decide, by decide⟩ (by decide) ?_
  rw [hsize]
  decide

theorem readIndex_scatteredRegion :
    Table.readIndex scatteredRegion 8330 2049 idEntrySize 8346 = .ok [136, 96] := by
  refine Table.readIndex_eq_ok.mpr ⟨by decide, by decide, by decide, [136, 96].flatMap word64,
    stores_scatteredIds.2.read isOpen_scatteredRegion, ?_, by decide⟩
  rw [blocksOf_flatMap (by decide) length_word64]
  decide

theorem readEntries_scatteredRegion :
    Table.readEntries scatteredRegion Codecs.machine.gzip [136, 96] 8330 2049 idEntrySize =
      .ok ((scatteredIds ++ [7]).map word32) := by
  have hlength := length_flatMap_scatteredIds
  have hblock := length_scatteredBlock
  have hfirst : Table.readBlock scatteredRegion Codecs.machine.gzip 136 8330 =
      .ok (scatteredIds.flatMap word32, _) :=
    Table.readBlock_of_stores false nofun isOpen_scatteredRegion
      (List.ne_nil_of_length_pos (by omega)) (by unfold metadataBlockSize; omega)
      stores_scatteredIds.1 (by omega)
  have hsecond : Table.readBlock scatteredRegion Codecs.machine.gzip 96 8330 = .ok (word32 7, _) :=
    Table.readBlock_of_stores false nofun isOpen_scatteredRegion (by decide) (by decide)
      stores_scatteredRegion.left.left.right (by decide)
  have hjoined : (scatteredIds.flatMap word32) ++ word32 7 =
      (scatteredIds ++ [7]).flatMap word32 := by
    rw [List.flatMap_append, List.flatMap_singleton]
  refine Table.readEntries_eq_ok.mpr ⟨by decide, (Buffer.pushAll #[]
    (scatteredIds.flatMap word32)).pushAll (word32 7), ?_, ?_, ?_⟩
  · rw [Table.readBlocks, hfirst, Except.ok_bind]
    exact Except.bind_eq_ok.mpr ⟨_, hsecond, rfl⟩
  · rw [← Array.length_toList, Buffer.toList_pushAll, Buffer.toList_pushAll, List.nil_append,
      List.length_append, hlength, length_word32]
    decide
  · rw [Buffer.toList_slice, Buffer.toList_pushAll, Buffer.toList_pushAll, List.nil_append,
      List.drop_zero, hjoined, List.take_of_length_le]
    · exact blocksOf_flatMap (by decide) length_word32 _
    · rw [length_flatMap_of_length length_word32, List.length_append, length_scatteredIds]
      decide

/-- An image is opened although a later block of its id table is in the data area, and an id is
taken from there. -/
theorem exists_block_before_inodeTable :
    ∃ image,
      ofRegion Codecs.machine scatteredRegion = .ok image ∧
        ∃ table ∈ image.superblock.lookupTables, ∃ positions,
          image.blockPositions table = .ok positions ∧ 96 ∈ positions ∧
            96 < image.superblock.inodeTableStart.toNat ∧ 96 < image.directoryTableEnd ∧
            image.idAt 2048 = .ok 7 := by
  have hload : loadIds scatteredRegion Codecs.machine.gzip scatteredSuperblock =
      .ok ⟨(scatteredIds ++ [7]).map word32, some 136⟩ :=
    Except.bind_eq_ok.mpr ⟨_, readIndex_scatteredRegion,
      Except.bind_eq_ok.mpr ⟨_, readEntries_scatteredRegion, rfl⟩⟩
  have hopens : Opens Codecs.machine scatteredRegion Codecs.machine.gzip scatteredSuperblock
      ⟨(scatteredIds ++ [7]).map word32, some 136⟩ Loaded.empty none 136 := by
    refine ⟨readSuperblock_scatteredRegion, rfl, hload, rfl, rfl, ?_⟩
    intro floor hmem
    exact Nat.le_of_eq (List.mem_singleton.mp hmem).symm
  refine ⟨_, hopens.ofRegion (by decide),
    ⟨scatteredSuperblock.idTableStart, scatteredSuperblock.idCount.toNat, idEntrySize⟩,
    List.mem_cons_self, [136, 96], readIndex_scatteredRegion, by decide, by decide, by decide, ?_⟩
  have hids := toArray_map_map word32 (fun entry => UInt32.ofNat (fromLittleEndian entry))
    ofNat_fromLittleEndian_word32 (scatteredIds ++ [7]).toArray
  have hlast : (scatteredIds ++ [7]).toArray[2048]? = some 7 := by
    rw [List.getElem?_toArray, List.getElem?_append_right (Nat.le_of_eq length_scatteredIds),
      length_scatteredIds]
    rfl
  unfold idAt assemble
  dsimp only
  rw [hids]
  exact hlast ▸ rfl

end Image

end TreeImage
