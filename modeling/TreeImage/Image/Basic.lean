import TreeImage.Format.Inode
import TreeImage.Format.Listing
import TreeImage.Format.Record
import TreeImage.Format.Superblock
import TreeImage.Table.Lookup
import TreeImage.Table.Records

namespace TreeImage

open Format

structure Image where
  region : Region
  superblock : Superblock
  codec : Codec
  ids : Array UInt32
  fragments : Array FragmentEntry
  /-- The places of the inodes by number, the first one's first, if the image has them. -/
  exports : Option (Array RecordRef)
  directoryTableEnd : Nat

namespace Image

/-- The entries of a lookup table, and where the table starts if it has any. -/
structure Loaded where
  entries : List Bytes
  floor : Option Nat

def Loaded.empty : Loaded := ⟨[], none⟩

def load (region : Region) (codec : Codec) (superblock : Superblock) (start : UInt64)
    (count entrySize : Nat) : Except Error Loaded := do
  let positions ←
    Table.readIndex region start.toNat count entrySize superblock.bytesUsed.toNat
  let entries ← Table.readEntries region codec positions start.toNat count entrySize
  return ⟨entries, positions.head?⟩

def loadIds (region : Region) (codec : Codec) (superblock : Superblock) : Except Error Loaded :=
  if superblock.idCount = 0 then .error (.corruptTable .emptyIdTable)
  else
    load region codec superblock superblock.idTableStart superblock.idCount.toNat idEntrySize

def loadFragments (region : Region) (codec : Codec) (superblock : Superblock) :
    Except Error Loaded :=
  if superblock.fragmentCount = 0 then .ok Loaded.empty
  else
    load region codec superblock superblock.fragmentTableStart superblock.fragmentCount.toNat
      fragmentEntrySize

/-- Reads the export table, if the image has one and has inodes. -/
def loadExports (region : Region) (codec : Codec) (superblock : Superblock) :
    Except Error (Option Loaded) :=
  if superblock.hasExport && superblock.inodeCount != 0 then
    (load region codec superblock superblock.exportTableStart superblock.inodeCount.toNat
      exportEntrySize).map some
  else .ok none

/-- Reads the superblock of an image that is not longer than its region. -/
def readSuperblock (region : Region) : Except Error Superblock := do
  let available := region.size
  if available < superblockSize then
    throw (.invalidFormat (.truncated available superblockSize))
  let superblock ← Superblock.parse (← region.read 0 superblockSize)
  if available < superblock.bytesUsed.toNat then
    throw (.invalidFormat (.claimsTooMuch superblock.bytesUsed.toNat available))
  return superblock

/-- The place of an inode in an entry of the export table. -/
def decodeRef (entry : Bytes) : RecordRef :=
  RecordRef.ofUInt64 (UInt64.ofNat (fromLittleEndian entry))

def ofRegion (codecs : Codecs) (region : Region) : Except Error Image := do
  let superblock ← readSuperblock region
  let codec ← superblock.compression.codec codecs
  let ids ← loadIds region codec superblock
  let fragments ← loadFragments region codec superblock
  let exports ← loadExports region codec superblock
  let floors := [ids.floor, fragments.floor, exports.bind Loaded.floor].filterMap id
  if floors.any (· < superblock.directoryTableStart.toNat) then
    throw (.corruptTable .lookupOverlap)
  return {
    region
    superblock
    codec
    ids := (ids.entries.map fun entry => UInt32.ofNat (fromLittleEndian entry)).toArray
    fragments := (fragments.entries.map FragmentEntry.decode).toArray
    exports := exports.map fun exports => (exports.entries.map decodeRef).toArray
    directoryTableEnd := floors.foldl min superblock.bytesUsed.toNat }

def inodeTable (image : Image) : RecordTable where
  region := image.region
  codec := image.codec
  start := image.superblock.inodeTableStart.toNat
  stop := image.superblock.directoryTableStart.toNat

def directoryTable (image : Image) : RecordTable where
  region := image.region
  codec := image.codec
  start := image.superblock.directoryTableStart.toNat
  stop := image.directoryTableEnd

def readInode (image : Image) (ref : RecordRef) : Except Error Inode := do
  let cursor ← image.inodeTable.cursor ref
  let (inode, _) ← Inode.decode image.superblock.blockSize.toNat cursor
  return inode

def readListing (image : Image) (body : DirectoryBody) : Except Error (List ListingEntry) := do
  let size := body.fileSize.toNat
  if size < listingBias then throw (.corruptTable (.listingSize size))
  if size = listingBias then return []
  let cursor ← image.directoryTable.cursor ⟨body.startBlock, body.offset⟩
  let length ← Trapping.sub size listingBias
  let (data, _) ← RecordSource.take length cursor
  Listing.decode data

def idAt (image : Image) (index : UInt16) : Except Error UInt32 :=
  match image.ids[index.toNat]? with
  | some id => .ok id
  | none => .error (.corruptTable (.idIndex index.toNat))

end Image

end TreeImage
