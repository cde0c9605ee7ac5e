import TreeImage.Codec.Basic
import TreeImage.Format.Layout
import TreeImage.Format.Record

namespace TreeImage.Format

structure Superblock where
  inodeCount : UInt32
  modificationTime : UInt32
  blockSize : UInt32
  fragmentCount : UInt32
  compression : Algorithm
  blockLog : UInt16
  flags : UInt16
  idCount : UInt16
  root : RecordRef
  bytesUsed : UInt64
  idTableStart : UInt64
  xattrTableStart : UInt64
  inodeTableStart : UInt64
  directoryTableStart : UInt64
  fragmentTableStart : UInt64
  exportTableStart : UInt64
  deriving DecidableEq, Repr

namespace Superblock

def hasFlag (superblock : Superblock) (flag : UInt16) : Bool := superblock.flags &&& flag != 0

def hasExport (superblock : Superblock) : Bool := superblock.exportTableStart != noTable

def toBytes (superblock : Superblock) : Bytes :=
  word32 magic ++ word32 superblock.inodeCount ++ word32 superblock.modificationTime
    ++ word32 superblock.blockSize ++ word32 superblock.fragmentCount
    ++ littleEndian 2 superblock.compression.id ++ word16 superblock.blockLog
    ++ word16 superblock.flags ++ word16 superblock.idCount
    ++ word16 versionMajor ++ word16 versionMinor
    ++ word64 superblock.root.toUInt64 ++ word64 superblock.bytesUsed
    ++ word64 superblock.idTableStart ++ word64 superblock.xattrTableStart
    ++ word64 superblock.inodeTableStart ++ word64 superblock.directoryTableStart
    ++ word64 superblock.fragmentTableStart ++ word64 superblock.exportTableStart

@[simp] theorem length_toBytes (superblock : Superblock) :
    superblock.toBytes.length = superblockSize := by
  unfold toBytes superblockSize
  repeat rw [List.length_append]
  simp only [length_word16, length_word32, length_word64, length_littleEndian]

/-- Whether the tables lie in order inside the used bytes. -/
def tablesInOrder (superblock : Superblock) : Bool :=
  superblockSize ≤ superblock.inodeTableStart.toNat
    && superblock.inodeTableStart ≤ superblock.directoryTableStart
    && superblock.directoryTableStart ≤ superblock.bytesUsed
    && superblock.idTableStart ≤ superblock.bytesUsed

/-- Reads the fields of a superblock in their order and checks them. -/
def decode : Decoder Bytes Superblock := do
  let foundMagic ← u32
  let inodeCount ← u32
  let modificationTime ← u32
  let blockSize ← u32
  let fragmentCount ← u32
  let compressionId ← u16
  let blockLog ← u16
  let flags ← u16
  let idCount ← u16
  let major ← u16
  let minor ← u16
  let root ← u64
  let bytesUsed ← u64
  let idTableStart ← u64
  let xattrTableStart ← u64
  let inodeTableStart ← u64
  let directoryTableStart ← u64
  let fragmentTableStart ← u64
  let exportTableStart ← u64
  if foundMagic ≠ magic then
    throw (.invalidFormat (.magic foundMagic.toNat))
  if major ≠ versionMajor ∨ minor ≠ versionMinor then
    throw (.invalidFormat (.version major.toNat minor.toNat))
  if !isBlockSize blockSize.toNat then
    throw (.invalidFormat (.blockSize blockSize.toNat))
  if blockSize.toNat.log2 ≠ blockLog.toNat then
    throw (.invalidFormat (.blockLog blockLog.toNat blockSize.toNat))
  match Algorithm.ofId? compressionId.toNat with
  | none => throw (.invalidFormat (.compression compressionId.toNat))
  | some compression =>
      let superblock : Superblock :=
        { inodeCount, modificationTime, blockSize, fragmentCount, compression, blockLog, flags,
          idCount, root := RecordRef.ofUInt64 root, bytesUsed, idTableStart, xattrTableStart,
          inodeTableStart, directoryTableStart, fragmentTableStart, exportTableStart }
      if !superblock.tablesInOrder then throw (.invalidFormat .tableOrder)
      if metadataBlockSize ≤ superblock.root.offset.toNat then
        throw (.invalidFormat .rootReference)
      return superblock

def parse (bytes : Bytes) : Except Error Superblock :=
  if bytes.length < superblockSize then
    .error (.invalidFormat (.truncated bytes.length superblockSize))
  else (decode.run bytes).map Prod.fst

end Superblock

end TreeImage.Format
