import TreeImage.Format.Kind
import TreeImage.Format.Layout
import TreeImage.Format.Record

namespace TreeImage.Format

inductive DeviceKind
  | block
  | character
  deriving DecidableEq, Repr

inductive ChannelKind
  | fifo
  | socket
  deriving DecidableEq, Repr

/-- Where the listing of a directory is, and its place in the tree. -/
structure DirectoryBody where
  /-- Position of the listing's metadata block in the directory table. -/
  startBlock : UInt32
  offset : UInt16
  /-- Bytes of the listing, and three more for the two implicit entries. -/
  fileSize : UInt32
  linkCount : UInt32
  parentInode : UInt32
  xattr : UInt32
  deriving DecidableEq, Repr

structure FileBody where
  blocksStart : UInt64
  fileSize : UInt64
  /-- How many bytes of the content are in blocks of zeros that are not stored. -/
  sparse : UInt64
  linkCount : UInt32
  fragment : UInt32
  fragmentOffset : UInt32
  xattr : UInt32
  /-- One size word for each data block. -/
  blockSizes : List UInt32
  deriving DecidableEq, Repr

structure SymlinkBody where
  linkCount : UInt32
  target : Bytes
  xattr : UInt32
  deriving DecidableEq, Repr

inductive InodeBody
  | directory (body : DirectoryBody)
  | file (body : FileBody)
  | symlink (body : SymlinkBody)
  | device (kind : DeviceKind) (linkCount number xattr : UInt32)
  | channel (kind : ChannelKind) (linkCount xattr : UInt32)
  deriving DecidableEq, Repr

structure Inode where
  permissions : UInt16
  uidIndex : UInt16
  gidIndex : UInt16
  mtime : UInt32
  inodeNumber : UInt32
  body : InodeBody
  deriving DecidableEq, Repr

def FileBody.hasFragment (body : FileBody) : Bool := body.fragment != noFragment

/-- The number of size words of a file: one for every full block, and one more for a tail that
is not in a fragment. -/
def blockCount (fileSize blockSize : Nat) (hasFragment : Bool) : Nat :=
  if hasFragment then fileSize / blockSize else (fileSize + blockSize - 1) / blockSize

/-- The number of size words of a file, for which the block size must not be zero. -/
def wordCount (fileSize blockSize : Nat) (hasFragment : Bool) : Except Error Nat :=
  if blockSize = 0 then .error (.trap .quotient)
  else .ok (blockCount fileSize blockSize hasFragment)

namespace InodeBody

def kind : InodeBody → EntryKind
  | .directory _ => .directory
  | .file _ => .file
  | .symlink _ => .symlink
  | .device .block _ _ _ => .blockDevice
  | .device .character _ _ _ => .charDevice
  | .channel .fifo _ _ => .fifo
  | .channel .socket _ _ => .socket

/-- Whether a body has values that only the extended form holds. -/
def isExtended : InodeBody → Bool
  | .directory body => 0xffff < body.fileSize.toNat || body.xattr != noXattr
  | .file body =>
      0xffffffff < body.blocksStart.toNat || 0xffffffff < body.fileSize.toNat
        || body.sparse != 0 || body.linkCount != 1 || body.xattr != noXattr
  | .symlink body => body.xattr != noXattr
  | .device _ _ _ xattr => xattr != noXattr
  | .channel _ _ xattr => xattr != noXattr

def encode (body : InodeBody) : Bytes :=
  let extended := body.isExtended
  match body with
  | .directory d =>
      if extended then
        word32 d.linkCount ++ word32 d.fileSize ++ word32 d.startBlock ++ word32 d.parentInode
          ++ word16 0 ++ word16 d.offset ++ word32 d.xattr
      else
        word32 d.startBlock ++ word32 d.linkCount ++ word16 d.fileSize.toUInt16
          ++ word16 d.offset ++ word32 d.parentInode
  | .file f =>
      (if extended then
        word64 f.blocksStart ++ word64 f.fileSize ++ word64 f.sparse ++ word32 f.linkCount
          ++ word32 f.fragment ++ word32 f.fragmentOffset ++ word32 f.xattr
      else
        word32 f.blocksStart.toUInt32 ++ word32 f.fragment ++ word32 f.fragmentOffset
          ++ word32 f.fileSize.toUInt32) ++ f.blockSizes.flatMap word32
  | .symlink s =>
      word32 s.linkCount ++ littleEndian 4 s.target.length ++ s.target
        ++ (if extended then word32 s.xattr else [])
  | .device _ linkCount number xattr =>
      word32 linkCount ++ word32 number ++ (if extended then word32 xattr else [])
  | .channel _ linkCount xattr =>
      word32 linkCount ++ (if extended then word32 xattr else [])

/-- The logical size: the length of a file or of a link's target, or what a directory records. -/
def size : InodeBody → Nat
  | .directory body => body.fileSize.toNat
  | .file body => body.fileSize.toNat
  | .symlink body => body.target.length
  | .device _ _ _ _ => 0
  | .channel _ _ _ => 0

section Reading

variable {σ : Type} [RecordSource σ]

/-- Skips the index entries of a directory: two words and a name each. -/
def skipIndex : (count : Nat) → Decoder σ Unit
  | 0 => return ()
  | count + 1 => do
      let _ ← u32
      let _ ← u32
      let nameLength ← u32
      let _ ← bytes (nameLength.toNat + 1)
      skipIndex count

def decodeDirectory (extended : Bool) : Decoder σ DirectoryBody := do
  if extended then
    let linkCount ← u32
    let fileSize ← u32
    let startBlock ← u32
    let parentInode ← u32
    let indexCount ← u16
    let offset ← u16
    let xattr ← u32
    skipIndex indexCount.toNat
    return { startBlock, offset, fileSize, linkCount, parentInode, xattr }
  else
    let startBlock ← u32
    let linkCount ← u32
    let fileSize ← u16
    let offset ← u16
    let parentInode ← u32
    return { startBlock, offset, fileSize := fileSize.toUInt32, linkCount, parentInode,
             xattr := noXattr }

/-- Reads size words after those already read, which are given latest first. -/
def decodeWords : (count : Nat) → List UInt32 → Decoder σ (List UInt32)
  | 0, words => return words.reverse
  | count + 1, words => do
      let word ← u32
      decodeWords count (word :: words)

/-- Reads a file body; the block size says how many size words it has. -/
def decodeFile (blockSize : Nat) (extended : Bool) : Decoder σ FileBody := do
  if extended then
    let blocksStart ← u64
    let fileSize ← u64
    let sparse ← u64
    let linkCount ← u32
    let fragment ← u32
    let fragmentOffset ← u32
    let xattr ← u32
    let count ← (wordCount fileSize.toNat blockSize (fragment != noFragment) : Except Error Nat)
    let blockSizes ← decodeWords count []
    return { blocksStart, fileSize, sparse, linkCount, fragment, fragmentOffset, xattr,
             blockSizes }
  else
    let blocksStart ← u32
    let fragment ← u32
    let fragmentOffset ← u32
    let fileSize ← u32
    let count ← (wordCount fileSize.toNat blockSize (fragment != noFragment) : Except Error Nat)
    let blockSizes ← decodeWords count []
    return { blocksStart := blocksStart.toUInt64, fileSize := fileSize.toUInt64, sparse := 0,
             linkCount := 1, fragment, fragmentOffset, xattr := noXattr, blockSizes }

/-- Reads the attribute word that only the extended form has. -/
def decodeXattr (extended : Bool) : Decoder σ UInt32 :=
  if extended then u32 else return noXattr

def decodeSymlink (inodeNumber : UInt32) (extended : Bool) : Decoder σ SymlinkBody := do
  let linkCount ← u32
  let size ← u32
  if maxLinkTarget < size.toNat then
    damaged (.linkTargetTooLong inodeNumber.toNat size.toNat)
  else
    let target ← bytes size.toNat
    let xattr ← decodeXattr extended
    return { linkCount, target, xattr }

def decode (blockSize : Nat) (inodeNumber : UInt32) (extended : Bool) :
    EntryKind → Decoder σ InodeBody
  | .directory => return .directory (← decodeDirectory extended)
  | .file => return .file (← decodeFile blockSize extended)
  | .symlink => return .symlink (← decodeSymlink inodeNumber extended)
  | .blockDevice => return .device .block (← u32) (← u32) (← decodeXattr extended)
  | .charDevice => return .device .character (← u32) (← u32) (← decodeXattr extended)
  | .fifo => return .channel .fifo (← u32) (← decodeXattr extended)
  | .socket => return .channel .socket (← u32) (← decodeXattr extended)

end Reading

end InodeBody

namespace Inode

def kind (inode : Inode) : EntryKind := inode.body.kind

def size (inode : Inode) : Nat := inode.body.size

/-- The code of the kind in the form that the inode is written in. -/
def typeCode (inode : Inode) : Nat :=
  if inode.body.isExtended then inode.kind.code + EntryKind.extendedOffset else inode.kind.code

def encode (inode : Inode) : Bytes :=
  littleEndian 2 inode.typeCode ++ word16 inode.permissions ++ word16 inode.uidIndex
    ++ word16 inode.gidIndex ++ word32 inode.mtime ++ word32 inode.inodeNumber
    ++ inode.body.encode

/-- Reads an inode; the block size says how many size words a file has. -/
def decode {σ : Type} [RecordSource σ] (blockSize : Nat) : Decoder σ Inode := do
  let code ← u16
  match EntryKind.ofCode? code.toNat with
  | none => damaged (.unknownInodeType code.toNat)
  | some kind =>
      let extended := decide (EntryKind.extendedOffset < code.toNat)
      let permissions ← u16
      let uidIndex ← u16
      let gidIndex ← u16
      let mtime ← u32
      let inodeNumber ← u32
      let body ← InodeBody.decode blockSize inodeNumber extended kind
      return { permissions, uidIndex, gidIndex, mtime, inodeNumber, body }

end Inode

end TreeImage.Format
