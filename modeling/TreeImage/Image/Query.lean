import TreeImage.Image.OpenFile
import TreeImage.Image.Resolve
import TreeImage.Walk

namespace TreeImage

open Format

structure Metadata where
  kind : EntryKind
  size : Nat
  permissions : UInt16
  uid : UInt32
  gid : UInt32
  mtime : UInt32
  inodeNumber : UInt32
  deriving DecidableEq, Repr

namespace Image

/-- The attributes in an inode, with the owner and the group from the id table. -/
def metadataOf (image : Image) (inode : Inode) : Except Error Metadata := do
  let uid ← image.idAt inode.uidIndex
  let gid ← image.idAt inode.gidIndex
  return { kind := inode.kind
           size := inode.size
           permissions := inode.permissions
           uid
           gid
           mtime := inode.mtime
           inodeNumber := inode.inodeNumber }

/-- The entries of the directory at a path, in stored order; links are followed. -/
def entries (image : Image) (path : String) : Except Error (List ListingEntry) := do
  let inode ← image.resolve path true
  match inode.body with
  | .directory body => image.readListing body
  | _ => throw (.notADirectory path)

def metadata (image : Image) (path : String) : Except Error Metadata := do
  image.metadataOf (← image.resolve path true)

/-- The attributes of the entry at a path, which may be a link. -/
def linkMetadata (image : Image) (path : String) : Except Error Metadata := do
  image.metadataOf (← image.resolve path false)

def openFile (image : Image) (path : String) : Except Error OpenFile := do
  let inode ← image.resolve path true
  match inode.body with
  | .file body => OpenFile.ofBody image inode.inodeNumber body
  | _ => throw (.typeMismatch path "regular file")

def content (image : Image) (path : String) : Except Error Bytes := do
  let file ← image.openFile path
  ((OpenFile.readAt 0 file.size).run file).1

def linkTarget (image : Image) (path : String) : Except Error String := do
  let inode ← image.resolve path false
  match inode.body with
  | .symlink body =>
      match Text.ofUtf8? body.target with
      | some target => return target
      | none => throw (.corruptTable (.linkTargetEncoding path))
  | _ => throw (.notASymlink path)

/-- The inode with a number, found through the export table. -/
def inodeWithNumber (image : Image) (number : UInt32) : Except Error Inode :=
  match image.exports with
  | none => .error (.notFound s!"inode {number}: image has no export table")
  | some exports =>
      match if number = 0 then none else exports[number.toNat - 1]? with
      | none => .error (.notFound s!"inode {number}")
      | some ref => do
          let inode ← image.readInode ref
          if inode.inodeNumber ≠ number then
            throw (.corruptTable (.exportMismatch number.toNat inode.inodeNumber.toNat))
          return inode

def source (image : Image) : Walk.Source := fun path => do
  return (← image.entries path).map fun entry => ⟨entry.name, entry.kind⟩

/-- How many places of inodes there are: positions in the inode table, each with an offset of
sixteen bits. -/
def inodePlaces (image : Image) : Nat := image.inodeTable.size * 0x10000

/-- How many levels a walk goes down at most.  A walk that goes deeper has been in some directory
before, with no link expanded since. -/
def walkDepth (image : Image) : Nat := (maxExpansions + 1) * image.inodePlaces

def walk {σ : Type} (image : Image) (path : String) (visit : Walk.Visitor σ) : Action σ Unit :=
  TreeImage.walk image.source image.walkDepth path visit

end Image

end TreeImage
