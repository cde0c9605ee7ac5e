import TreeImage.Build.IdTable
import TreeImage.Build.Numbering
import TreeImage.Build.Placement
import TreeImage.Format.Inode
import TreeImage.Format.Listing
import TreeImage.Table.Records

namespace TreeImage.Build

open Format
open Staging (NodeId Node Tree)

structure Plan where
  tree : Tree
  numbering : Numbering
  contents : Contents
  options : Options

/-- The tables under construction, and the places of the inodes already written by the numbers of
their nodes. -/
structure Tables where
  ids : IdTable
  inodes : TableWriter
  directories : TableWriter
  refs : Array RecordRef

namespace Tables

/-- The tables without records, for a tree of `size` nodes. -/
def empty (codec : Codec) (compress : Bool) (size : Nat) : Tables where
  ids := IdTable.empty
  inodes := TableWriter.empty codec compress
  directories := TableWriter.empty codec compress
  refs := Array.replicate size default

def ref (refs : Array RecordRef) (id : NodeId) : RecordRef := refs[id]?.getD default

def listing (plan : Plan) (refs : Array RecordRef) (id : NodeId) : List ListingEntry :=
  (plan.tree.children id).map fun (name, child) =>
    { name
      kind := plan.tree.kind child
      inodeNumber := plan.numbering.number child
      ref := ref refs child }

/-- The number of links to a directory: its own two, and one from each directory in it. -/
def directoryLinks (tree : Tree) (id : NodeId) : UInt32 :=
  2 + UInt32.ofNat ((tree.children id).countP fun entry => tree.isDirectory entry.2)

def fileBody (data : Buffer) (placement : Placement) : FileBody where
  blocksStart := UInt64.ofNat placement.start
  fileSize := UInt64.ofNat data.size
  sparse := UInt64.ofNat placement.sparse
  linkCount := 1
  fragment :=
    match placement.tail with
    | some tail => tail.fragment
    | none => noFragment
  fragmentOffset :=
    match placement.tail with
    | some tail => tail.offset
    | none => 0
  xattr := noXattr
  blockSizes := placement.blockSizes.toList

/-- Writes the listing of a directory and returns the body of its inode. -/
def addListing (plan : Plan) (refs : Array RecordRef) (id : NodeId) (directories : TableWriter) :
    Except Error (DirectoryBody × TableWriter) := do
  let bytes := Listing.encode (listing plan refs id)
  let (place, directories) ← directories.append bytes
  return ({ startBlock := place.block
            offset := place.offset
            fileSize := UInt32.ofNat bytes.length + UInt32.ofNat listingBias
            linkCount := directoryLinks plan.tree id
            parentInode := plan.numbering.parentNumber id
            xattr := noXattr }, directories)

/-- The body of a node's inode; a directory has its listing written. -/
def addBody (plan : Plan) (refs : Array RecordRef) (id : NodeId) (node : Node)
    (directories : TableWriter) : Except Error (InodeBody × TableWriter) :=
  match node.content with
  | .directory _ => do
      let (body, directories) ← addListing plan refs id directories
      return (.directory body, directories)
  | .file data => .ok (.file (fileBody data (plan.contents.placement id)), directories)
  | .symlink target =>
      .ok (.symlink { linkCount := 1, target := Text.utf8 target, xattr := noXattr }, directories)

/-- Writes the inode of a node, and before it the listing if the node is a directory. -/
def addNode (plan : Plan) (tables : Tables) (id : NodeId) : Except Error Tables :=
  match plan.tree.node? id, tables with
  | none, tables => .ok tables
  | some node, ⟨ids, inodes, directories, refs⟩ => do
      let (body, directories) ← addBody plan refs id node directories
      let (uidIndex, ids) ← ids.place (plan.options.forceUid.getD node.attributes.uid)
      let (gidIndex, ids) ← ids.place (plan.options.forceGid.getD node.attributes.gid)
      let inode : Inode :=
        { permissions := node.attributes.mode
          uidIndex
          gidIndex
          mtime := node.attributes.mtime
          inodeNumber := plan.numbering.number id
          body }
      let (place, inodes) ← inodes.append inode.encode
      return ⟨ids, inodes, directories, refs.setIfInBounds id place⟩

def ofPlan (codec : Codec) (plan : Plan) : Except Error Tables :=
  plan.numbering.order.foldlM (addNode plan)
    (empty codec (!plan.options.rawInodes) plan.tree.size)

end Tables

end TreeImage.Build
