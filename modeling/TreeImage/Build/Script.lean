import TreeImage.Build.Tables
import TreeImage.Format.Superblock
import TreeImage.Table.Lookup

/-!
What writing an image does, in three steps.  The data comes first, then the tables, each of which
holds positions in those before it, then zeros up to the alignment, and the superblock last, so that
a storage that fails on the way holds no superblock of the new image.
-/

namespace TreeImage.Build

open Format Table

/-- The tables of an image with their positions, which follow one another without gaps. -/
structure Layout where
  inodeTableStart : Nat
  inodeTable : Bytes
  directoryTable : Bytes
  fragments : Lookup
  exports : Option Lookup
  ids : Lookup

namespace Layout

def directoryTableStart (layout : Layout) : Nat :=
  layout.inodeTableStart + layout.inodeTable.length

def bytesUsed (layout : Layout) : Nat := layout.ids.stop

def padding (layout : Layout) : Bytes :=
  List.replicate ((imageAlignment - layout.bytesUsed % imageAlignment) % imageAlignment) 0

/-- Writes the table of the places of all inodes, if there is to be one. -/
def writeExports (codec : Codec) (plan : Plan) (tables : Tables) (start : Nat) :
    Script (Option Lookup) :=
  if plan.options.exportTable then
    some <$> Lookup.ofEntries codec (!plan.options.rawInodes) start
      (plan.numbering.order.flatMap fun id => word64 (Tables.ref tables.refs id).toUInt64)
  else pure none

/-- Finishes the tables and writes them from the end of the data on. -/
def ofTables (codec : Codec) (plan : Plan) (tables : Tables) : Script Layout := do
  let compress := !plan.options.rawInodes
  let inodeTable ← tables.inodes.finish
  let directoryTable ← tables.directories.finish
  let inodeTableStart := plan.contents.area.position
  Script.write inodeTableStart inodeTable
  let directoryTableStart := inodeTableStart + inodeTable.length
  Script.write directoryTableStart directoryTable
  let fragments ← Lookup.ofEntries codec compress (directoryTableStart + directoryTable.length)
    (plan.contents.area.fragments.toList.flatMap FragmentEntry.encode)
  let exports ← writeExports codec plan tables fragments.stop
  let ids ← Lookup.ofEntries codec compress
    (match exports with
     | some exports => exports.stop
     | none => fragments.stop)
    tables.ids.encode
  return { inodeTableStart, inodeTable, directoryTable, fragments, exports, ids }

def pad (layout : Layout) : Script Unit :=
  if layout.padding = [] then pure () else Script.write layout.bytesUsed layout.padding

end Layout

def superblock (codec : Codec) (blockSize modificationTime : UInt32) (plan : Plan)
    (tables : Tables) (layout : Layout) : Superblock where
  inodeCount := UInt32.ofNat plan.numbering.count
  modificationTime
  blockSize
  fragmentCount := UInt32.ofNat plan.contents.area.fragments.size
  compression := codec.algorithm
  blockLog := UInt16.ofNat blockSize.toNat.log2
  flags := plan.options.flags
  idCount := UInt16.ofNat tables.ids.values.size
  root := Tables.ref tables.refs Staging.root
  bytesUsed := UInt64.ofNat layout.bytesUsed
  idTableStart := UInt64.ofNat layout.ids.indexStart
  xattrTableStart := noTable
  inodeTableStart := UInt64.ofNat layout.inodeTableStart
  directoryTableStart := UInt64.ofNat layout.directoryTableStart
  fragmentTableStart := UInt64.ofNat layout.fragments.indexStart
  exportTableStart :=
    match layout.exports with
    | some exports => UInt64.ofNat exports.indexStart
    | none => noTable

namespace Plan

def ofTree (codec : Codec) (blockSize : UInt32) (tree : Staging.Tree) (options : Options) :
    Script Plan := do
  let numbering := Numbering.ofTree tree
  let contents ← Contents.ofTree ⟨codec, blockSize.toNat, options⟩ tree numbering.order
  return { tree, numbering, contents, options }

def writeTables (codec : Codec) (plan : Plan) : Script (Tables × Layout) := do
  let tables ← Tables.ofPlan codec plan
  return (tables, ← Layout.ofTables codec plan tables)

/-- Writes what comes after the tables, and then the superblock. -/
def writeSuperblock (codec : Codec) (blockSize modificationTime : UInt32) (plan : Plan)
    (built : Tables × Layout) : Script Unit := do
  let (tables, layout) := built
  layout.pad
  tables.ids.check
  Script.write 0 (superblock codec blockSize modificationTime plan tables layout).toBytes

end Plan

end TreeImage.Build
