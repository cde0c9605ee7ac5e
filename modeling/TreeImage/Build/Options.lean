import TreeImage.Codec.Basic
import TreeImage.Format.Layout

namespace TreeImage.Build

open Format

structure Options where
  algorithm : Algorithm := .gzip
  /-- Write the table that finds inodes by number. -/
  exportTable : Bool := true
  /-- The owner to record for every inode, in place of its own. -/
  forceUid : Option UInt32 := none
  /-- The group to record for every inode, in place of its own. -/
  forceGid : Option UInt32 := none
  /-- Store the tail of a file as a short block of its own. -/
  noFragments : Bool := false
  /-- Store the inode and directory tables and the lookup tables as they are. -/
  rawInodes : Bool := false
  /-- Store data blocks as they are. -/
  rawData : Bool := false
  /-- Store fragment blocks as they are. -/
  rawFragments : Bool := false
  /-- Leave out blocks of zeros. -/
  sparse : Bool := true
  deriving DecidableEq, Repr

namespace Options

def flagIf (condition : Bool) (flag : UInt16) : UInt16 := if condition then flag else 0

def flags (options : Options) : UInt16 :=
  Flag.noXattrs
    ||| flagIf options.exportTable Flag.exportable
    ||| (if options.noFragments then Flag.noFragments else Flag.alwaysFragments)
    ||| flagIf options.rawInodes Flag.rawInodes
    ||| flagIf options.rawData Flag.rawData
    ||| flagIf options.rawFragments Flag.rawFragments

end Options

end TreeImage.Build
