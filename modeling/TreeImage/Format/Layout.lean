/-!
The fixed numbers of the image format.

An image is a superblock of 96 bytes; the stored data and fragment blocks of its files; the inode
table and the directory table, both made of metadata blocks; the fragment, export and id tables,
each a run of metadata blocks followed by the list of their positions; and zeros up to a multiple
of 4096.  All numbers in it are little-endian.
-/

namespace TreeImage.Format

def magic : UInt32 := 0x73717368

def versionMajor : UInt16 := 4

def versionMinor : UInt16 := 0

def superblockSize : Nat := 96

def minBlockSize : Nat := 4096

def maxBlockSize : Nat := 1048576

def defaultBlockSize : UInt32 := 131072

/-- What a metadata block holds at most once it is decompressed. -/
def metadataBlockSize : Nat := 8192

/-- The bit of a metadata block's header that says it is stored as it is. -/
def metadataRaw : Nat := 0x8000

/-- The bit of a data block's size word that says it is stored as it is. -/
def dataRaw : Nat := 0x1000000

/-- The fragment index of a file without a fragment. -/
def noFragment : UInt32 := 0xffffffff

/-- The index of missing extended attributes. -/
def noXattr : UInt32 := 0xffffffff

/-- The position of a table that is left out. -/
def noTable : UInt64 := 0xffffffffffffffff

/-- The most entries under one header of a directory listing. -/
def maxRunLength : Nat := 256

/-- What a directory's size counts for its two implicit entries. -/
def listingBias : Nat := 3

def imageAlignment : Nat := 4096

def fragmentEntrySize : Nat := 16

def idEntrySize : Nat := 4

def exportEntrySize : Nat := 8

def maxLinkTarget : Nat := 4096

/-- Whether a number is a block size: a power of two within the bounds. -/
def isBlockSize (size : Nat) : Bool :=
  minBlockSize ≤ size && size ≤ maxBlockSize && 1 <<< size.log2 == size

namespace Flag

/-- The inode and directory tables are stored as they are. -/
def rawInodes : UInt16 := 0x0001

def rawData : UInt16 := 0x0002

def rawFragments : UInt16 := 0x0008

/-- No file has a fragment. -/
def noFragments : UInt16 := 0x0010

def alwaysFragments : UInt16 := 0x0020

def exportable : UInt16 := 0x0080

def noXattrs : UInt16 := 0x0200

end Flag

end TreeImage.Format
