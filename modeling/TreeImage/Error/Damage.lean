import TreeImage.Text.Printable

namespace TreeImage

inductive Damage
  /-- A zlib stream that its library could not read. -/
  | stream (cause : String)
  /-- A zstd frame that its library could not read. -/
  | frame (cause : String)
  | pastLimit (limit : Nat)
  | recordTruncated (wanted left : Nat)
  | unknownInodeType (code : Nat)
  | linkTargetTooLong (inode size : Nat)
  | listingRunTooLong (count limit : Nat)
  | entryReference (offset : Nat)
  | unknownEntryType (code : Nat)
  | entryNameEncoding
  | entryName (name : String)
  | metadataBlockOutside (position limit : Nat)
  | metadataBlockLength (position length : Nat)
  | metadataBlockOverrun (position : Nat)
  | recordOffset (offset held block : Nat)
  | recordPastEnd
  | lookupIndexPastEnd (position blocks limit : Nat)
  | lookupBlockOrder
  | lookupTooShort (held expected : Nat)
  | emptyIdTable
  | lookupOverlap
  | idIndex (index : Nat)
  | linkTargetEncoding (link : String)
  | exportMismatch (number found : Nat)
  | rootNotDirectory
  | listingSize (size : Nat)
  | dataBlockTooLong (inode length : Nat)
  | dataBlocksOverflow (inode : Nat)
  | dataBlocksPastEnd (inode : Nat)
  | fragmentIndex (inode fragment : Nat)
  | blockLength (inode block length expected : Nat)
  | blockMissing (inode block : Nat)
  | tailOutside (inode start stop fragment length : Nat)
  | storedOutside (position length : Nat)
  | described (text : String)
  deriving DecidableEq, Repr

namespace Damage

def message : Damage → String
  | .stream cause => s!"zlib stream: {cause}"
  | .frame cause => s!"zstd frame: {cause}"
  | .pastLimit limit => s!"block decompressed past its {limit} byte limit"
  | .recordTruncated wanted left => s!"record truncated: wanted {wanted} bytes, {left} left"
  | .unknownInodeType code => s!"unknown inode type {code}"
  | .linkTargetTooLong inode size => s!"inode {inode}: symlink target of {size} bytes"
  | .listingRunTooLong count limit => s!"directory run of {count} entries exceeds {limit}"
  | .entryReference offset =>
      s!"directory entry inode offset {offset} outside a metadata block"
  | .unknownEntryType code => s!"unknown entry type {code}"
  | .entryNameEncoding => "directory entry name is not UTF-8"
  | .entryName name => s!"invalid entry name {Text.quoted name}"
  | .metadataBlockOutside position limit =>
      s!"metadata block at {position} starts outside its table (ends at {limit})"
  | .metadataBlockLength position length =>
      s!"metadata block at {position} has stored length {length}"
  | .metadataBlockOverrun position => s!"metadata block at {position} overruns its table"
  | .recordOffset offset held block =>
      s!"offset {offset} beyond the {held} bytes of metadata block {block}"
  | .recordPastEnd => "record runs past the end of its table"
  | .lookupIndexPastEnd position blocks limit =>
      s!"lookup index at {position} ({blocks} blocks) runs past {limit}"
  | .lookupBlockOrder => "lookup table block positioned after its index"
  | .lookupTooShort held expected => s!"lookup table holds {held} bytes, expected {expected}"
  | .emptyIdTable => "image has an empty id table"
  | .lookupOverlap => "lookup table overlaps the directory table"
  | .idIndex index => s!"id index {index} outside the id table"
  | .linkTargetEncoding link => s!"symlink {link} has a non-UTF-8 target"
  | .exportMismatch number found => s!"export table entry {number} points at inode {found}"
  | .rootNotDirectory => "root inode is not a directory"
  | .listingSize size => s!"directory size {size} is below the minimum"
  | .dataBlockTooLong inode length =>
      s!"inode {inode}: data block of {length} bytes exceeds the block size"
  | .dataBlocksOverflow inode => s!"inode {inode}: data blocks overflow the image"
  | .dataBlocksPastEnd inode => s!"inode {inode}: data blocks run into the inode table"
  | .fragmentIndex inode fragment =>
      s!"inode {inode}: fragment {fragment} outside the fragment table"
  | .blockLength inode block length expected =>
      s!"inode {inode}: block {block} decoded to {length} bytes, expected {expected}"
  | .blockMissing inode block =>
      s!"inode {inode}: block {block} is past the stored blocks and there is no fragment"
  | .tailOutside inode start stop fragment length =>
      s!"inode {inode}: tail {start}..{stop} outside fragment {fragment} of {length} bytes"
  | .storedOutside position length =>
      s!"data block at {position} ({length} bytes) lies outside the data area"
  | .described text => text

end Damage

end TreeImage
