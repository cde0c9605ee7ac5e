import TreeImage.Format.Kind
import TreeImage.Format.Layout
import TreeImage.Format.Record
import TreeImage.Text.Path

/-!
Directory listings.  A listing is a sequence of runs.  The header of a run gives the metadata
block that holds the inodes of its entries and a base inode number; every entry gives the place
inside that block and the distance of its inode number from the base.
-/

namespace TreeImage.Format

structure ListingEntry where
  name : String
  kind : EntryKind
  inodeNumber : UInt32
  ref : RecordRef
  deriving DecidableEq, Repr

namespace Listing

def distance (base number : UInt32) : Int := (number.toNat : Int) - base.toNat

/-- Whether an entry may stand in the run that `first` opens: its inode is in the same metadata
block, and its inode number is within reach of a signed 16-bit distance. -/
def fitsRun (first entry : ListingEntry) : Bool :=
  entry.ref.block == first.ref.block
    && -0x8000 ≤ distance first.inodeNumber entry.inodeNumber
    && distance first.inodeNumber entry.inodeNumber ≤ 0x7fff

def runTail (first : ListingEntry) (rest : List ListingEntry) : List ListingEntry :=
  (rest.take (maxRunLength - 1)).takeWhile (fitsRun first)

/-- Splits entries into runs, each a first entry and those after it. -/
def runs : List ListingEntry → List (ListingEntry × List ListingEntry)
  | [] => []
  | first :: rest =>
      (first, runTail first rest) :: runs (rest.drop (runTail first rest).length)
termination_by entries => entries.length
decreasing_by
  simp only [List.length_drop, List.length_cons]
  omega

def encodeEntry (base : UInt32) (entry : ListingEntry) : Bytes :=
  let name := Text.utf8 entry.name
  word16 entry.ref.offset ++ word16 (entry.inodeNumber - base).toUInt16
    ++ littleEndian 2 entry.kind.code ++ word16 (UInt16.ofNat name.length - 1) ++ name

def encodeRun (run : ListingEntry × List ListingEntry) : Bytes :=
  littleEndian 4 run.2.length ++ word32 run.1.ref.block ++ word32 run.1.inodeNumber
    ++ (run.1 :: run.2).flatMap (encodeEntry run.1.inodeNumber)

/-- The bytes of a listing.  A new run begins where an entry does not fit the run or the run is
full. -/
def encode (entries : List ListingEntry) : Bytes := (runs entries).flatMap encodeRun

/-- Whether a name can be an entry's: it names something and holds no slash. -/
def isEntryName (name : String) : Bool :=
  name != "" && !name.toList.contains '/' && name != "." && name != ".."

/-- The inode number at a signed distance from a base, modulo the range of numbers. -/
def atDistance (base : UInt32) (delta : UInt16) : UInt32 :=
  base + delta.toInt16.toInt32.toUInt32

def decodeEntry (block base : UInt32) : Decoder Bytes ListingEntry := do
  let offset ← u16
  let delta ← u16
  let code ← u16
  let nameLength ← u16
  let name ← bytes (nameLength.toNat + 1)
  if metadataBlockSize ≤ offset.toNat then damaged (.entryReference offset.toNat)
  else
    match EntryKind.ofCode? code.toNat with
    | none => damaged (.unknownEntryType code.toNat)
    | some kind =>
        match Text.ofUtf8? name with
        | none => damaged .entryNameEncoding
        | some name =>
            if isEntryName name then
              return { name, kind, inodeNumber := atDistance base delta, ref := ⟨block, offset⟩ }
            else damaged (.entryName name)

/-- Reads the entries of a run after those already read, which are given latest first. -/
def decodeEntries (block base : UInt32) :
    (count : Nat) → List ListingEntry → Decoder Bytes (List ListingEntry)
  | 0, entries => return entries
  | count + 1, entries => do
      let entry ← decodeEntry block base
      decodeEntries block base count (entry :: entries)

/-- Reads a run after the entries already read, which are given latest first. -/
def decodeRun (entries : List ListingEntry) : Decoder Bytes (List ListingEntry) := do
  let last ← u32
  let block ← u32
  let base ← u32
  let count := last.toNat + 1
  if maxRunLength < count then damaged (.listingRunTooLong count maxRunLength)
  else decodeEntries block base count entries

/-- Reads runs until no bytes are left; every run takes at least its header. -/
def decodeRuns : (fuel : Nat) → List ListingEntry → Bytes → Except Error (List ListingEntry)
  | 0, entries, _ => .ok entries
  | fuel + 1, entries, data =>
      if data = [] then .ok entries
      else do
        let (entries, rest) ← decodeRun entries data
        decodeRuns fuel entries rest

def decode (data : Bytes) : Except Error (List ListingEntry) :=
  (decodeRuns data.length [] data).map List.reverse

end Listing

end TreeImage.Format
