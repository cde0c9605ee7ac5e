import TreeImage.Codec.Basic
import TreeImage.Format.Layout
import TreeImage.Format.Record
import TreeImage.Storage.Region

/-!
Metadata tables.  Records are appended to a stream that is cut into metadata blocks; a record may
straddle two of them, and the reference of a record is where its first byte lands.  A block is a
16-bit header with the stored length, in which the top bit says that the payload is stored as it is,
and a payload of at most 8192 bytes once decompressed.
-/

namespace TreeImage

open Format

namespace Table

def encodeBlock (codec : Codec) (compress : Bool) (payload : Bytes) : Except Error Bytes := do
  let (stored, isCompressed) ← if compress then codec.shrink payload else pure (payload, false)
  return littleEndian 2 (stored.length + if isCompressed then 0 else metadataRaw) ++ stored

/-- Reads the block at a position of a region, which must end at or before `limit`: its payload
and its stored length without the header. -/
def readBlock (region : Region) (codec : Codec) (position limit : Nat) :
    Except Error (Bytes × Nat) := do
  if limit < position + 2 then
    throw (.corruptTable (.metadataBlockOutside position limit))
  let header := fromLittleEndian (← region.read position 2)
  let length := header % metadataRaw
  if length = 0 ∨ metadataBlockSize < length then
    throw (.corruptTable (.metadataBlockLength position length))
  let stop ← Trapping.add (position + 2) length
  if limit < stop then
    throw (.corruptTable (.metadataBlockOverrun position))
  let stored ← region.read (position + 2) length
  if metadataRaw ≤ header then return (stored, length)
  else return (← codec.decompress stored metadataBlockSize, length)

end Table

/-- A table under construction: the finished blocks and the bytes of the block begun. -/
structure TableWriter where
  codec : Codec
  compress : Bool
  output : Buffer
  pending : Buffer

namespace TableWriter

def empty (codec : Codec) (compress : Bool) : TableWriter := ⟨codec, compress, #[], #[]⟩

/-- Where the next byte lands. -/
def position (writer : TableWriter) : RecordRef :=
  ⟨UInt32.ofNat writer.output.size, UInt16.ofNat writer.pending.size⟩

def flush : TableWriter → Except Error TableWriter
  | ⟨codec, compress, output, pending⟩ =>
      if pending.isEmpty then .ok ⟨codec, compress, output, pending⟩
      else do
        let block ← Table.encodeBlock codec compress pending.toList
        return ⟨codec, compress, output.pushAll block, #[]⟩

/-- Adds one byte and finishes the block if that fills it. -/
def push : TableWriter → UInt8 → Except Error TableWriter
  | ⟨codec, compress, output, pending⟩, b =>
      let pending := pending.push b
      if pending.size = metadataBlockSize then flush ⟨codec, compress, output, pending⟩
      else .ok ⟨codec, compress, output, pending⟩

/-- The size that a table may have when a record is appended: all positions must fit 32 bits. -/
def maxOutput : Nat := 0xffffffff - 2 * metadataBlockSize

def append (writer : TableWriter) (record : Bytes) : Except Error (RecordRef × TableWriter) :=
  if maxOutput < writer.output.size then .error (.unsupported .metadataTable)
  else do
    let place := writer.position
    return (place, ← record.foldlM push writer)

def finish (writer : TableWriter) : Except Error Bytes := do
  return (← writer.flush).output.toList

end TableWriter

/-- A metadata table: the part of a region between two positions. -/
structure RecordTable where
  region : Region
  codec : Codec
  start : Nat
  stop : Nat

/-- A position in a table: the unread bytes of the current block, and where the next one is,
counted from the start of the table. -/
structure TableCursor where
  table : RecordTable
  unread : Bytes
  next : Nat

namespace RecordTable

def size (table : RecordTable) : Nat := table.stop - table.start

/-- Reads the block at a position counted from the start of the table. -/
def readBlock (table : RecordTable) (position : Nat) : Except Error (Bytes × Nat) := do
  let address ← Trapping.add table.start position
  Table.readBlock table.region table.codec address table.stop

def cursor (table : RecordTable) (ref : RecordRef) : Except Error TableCursor := do
  let (payload, stored) ← table.readBlock ref.block.toNat
  if payload.length < ref.offset.toNat then
    throw (.corruptTable (.recordOffset ref.offset.toNat payload.length ref.block.toNat))
  let unread ← Trapping.slice payload ref.offset.toNat payload.length
  let next ← Trapping.add ref.block.toNat (2 + stored)
  return ⟨table, unread, next⟩

/-- Takes bytes after those already taken, going on to the next block where one ends. -/
def collect (table : RecordTable) (count : Nat) (unread : Bytes) (next : Nat) (got : Bytes) :
    Except Error (Bytes × TableCursor) :=
  let (head, rest) := unread.splitAt count
  if head.length = count then .ok (got ++ head, ⟨table, rest, next⟩)
  else if table.stop < table.start then .error (.trap .difference)
  else if table.size ≤ next then .error (.corruptTable .recordPastEnd)
  else
    match table.readBlock next with
    | .error error => .error error
    | .ok (payload, stored) =>
        if addressSpace ≤ next + (2 + stored) then .error (.trap .sum)
        else collect table (count - head.length) payload (next + (2 + stored)) (got ++ head)
termination_by table.size - next

end RecordTable

instance : RecordSource TableCursor where
  take count cursor := cursor.table.collect count cursor.unread cursor.next []

end TreeImage
