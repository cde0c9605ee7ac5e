import TreeImage.Bytes.Blocks
import TreeImage.Table.Records

namespace TreeImage.Table

open Format

/-- A lookup table: its stored blocks in order, and where they start.  The index follows them. -/
structure Lookup where
  start : Nat
  blocks : List Bytes

namespace Lookup

def place : (start : Nat) → List Bytes → List (Nat × Bytes)
  | _, [] => []
  | start, block :: blocks => (start, block) :: place (start + block.length) blocks

def placed (lookup : Lookup) : List (Nat × Bytes) := place lookup.start lookup.blocks

def indexStart (lookup : Lookup) : Nat := lookup.start + lookup.blocks.flatten.length

def index (lookup : Lookup) : Bytes := lookup.placed.flatMap fun block => littleEndian 8 block.1

def stop (lookup : Lookup) : Nat := lookup.indexStart + lookup.index.length

/-- Writes payloads in blocks from a position on, and returns the blocks. -/
def writeBlocks (codec : Codec) (compress : Bool) :
    (position : Nat) → (payloads : List Bytes) → Script (List Bytes)
  | _, [] => return []
  | position, payload :: payloads => do
      let block ← encodeBlock codec compress payload
      Script.write position block
      return block :: (← writeBlocks codec compress (position + block.length) payloads)

/-- Writes the table of the given entries from `start` on. -/
def ofEntries (codec : Codec) (compress : Bool) (start : Nat) (entries : Bytes) :
    Script Lookup := do
  let blocks ← writeBlocks codec compress start (blocksOf metadataBlockSize entries)
  let lookup : Lookup := ⟨start, blocks⟩
  Script.write lookup.indexStart lookup.index
  return lookup

end Lookup

/-- Reads the index at `start` of a table of `count` entries; it must end at or before `limit`,
and every block must start before it. -/
def readIndex (region : Region) (start count entrySize limit : Nat) :
    Except Error (List Nat) := do
  let wanted ← Trapping.mul count entrySize
  let blocks := (wanted + metadataBlockSize - 1) / metadataBlockSize
  let length ← Trapping.mul blocks 8
  if limit < start + length then
    throw (.corruptTable (.lookupIndexPastEnd start blocks limit))
  let raw ← region.read start length
  let positions := (blocksOf 8 raw).map fromLittleEndian
  if positions.any (start ≤ ·) then throw (.corruptTable .lookupBlockOrder)
  return positions

/-- Reads the blocks at the given positions, each of which must end at or before `limit`, and
joins what they hold. -/
def readBlocks (region : Region) (codec : Codec) (limit : Nat) :
    (positions : List Nat) → Buffer → Except Error Buffer
  | [], data => .ok data
  | position :: positions, data => do
      let (payload, _) ← readBlock region codec position limit
      readBlocks region codec limit positions (data.pushAll payload)

/-- Reads `count` entries through an index that starts at `start`. -/
def readEntries (region : Region) (codec : Codec) (positions : List Nat)
    (start count entrySize : Nat) : Except Error (List Bytes) := do
  let wanted ← Trapping.mul count entrySize
  let data ← readBlocks region codec start positions #[]
  if data.size < wanted then
    throw (.corruptTable (.lookupTooShort data.size wanted))
  return blocksOf entrySize (data.slice 0 wanted)

end TreeImage.Table
