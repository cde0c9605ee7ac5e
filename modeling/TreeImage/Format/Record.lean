import TreeImage.Error.Basic
import TreeImage.Bytes.Word

namespace TreeImage.Format

/-- Where a record starts: the position of its metadata block in the table, and the place inside
the decompressed block. -/
structure RecordRef where
  block : UInt32
  offset : UInt16
  deriving DecidableEq, Repr, Inhabited

namespace RecordRef

/-- The reference in one word: 16 bits of offset below 32 bits of block.  Bits above them are
dropped. -/
def ofUInt64 (raw : UInt64) : RecordRef := ⟨(raw >>> 16).toUInt32, raw.toUInt16⟩

def toUInt64 (ref : RecordRef) : UInt64 := (ref.block.toUInt64 <<< 16) ||| ref.offset.toUInt64

end RecordRef

structure FragmentEntry where
  start : UInt64
  size : UInt32
  deriving DecidableEq, Repr

namespace FragmentEntry

def encode (entry : FragmentEntry) : Bytes :=
  word64 entry.start ++ word32 entry.size ++ word32 0

/-- Reads an entry; what its last four bytes hold does not matter. -/
def decode (bytes : Bytes) : FragmentEntry where
  start := UInt64.ofNat (fromLittleEndian (bytes.take 8))
  size := UInt32.ofNat (fromLittleEndian ((bytes.drop 8).take 4))

end FragmentEntry

/-- Something whose next bytes can be taken. -/
class RecordSource (σ : Type) where
  take : Nat → σ → Except Error (Bytes × σ)

abbrev Decoder (σ α : Type) := StateT σ (Except Error) α

instance : RecordSource Bytes where
  take count bytes :=
    let (head, rest) := bytes.splitAt count
    if head.length < count then
      .error (.corruptTable (.recordTruncated count head.length))
    else .ok (head, rest)

theorem take_bytes (count : Nat) (bytes : Bytes) :
    RecordSource.take count bytes =
      if bytes.length < count then
        .error (.corruptTable (.recordTruncated count bytes.length))
      else .ok (bytes.take count, bytes.drop count) := by
  simp only [RecordSource.take, List.splitAt_eq, List.length_take]
  by_cases hshort : bytes.length < count
  · rw [if_pos (by omega), if_pos hshort, Nat.min_eq_right (by omega)]
  · rw [if_neg (by omega), if_neg hshort]

theorem take_bytes_append (head rest : Bytes) :
    RecordSource.take head.length (head ++ rest) = .ok (head, rest) := by
  rw [take_bytes, if_neg (by simp)]
  simp

variable {σ : Type} [RecordSource σ]

def bytes (count : Nat) : Decoder σ Bytes := RecordSource.take count

def u16 : Decoder σ UInt16 := do
  return UInt16.ofNat (fromLittleEndian (← bytes 2))

def u32 : Decoder σ UInt32 := do
  return UInt32.ofNat (fromLittleEndian (← bytes 4))

def u64 : Decoder σ UInt64 := do
  return UInt64.ofNat (fromLittleEndian (← bytes 8))

def damaged {α : Type} (damage : Damage) : Decoder σ α := throw (.corruptTable damage)

end TreeImage.Format
