import TreeImage.Bytes.Buffer
import TreeImage.Error.Trapping

/-!
Storages: bytes that are read and written at positions.  One call may move fewer bytes than it
is asked to, and writes may have a budget after which they are refused; a failing disk is a
storage with a small budget.
-/

namespace TreeImage

structure Storage where
  content : Buffer
  /-- How many bytes one call moves, given its address and the number asked for. -/
  grant : Nat → Nat → Nat := fun _ count => count
  /-- How many more bytes writes accept, if there is a bound. -/
  budget : Option Nat := none
  /-- How many write calls were made. -/
  writes : Nat := 0

namespace Storage

def ofBytes (bytes : Bytes) : Storage := { content := bytes.toArray }

def size (storage : Storage) : Nat := storage.content.size

/-- One read call: some of the `count` bytes from `address` on, none at the end. -/
def read (storage : Storage) (address count : Nat) : Bytes :=
  storage.content.slice address (min (storage.grant address count) count)

/-- How many of `count` bytes a write call at `address` accepts. -/
def accepted (storage : Storage) (address count : Nat) : Nat :=
  match storage.budget with
  | none => min (storage.grant address count) count
  | some budget => min budget (min (storage.grant address count) count)

/-- One write call: puts the first bytes at `address` and returns how many.  The content grows up to
`address` even if no byte is put there, except that a storage with a budget then leaves its content
as it was. -/
def write (storage : Storage) (address : Nat) (bytes : Bytes) :
    Except IoError Nat × Storage :=
  let count := storage.accepted address bytes.length
  match storage with
  | ⟨content, grant, budget, writes⟩ =>
      if budget.isSome ∧ count = 0 then (.ok 0, ⟨content, grant, budget, writes + 1⟩)
      else if addressSpace ≤ address + count then
        (.error ⟨.invalidInput, "offset too large"⟩, ⟨content, grant, budget, writes + 1⟩)
      else
        (.ok count,
          ⟨content.overwrite address (bytes.take count), grant, budget.map (· - count),
            writes + 1⟩)

end Storage

end TreeImage
