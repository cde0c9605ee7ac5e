namespace TreeImage.Format

inductive EntryKind
  | directory
  | file
  | symlink
  | blockDevice
  | charDevice
  | fifo
  | socket
  deriving DecidableEq, Repr, Inhabited

namespace EntryKind

def code : EntryKind → Nat
  | .directory => 1
  | .file => 2
  | .symlink => 3
  | .blockDevice => 4
  | .charDevice => 5
  | .fifo => 6
  | .socket => 7

/-- The distance between the basic and the extended code of a kind. -/
def extendedOffset : Nat := 7

def ofCode? : Nat → Option EntryKind
  | 1 | 8 => some .directory
  | 2 | 9 => some .file
  | 3 | 10 => some .symlink
  | 4 | 11 => some .blockDevice
  | 5 | 12 => some .charDevice
  | 6 | 13 => some .fifo
  | 7 | 14 => some .socket
  | _ => none

@[simp] theorem ofCode?_code (kind : EntryKind) : ofCode? kind.code = some kind := by
  cases kind <;> rfl

@[simp] theorem ofCode?_code_add (kind : EntryKind) :
    ofCode? (kind.code + extendedOffset) = some kind := by
  cases kind <;> rfl

end EntryKind

end TreeImage.Format
