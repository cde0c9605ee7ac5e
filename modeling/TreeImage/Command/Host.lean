import TreeImage.Bytes.Word
import TreeImage.Error.Basic

namespace TreeImage.Command

inductive HostKind
  | directory
  | file
  | symlink
  | special
  deriving DecidableEq, Repr

/-- The attributes of a file of the host.  The time is missing if it lies before the epoch. -/
structure HostStatus where
  kind : HostKind
  mode : UInt16
  uid : UInt32
  gid : UInt32
  mtime : Option UInt32
  deriving DecidableEq, Repr

structure Host (m : Type → Type) where
  /-- The attributes of what a path leads to. -/
  status : String → m (Except IoError HostStatus)
  /-- The attributes of what is at a path, which may be a link. -/
  linkStatus : String → m (Except IoError HostStatus)
  names : String → m (Except IoError (List Bytes))
  target : String → m (Except IoError Bytes)
  load : String → m (Except IoError Bytes)
  /-- Makes a file with the given content, or replaces the content it has. -/
  save : String → Bytes → m (Except IoError Unit)
  /-- The time in seconds since the epoch. -/
  now : m UInt32

end TreeImage.Command
