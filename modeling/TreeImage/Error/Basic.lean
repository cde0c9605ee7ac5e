import TreeImage.Error.Damage

namespace TreeImage

/-- Why a superblock, or the geometry asked for a new image, is refused. -/
inductive HeaderFault
  | truncated (available expected : Nat)
  | magic (found : Nat)
  | version (major minor : Nat)
  | blockSize (size : Nat)
  | blockLog (log size : Nat)
  | compression (id : Nat)
  | tableOrder
  | rootReference
  | claimsTooMuch (claimed available : Nat)
  | unusableBlockSize (size smallest largest : Nat)
  | windowTooSmall (size : Nat)
  | described (text : String)
  deriving DecidableEq, Repr

inductive Limitation
  | codec (name : String)
  | metadataTable
  | distinctIds (most : Nat)
  | idTable
  | fileSize (cursor most : Nat)
  | described (text : String)
  deriving DecidableEq, Repr

/-- The kinds of failure that a storage or a host file reports. -/
inductive IoKind
  | notFound
  | permissionDenied
  | alreadyExists
  | notADirectory
  | isADirectory
  | invalidInput
  | invalidData
  | unexpectedEof
  | writeZero
  | other
  deriving DecidableEq, Repr

structure IoError where
  kind : IoKind
  text : String
  deriving DecidableEq, Repr

/-- What a step on 64-bit words or on bytes and tables in memory cannot do: a sum or a product past
the last word, a difference below zero, a division by zero, a look outside, or a buffer for more
bytes than memory has addresses for. -/
inductive Trap
  | sum
  | difference
  | product
  | quotient
  | outside
  | capacity
  deriving DecidableEq, Repr

inductive Error
  | invalidPath (path : String)
  | notFound (path : String)
  | alreadyExists (path : String)
  | typeMismatch (path expected : String)
  | notADirectory (path : String)
  | notASymlink (path : String)
  | invalidFormat (fault : HeaderFault)
  | corruptTable (damage : Damage)
  | brokenSymlink (path : String)
  | symlinkLoop (path : String)
  | alreadyFinalized
  | fileClosed
  | unsupported (limitation : Limitation)
  | io (error : IoError)
  /-- A step that has no result.  It is a fault of this library and not of an image. -/
  | trap (cause : Trap)
  /-- A walk deeper than its bound. -/
  | treeTooDeep (path : String)
  deriving DecidableEq, Repr

namespace HeaderFault

def message : HeaderFault → String
  | .truncated available expected => s!"truncated superblock: {available} of {expected} bytes"
  | .magic found => s!"bad magic 0x{Text.paddedHex 8 found}"
  | .version major minor => s!"unsupported version {major}.{minor}"
  | .blockSize size => s!"invalid block size {size}"
  | .blockLog log size => s!"block log {log} does not match block size {size}"
  | .compression id => s!"unknown compression id {id}"
  | .tableOrder => "table offsets out of order"
  | .rootReference => "root inode offset outside a metadata block"
  | .claimsTooMuch claimed available =>
      s!"image claims {claimed} bytes but only {available} are available"
  | .unusableBlockSize size smallest largest =>
      s!"block size {size} must be a power of two between {smallest} and {largest}"
  | .windowTooSmall size => s!"region of {size} bytes cannot hold an image"
  | .described text => text

end HeaderFault

namespace Limitation

def message : Limitation → String
  | .codec name => s!"{name} compression is not built into this binary"
  | .metadataTable => "metadata table larger than 4 GiB"
  | .distinctIds most => s!"more than {most} distinct uid/gid values"
  | .idTable => "id table does not fit the superblock"
  | .fileSize cursor most => s!"write at {cursor} would grow a file past {most} bytes"
  | .described text => text

end Limitation

namespace Trap

def message : Trap → String
  | .sum => "sum past the last 64-bit word"
  | .difference => "difference below zero"
  | .product => "product past the last 64-bit word"
  | .quotient => "division by zero"
  | .outside => "look outside of bytes or a table"
  | .capacity => "buffer longer than memory"

end Trap

namespace Error

def message : Error → String
  | .invalidPath path => s!"invalid path {path}"
  | .notFound path => s!"no such file or directory: {path}"
  | .alreadyExists path => s!"entry already exists: {path}"
  | .typeMismatch path expected => s!"{path} is not a {expected}"
  | .notADirectory path => s!"not a directory: {path}"
  | .notASymlink path => s!"not a symlink: {path}"
  | .invalidFormat fault => s!"invalid image format: {fault.message}"
  | .corruptTable damage => s!"corrupt table: {damage.message}"
  | .brokenSymlink path => s!"broken symlink: {path}"
  | .symlinkLoop path => s!"too many levels of symbolic links: {path}"
  | .alreadyFinalized => "image has already been finalized"
  | .fileClosed => "file handle is closed"
  | .unsupported limitation => s!"unsupported: {limitation.message}"
  | .io error => s!"I/O error: {error.text}"
  | .trap cause => cause.message
  | .treeTooDeep path => s!"tree too deep at {path}"

/-- The failure that a byte stream over an image reports for an error: failures of the storage
pass through, and the others keep their wording under the kind that fits. -/
def toIo : Error → IoError
  | .io error => error
  | error@(.notFound _) => ⟨.notFound, error.message⟩
  | error@(.corruptTable _) => ⟨.invalidData, error.message⟩
  | error@(.invalidFormat _) => ⟨.invalidData, error.message⟩
  | error => ⟨.other, error.message⟩

end Error

/-- A step on a state that may fail; a failure keeps the state that was reached. -/
abbrev Action (σ α : Type) := ExceptT Error (StateM σ) α

end TreeImage
