import Std.Time.DateTime.Timestamp
import TreeImage.Codec.Zlib
import TreeImage.Command.Memory
import TreeImage.Command.Run

namespace TreeImage.Machine

open TreeImage.Command

def ioError : IO.Error → IoError
  | .noFileOrDirectory .. => HostFault.missing.toIo
  | .noSuchThing .. => HostFault.missing.toIo
  | .permissionDenied .. => ⟨.permissionDenied, "Permission denied (os error 13)"⟩
  | .alreadyExists _ code details => ⟨.alreadyExists, s!"{details} (os error {code})"⟩
  | .inappropriateType _ code details =>
      if code = 20 then HostFault.notADirectory.toIo
      else if code = 21 then HostFault.isADirectory.toIo
      else ⟨.other, s!"{details} (os error {code})"⟩
  | error => ⟨.other, toString error⟩

def attempt {α : Type} (action : IO α) : IO (Except IoError α) := do
  try return .ok (← action)
  catch error => return .error (ioError error)

def kind : IO.FS.FileType → HostKind
  | .dir => .directory
  | .file => .file
  | .symlink => .symlink
  | .other => .special

def usualMode : HostKind → UInt16
  | .directory => 0o755
  | .symlink => 0o777
  | _ => 0o644

def status (metadata : IO.FS.Metadata) : HostStatus where
  kind := kind metadata.type
  mode := usualMode (kind metadata.type)
  uid := 0
  gid := 0
  mtime :=
    if metadata.modified.sec < 0 then none
    else some (UInt32.ofNat metadata.modified.sec.toNat)

/-- The last name of a path, and the path of the directory that holds it. -/
def splitLast (path : String) : String × String :=
  let reversed := path.toList.reverse.dropWhile (· == '/')
  let name := String.ofList (reversed.takeWhile (· != '/')).reverse
  let directory := String.ofList (reversed.dropWhile (· != '/')).reverse
  (if directory = "" then "." else directory, name)

def entryAt (path : String) : IO IO.FS.DirEntry := do
  let (directory, name) := splitLast path
  return ⟨← IO.FS.realPath directory, if name = "" then "." else name⟩

def host : Host IO where
  status path := attempt do
    return status (← (← IO.FS.realPath path).metadata)
  linkStatus path := attempt do
    return status (← (← entryAt path).path.symlinkMetadata)
  names path := attempt do
    let entries ← (← IO.FS.realPath path).readDir
    return entries.toList.map fun entry => Text.utf8 entry.fileName
  -- A target that the machine does not tell is given as bytes that are no text.
  target _ := return .ok [0xff]
  load path := attempt do
    return (← IO.FS.readBinFile path).data.toList
  save path content := attempt do
    IO.FS.writeBinFile path ⟨content.toArray⟩
  now := do
    let time ← Std.Time.Timestamp.now
    return UInt32.ofNat time.toSecondsSinceUnixEpoch.val.toNat

end TreeImage.Machine

def main (line : List String) : IO UInt32 := do
  let outcome ← TreeImage.Command.run TreeImage.Codecs.machine TreeImage.Machine.host line
  let output ← IO.getStdout
  output.write ⟨outcome.output.toArray⟩
  output.flush
  IO.eprint outcome.complaint
  return outcome.exitCode.toUInt32
