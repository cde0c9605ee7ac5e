import TreeImage.Build.Builder
import TreeImage.Command.Host
import TreeImage.Command.Report

namespace TreeImage.Command

/-- A builder that is being filled, and what has been staged. -/
structure Packing where
  builder : Builder
  counts : PackCounts

namespace Packing

variable {m : Type → Type} [Monad m]

abbrev Step (m : Type → Type) := ExceptT Failure m

/-- Asks the machine; a failure to answer is reported in a context if there is one. -/
def ask {α : Type} (answer : m (Except IoError α)) (context : Option String) : Step m α := do
  match ← answer with
  | .ok value => return value
  | .error error =>
      let failure := Failure.ofIo error
      throw (match context with
        | some context => failure.within context
        | none => failure)

def stage (packing : Packing) (action : Action Builder Unit) (context : String)
    (count : PackCounts → PackCounts) : Except Failure Packing :=
  match packing with
  | ⟨builder, counts⟩ =>
      match action.run builder with
      | (.ok (), builder) => .ok ⟨builder, count counts⟩
      | (.error error, _) => .error ((Failure.ofError error).within context)

def attributes (path : String) (status : HostStatus) : Action Builder Unit := do
  if let some mtime := status.mtime then Builder.setMtime path mtime
  Builder.setPermissions path status.mode
  Builder.setOwner path status.uid status.gid

def setAttributes (packing : Packing) (path : String) (status : HostStatus) :
    Except Failure Packing :=
  match packing with
  | ⟨builder, counts⟩ =>
      match (attributes path status).run builder with
      | (.ok (), builder) => .ok ⟨builder, counts⟩
      | (.error error, _) => .error (Failure.ofError error)

def skip (packing : Packing) : Packing :=
  { packing with counts := { packing.counts with skipped := packing.counts.skipped + 1 } }

/-- Stages one entry of the host; `below` stages the contents of a directory. -/
def addEntry (host : Host m) (below : String → String → Packing → Step m Packing)
    (directory imageDirectory : String) (packing : Packing) (name : Bytes) : Step m Packing := do
  match Text.ofUtf8? name with
  | none => return packing.skip
  | some name =>
      let path := Text.joinPath directory name
      let imagePath := s!"{imageDirectory}/{name}"
      let status ← ask (host.linkStatus path) none
      match status.kind with
      | .symlink =>
          match Text.ofUtf8? (← ask (host.target path) none) with
          | none => return packing.skip
          | some target =>
              let packing ← packing.stage (Builder.symlink target imagePath)
                s!"Failed to stage symlink {imagePath}"
                fun counts => { counts with symlinks := counts.symlinks + 1 }
              packing.setAttributes imagePath status
      | .directory =>
          let packing ← packing.stage (Builder.mkdir imagePath)
            s!"Failed to stage directory {imagePath}"
            fun counts => { counts with directories := counts.directories + 1 }
          let packing ← (packing.setAttributes imagePath status : Except Failure Packing)
          below path imagePath packing
      | .file =>
          let data ← ask (host.load path) (some s!"Failed to read {Text.quoted path}")
          let packing ← packing.stage (Builder.putFile imagePath data)
            s!"Failed to stage file {imagePath}"
            fun counts =>
              { counts with files := counts.files + 1, bytes := counts.bytes + data.length }
          packing.setAttributes imagePath status
      | .special => return packing.skip

/-- How deep directories of a host can lie: more names do not fit into a path. -/
def maxDepth : Nat := 4096

/-- Stages the contents of a directory of the host, at most `depth` levels. -/
def addContents (host : Host m) : (depth : Nat) → String → String → Packing → Step m Packing
  | 0, directory, _, _ =>
      throw ((Failure.simple "File name too long (os error 36)").within
        s!"Failed to read directory {Text.quoted directory}")
  | depth + 1, directory, imageDirectory, packing => do
      let names ← ask (host.names directory)
        (some s!"Failed to read directory {Text.quoted directory}")
      names.foldlM (addEntry host (addContents host depth) directory imageDirectory) packing

def addRoot (host : Host m) (directory : String) (builder : Builder) : Step m Packing := do
  let status ← ask (host.status directory) (some s!"Failed to stat {Text.quoted directory}")
  if status.kind ≠ .directory then
    throw (Failure.simple s!"{Text.quoted directory} is not a directory")
  let packing ←
    ((⟨builder, {}⟩ : Packing).setAttributes "/" status : Except Failure Packing)
  addContents host maxDepth directory "" packing

end Packing

end TreeImage.Command
