import TreeImage.Command.Pack
import TreeImage.Command.Request
import TreeImage.Image.Query

namespace TreeImage.Command

variable {m : Type → Type} [Monad m]

/-- A step of a command: it writes output and may fail. -/
abbrev Session (m : Type → Type) := ExceptT Failure (StateT Buffer m)

/-- What a finished command leaves: its output, its complaint, and its exit code. -/
structure Outcome where
  output : Bytes
  complaint : String
  exitCode : UInt8
  deriving DecidableEq, Repr

def emit (bytes : Bytes) : Session m Unit := modify fun output => output.pushAll bytes

def say (text : String) : Session m Unit := emit (Text.utf8 text)

def sayLines (lines : List String) : Session m Unit := say (String.join (lines.map (· ++ "\n")))

def orFail {α : Type} : Except Error α → Session m α
  | .ok value => return value
  | .error error => throw (Failure.ofError error)

def ofAction {α : Type} (action : Action Buffer α) : Session m α := fun output =>
  match action.run output with
  | (.ok value, output) => return (.ok value, output)
  | (.error error, output) => return (.error (Failure.ofError error), output)

def ofStep {α : Type} (step : Packing.Step m α) : Session m α := fun output => do
  return (← step.run, output)

def openImage (codecs : Codecs) (host : Host m) (path : String) : Session m Image := do
  match ← (host.load path : m _) with
  | .ok content =>
      match Image.ofRegion codecs (Region.ofStorage (Storage.ofBytes content) 0 0) with
      | .ok image => return image
      | .error error => throw ((Failure.ofError error).within (notRead path))
  | .error error =>
      if error.kind = .isADirectory then
        throw ((Failure.ofError (.io error)).within (notRead path))
      else throw ((Failure.ofIo error).within s!"Failed to open {Text.quoted path}")
where
  /-- The report that the content of a file is no image. -/
  notRead (path : String) : String := s!"Failed to read image {Text.quoted path}"

def entryOutput (image : Image) (path name : String) : Action Buffer Unit := do
  let metadata ← (image.linkMetadata path : Except Error Metadata)
  write (entryLine metadata name)
  if metadata.kind = .symlink then
    let target ← (image.linkTarget path : Except Error String)
    write (" -> " ++ target)
  write "\n"
where
  write (text : String) : Action Buffer Unit :=
    modify fun output => output.pushAll (Text.utf8 text)

def withoutTrailingSlashes (path : String) : String :=
  String.ofList (path.toList.reverse.dropWhile (· == '/')).reverse

def listDirectory (image : Image) (path : String) : Action Buffer Unit := do
  let entries ← (image.entries path : Except Error (List Format.ListingEntry))
  entries.forM fun entry =>
    entryOutput image (withoutTrailingSlashes path ++ "/" ++ entry.name) entry.name

/-- Writes the line of a visited entry; a directory that cannot be listed ends the walk. -/
def visitOutput (image : Image) : Walk.Visitor Buffer := fun visit => do
  if let some error := visit.failure then throw error
  entryOutput image visit.path ((visit.entry.map Walk.Entry.name).getD visit.path)
  return .proceed

def listBelow (image : Image) (path : String) : Action Buffer Unit :=
  image.walk path (visitOutput image)

def printLength : Nat := 8192

/-- Prints the content of a file, up to where it cannot be read. -/
def printFile (image : Image) (path : String) : Session m Unit := do
  let file ← orFail (image.openFile path)
  let ((content, failure), _) := (OpenFile.drainBy printLength).run file
  emit content.toList
  match failure with
  | some error => throw ((Failure.ofIo error).within s!"Failed to read {path}")
  | none => return ()

def packDirectory (codecs : Codecs) (host : Host m) (directory image : String) (blockSize : UInt32)
    (options : Build.Options) : Session m Unit := do
  let saved ← (host.save image [] : m _)
  if let .error error := saved then
    throw ((Failure.ofIo error).within s!"Failed to create {Text.quoted image}")
  let now ← (host.now : m _)
  let builder ← orFail (Builder.create (Storage.ofBytes []) 0 0 blockSize fun _ => now)
  let ⟨builder, counts⟩ ← ofStep (Packing.addRoot host directory builder)
  let (result, builder) := (Builder.finalize codecs now options).run builder
  let content := builder.region.storage.content
  let saved ← (host.save image content.toList : m _)
  match result, saved with
  | .error error, _ => throw ((Failure.ofError error).within (notWritten image))
  | .ok (), .error error => throw ((Failure.ofError (.io error)).within (notWritten image))
  | .ok (), .ok () => sayLines (packLines image counts content.size)
where
  /-- The report that an image was not written. -/
  notWritten (image : String) : String := s!"Failed to write image {Text.quoted image}"

def perform (codecs : Codecs) (host : Host m) : Request → Session m Unit
  | .pack directory image blockSize options =>
      packDirectory codecs host directory image blockSize options
  | .list image path recursive => do
      let image ← openImage codecs host image
      ofAction (if recursive then listBelow image path else listDirectory image path)
  | .print image path => do
      printFile (← openImage codecs host image) path
  | .info image => do
      sayLines (superblockLines (← openImage codecs host image).superblock)

def usage : String :=
  String.join ([
    "Usage: treeimage [-v] <command>",
    "",
    "  pack <dir> <image> [-b <size>] [-c <name>] [--no-export] [--no-fragments]",
    "       [--force-uid <uid>] [--force-gid <gid>]",
    "  ls <image> [<path>] [-r]",
    "  cat <image> <path>",
    "  info <image>"].map (· ++ "\n"))

def run (codecs : Codecs) (host : Host m) (line : List String) : m Outcome := do
  match Request.parse line with
  | .error .help => return ⟨Text.utf8 usage, "", 0⟩
  | .error .misuse => return ⟨[], usage, 2⟩
  | .ok request =>
      match ← (perform codecs host request).run #[] with
      | (.ok (), output) => return ⟨output.toList, "", 0⟩
      | (.error failure, output) => return ⟨output.toList, failure.report, 1⟩

end TreeImage.Command
