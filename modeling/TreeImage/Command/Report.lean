import TreeImage.Image.Query

namespace TreeImage.Command

open Format

/-- A failed command: its message, and the causes from the nearest to the farthest. -/
structure Failure where
  message : String
  causes : List String
  deriving DecidableEq, Repr

namespace Failure

def simple (message : String) : Failure := ⟨message, []⟩

/-- The failure that an error is; that of a storage has the storage's own text for its cause. -/
def ofError (error : Error) : Failure :=
  match error with
  | .io cause => ⟨error.message, [cause.text]⟩
  | _ => simple error.message

def ofIo (error : IoError) : Failure := simple error.text

def within (context : String) (failure : Failure) : Failure :=
  ⟨context, failure.message :: failure.causes⟩

def indented (indent text : String) : String :=
  String.join (text.toList.map fun c => if c = '\n' then "\n" ++ indent else String.singleton c)

/-- A number in a field of the given width, at its right end. -/
def rightAligned (width : Nat) (text : String) : String :=
  String.ofList (List.replicate (width - text.length) ' ') ++ text

def numbered : (next : Nat) → List String → List String
  | _, [] => []
  | next, cause :: causes =>
      (rightAligned 5 (toString next) ++ ": " ++ indented "       " cause)
        :: numbered (next + 1) causes

/-- The lines of the causes, which are numbered if there are several. -/
def causeLines : List String → List String
  | [] => []
  | [cause] => ["", "Caused by:", "    " ++ indented "    " cause]
  | causes => "" :: "Caused by:" :: numbered 0 causes

def report (failure : Failure) : String :=
  String.join ((("Error: " ++ failure.message) :: causeLines failure.causes).map (· ++ "\n"))

end Failure

def kindLetter : EntryKind → String
  | .directory => "d"
  | .file => "-"
  | .symlink => "l"
  | .blockDevice => "b"
  | .charDevice => "c"
  | .fifo => "p"
  | .socket => "s"

def octal (mode : UInt16) : String :=
  let digits := Nat.toDigits 8 mode.toNat
  String.ofList (List.replicate (4 - digits.length) '0' ++ digits)

def entryLine (metadata : Metadata) (name : String) : String :=
  kindLetter metadata.kind ++ octal metadata.permissions
    ++ " " ++ Failure.rightAligned 5 (toString metadata.uid.toNat)
    ++ " " ++ Failure.rightAligned 5 (toString metadata.gid.toNat)
    ++ " " ++ Failure.rightAligned 10 (toString metadata.size)
    ++ " " ++ name

def tableStart (start : UInt64) : String :=
  if start = noTable then "none" else toString start.toNat

def superblockLines (superblock : Superblock) : List String :=
  [s!"compression:      {superblock.compression.name}",
    s!"block size:       {superblock.blockSize.toNat}",
    s!"inodes:           {superblock.inodeCount.toNat}",
    s!"fragments:        {superblock.fragmentCount.toNat}",
    s!"ids:              {superblock.idCount.toNat}",
    s!"flags:            0x{Text.paddedHex 4 superblock.flags.toNat}",
    s!"modified:         {superblock.modificationTime.toNat}",
    s!"bytes used:       {superblock.bytesUsed.toNat}",
    s!"inode table:      {superblock.inodeTableStart.toNat}",
    s!"directory table:  {superblock.directoryTableStart.toNat}",
    s!"fragment table:   {tableStart superblock.fragmentTableStart}",
    s!"export table:     {tableStart superblock.exportTableStart}",
    s!"id table:         {superblock.idTableStart.toNat}"]

structure PackCounts where
  directories : Nat := 0
  files : Nat := 0
  symlinks : Nat := 0
  skipped : Nat := 0
  bytes : Nat := 0
  deriving DecidableEq, Repr

def packLines (image : String) (counts : PackCounts) (size : Nat) : List String :=
  let staged :=
    s!"{counts.directories} directories, {counts.files} files, {counts.symlinks} symlinks"
  s!"{image}: {staged} ({counts.bytes} bytes of content) -> {size} bytes"
    :: if counts.skipped = 0 then [] else [s!"skipped {counts.skipped} unsupported entries"]

end TreeImage.Command
