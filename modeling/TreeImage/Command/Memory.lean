import TreeImage.Command.Host
import TreeImage.Text.Path

namespace TreeImage.Command

inductive StoredFile
  | directory
  | file (content : Bytes)
  | symlink (target : Bytes)
  | special
  deriving DecidableEq, Repr

/-- A file in memory: its names from the root down, what it is, and its permission bits. -/
structure StoredEntry where
  path : List Bytes
  file : StoredFile
  mode : UInt16
  deriving DecidableEq, Repr

structure Memory where
  entries : Array StoredEntry

inductive HostFault
  | missing
  | notADirectory
  | isADirectory
  | notALink
  | tooManyLinks
  | noDevice
  | nameTooLong
  deriving DecidableEq, Repr

def HostFault.toIo : HostFault → IoError
  | .missing => ⟨.notFound, "No such file or directory (os error 2)"⟩
  | .notADirectory => ⟨.notADirectory, "Not a directory (os error 20)"⟩
  | .isADirectory => ⟨.isADirectory, "Is a directory (os error 21)"⟩
  | .notALink => ⟨.invalidInput, "Invalid argument (os error 22)"⟩
  | .tooManyLinks => ⟨.other, "Too many levels of symbolic links (os error 40)"⟩
  | .noDevice => ⟨.other, "No such device or address (os error 6)"⟩
  | .nameTooLong => ⟨.other, "File name too long (os error 36)"⟩

namespace StoredFile

def kind : StoredFile → HostKind
  | .directory => .directory
  | .file _ => .file
  | .symlink _ => .symlink
  | .special => .special

end StoredFile

namespace Memory

def empty : Memory := ⟨#[]⟩

def rootMode : UInt16 := 0o755

def newMode : UInt16 := 0o644

def find? (memory : Memory) (path : List Bytes) : Option StoredEntry :=
  if path = [] then some ⟨[], .directory, rootMode⟩
  else memory.entries.find? (·.path == path)

/-- Puts a file at a path of names, in place of one that is there. -/
def insert (memory : Memory) (entry : StoredEntry) : Memory :=
  if memory.entries.any (·.path == entry.path) then
    ⟨memory.entries.map fun old => if old.path = entry.path then entry else old⟩
  else ⟨memory.entries.push entry⟩

/-- Where a path leads: to a file, or to a name that its directory does not have. -/
inductive Place
  | present (entry : StoredEntry)
  | absent (path : List Bytes)
  deriving DecidableEq, Repr

/-- A link that is to be followed: its target, the directory that holds it, from the root down,
and the names after it. -/
structure Detour where
  target : Bytes
  directory : List Bytes
  rest : List Bytes

/-- The pieces between the slashes of a path in bytes, empty ones included. -/
def piecesOf (path : Bytes) : List Bytes :=
  path.foldr
    (fun b pieces =>
      if b = 47 then [] :: pieces
      else
        match pieces with
        | [] => [[b]]
        | piece :: pieces => (b :: piece) :: pieces)
    [[]]

/-- The names in a path.  A slash after the last of them is kept as an empty name. -/
def namesOf (path : Bytes) : List Bytes :=
  let names := (piecesOf path).filter (· ≠ [])
  if names ≠ [] ∧ path.getLast? = some 47 then names ++ [[]] else names

def here : Bytes := [46]

def above : Bytes := [46, 46]

def longestName : Nat := 255

/-- What the last name of a path is wanted for: what is there, what it leads to, or a place to put
a file. -/
inductive Purpose
  | inspect
  | follow
  | create
  deriving DecidableEq, Repr

/-- Goes down from a directory along names; what follows a link that has to be followed is left to
`detour`. -/
def descend (memory : Memory) (purpose : Purpose) (detour : Detour → Except HostFault Place) :
    List Bytes → (directory : List Bytes) → Except HostFault Place
  | [], directory =>
      match memory.find? directory with
      | some entry => .ok (.present entry)
      | none => .error .missing
  | name :: rest, directory =>
      if name = [] ∨ name = here then descend memory purpose detour rest directory
      else if name = above then descend memory purpose detour rest directory.dropLast
      else if purpose = .create ∧ rest = [[]] then .error .isADirectory
      else if longestName < name.length then .error .nameTooLong
      else
        let path := directory ++ [name]
        match memory.find? path, rest with
        | none, [] => .ok (.absent path)
        | none, _ :: _ => .error .missing
        | some ⟨_, .symlink target, mode⟩, rest =>
            if rest = [] ∧ purpose = .inspect then .ok (.present ⟨path, .symlink target, mode⟩)
            else detour ⟨target, directory, rest⟩
        | some ⟨_, .directory, _⟩, rest => descend memory purpose detour rest path
        | some entry, [] => .ok (.present entry)
        | some _, _ :: _ => .error .notADirectory

/-- Goes down from a directory along names and follows at most `budget` links. -/
def resolveFrom (memory : Memory) (purpose : Purpose) :
    (budget : Nat) → List Bytes → (directory : List Bytes) → Except HostFault Place
  | 0 => memory.descend purpose fun _ => .error .tooManyLinks
  | budget + 1 => memory.descend purpose fun detour =>
      resolveFrom memory purpose budget (namesOf detour.target ++ detour.rest)
        (if detour.target.head? = some 47 then [] else detour.directory)

def maxLinks : Nat := 40

def pathBound : Nat := 4096

def resolve (memory : Memory) (purpose : Purpose) (path : String) : Except HostFault Place :=
  let bytes := Text.utf8 path
  if bytes = [] then .error .missing
  else if pathBound ≤ bytes.length then .error .nameTooLong
  else memory.resolveFrom purpose maxLinks (namesOf bytes) []

def entry (memory : Memory) (purpose : Purpose) (path : String) :
    Except HostFault StoredEntry := do
  match ← memory.resolve purpose path with
  | .present entry => return entry
  | .absent _ => throw .missing

def statusOf (entry : StoredEntry) : HostStatus :=
  ⟨entry.file.kind, entry.mode, 0, 0, some 0⟩

def names (memory : Memory) (path : String) : Except HostFault (List Bytes) := do
  let entry ← memory.entry .follow path
  match entry.file with
  | .directory =>
      return memory.entries.toList.filterMap fun child =>
        if child.path.dropLast = entry.path then child.path.getLast? else none
  | _ => throw .notADirectory

def load (memory : Memory) (path : String) : Except HostFault Bytes := do
  match (← memory.entry .follow path).file with
  | .file content => return content
  | .directory => throw .isADirectory
  | _ => throw .noDevice

def target (memory : Memory) (path : String) : Except HostFault Bytes := do
  match (← memory.entry .inspect path).file with
  | .symlink target => return target
  | _ => throw .notALink

/-- The files after the one that a path leads to was made or replaced. -/
def save (memory : Memory) (path : String) (content : Bytes) : Except HostFault Memory := do
  match ← memory.resolve .create path with
  | .absent path => return memory.insert ⟨path, .file content, newMode⟩
  | .present ⟨path, .file _, mode⟩ => return memory.insert ⟨path, .file content, mode⟩
  | .present ⟨_, .directory, _⟩ => throw .isADirectory
  | .present _ => throw .noDevice

def answer {α : Type} (ask : Memory → Except HostFault α) : StateM Memory (Except IoError α) :=
  fun memory => ((ask memory).mapError HostFault.toIo, memory)

/-- The machine with its files in memory, whose clock stands still. -/
def host : Host (StateM Memory) where
  status path := answer fun memory => (memory.entry .follow path).map statusOf
  linkStatus path := answer fun memory => (memory.entry .inspect path).map statusOf
  names path := answer fun memory => memory.names path
  target path := answer fun memory => memory.target path
  load path := answer fun memory => memory.load path
  save path content := fun memory =>
    match memory.save path content with
    | .ok memory => (.ok (), memory)
    | .error fault => (.error fault.toIo, memory)
  now := return 0

end Memory

end TreeImage.Command
