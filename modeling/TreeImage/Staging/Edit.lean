import TreeImage.Format.Layout
import TreeImage.Staging.Tree

namespace TreeImage.Staging

/-- A handle for writing to a staged file: the file, and where the next write goes. -/
structure FileHandle where
  node : NodeId
  cursor : Nat
  isOpen : Bool
  deriving DecidableEq, Repr

namespace FileHandle

def seek (handle : FileHandle) (position : Nat) : FileHandle := { handle with cursor := position }

def close (handle : FileHandle) : FileHandle := { handle with isOpen := false }

end FileHandle

namespace Tree

def add (parent : NodeId) (name : String) (content : Content) : Action Tree NodeId :=
  modifyGet fun tree => tree.insert parent name content

/-- Goes down from a directory along names and makes the directories that are missing. -/
def makeAlong (path : String) : NodeId → List String → Action Tree NodeId
  | id, [] => return id
  | id, name :: names => do
      let tree ← get
      match tree.child? id name with
      | some child =>
          if tree.isDirectory child then makeAlong path child names
          else if names.isEmpty then throw (.alreadyExists path)
          else throw (.invalidPath path)
      | none =>
          let child ← add id name .emptyDirectory
          makeAlong path child names

/-- Makes the directory at a path and those above it; existing directories are kept. -/
def mkdir (path : String) : Action Tree NodeId := do
  makeAlong path root (← names path)

/-- Goes down along names, all of which must be directories. -/
def enter (tree : Tree) (path : String) : NodeId → List String → Except Error NodeId
  | id, [] => .ok id
  | id, name :: names =>
      match tree.child? id name with
      | some child =>
          if tree.isDirectory child then tree.enter path child names
          else .error (.invalidPath path)
      | none => .error (.notFound path)

/-- The directory that holds the entry at a path, and the name of the entry; the root has no
name. -/
def parentOf (tree : Tree) (path : String) : Except Error (NodeId × Option String) := do
  let names ← names path
  match names.getLast? with
  | none => return (root, none)
  | some name => return (← tree.enter path root names.dropLast, some name)

/-- Opens the file at a path for writing; it is made if it is missing and `create` is set. -/
def openFile (path : String) (create : Bool) : Action Tree FileHandle := do
  let tree ← get
  match ← (tree.parentOf path : Except Error _) with
  | (_, none) => throw (.typeMismatch path "file")
  | (parent, some name) =>
      match tree.child? parent name with
      | some id =>
          if tree.kind id = .file then return ⟨id, 0, true⟩
          else throw (.typeMismatch path "file")
      | none =>
          if create then return ⟨← add parent name (.file #[]), 0, true⟩
          else throw (.notFound path)

/-- The tree after bytes were put into a file; gaps below them are zero. -/
def overwrite (tree : Tree) (id : NodeId) (start : Nat) (bytes : Bytes) : Tree :=
  match tree with
  | ⟨nodes, clock⟩ =>
      ⟨nodes.modify id fun ⟨content, attributes⟩ =>
          match content with
          | .file data => ⟨.file (data.overwrite start bytes), attributes⟩
          | content => ⟨content, attributes⟩,
        clock⟩

/-- Writes at the cursor of a handle and moves the cursor past the bytes. -/
def write (bytes : Bytes) : Action (FileHandle × Tree) Nat := do
  let (handle, tree) ← get
  if handle.isOpen ∧ tree.kind handle.node = .file then
    if maxFileSize < handle.cursor + bytes.length then
      throw (.unsupported (.fileSize handle.cursor maxFileSize))
    modify fun (handle, tree) =>
      (handle.seek (handle.cursor + bytes.length), tree.overwrite handle.node handle.cursor bytes)
    return bytes.length
  else throw .fileClosed

/-- Makes a link.  Its target is kept as it is; only its length is checked. -/
def symlink (target path : String) : Action Tree NodeId := do
  let tree ← get
  match ← (tree.parentOf path : Except Error _) with
  | (_, none) => throw (.alreadyExists path)
  | (parent, some name) =>
      if target.utf8ByteSize = 0 ∨ Format.maxLinkTarget < target.utf8ByteSize then
        throw (.invalidPath
          s!"symlink target for {path} must be 1 to {Format.maxLinkTarget} bytes")
      if (tree.child? parent name).isSome then throw (.alreadyExists path)
      add parent name (.symlink target)

def change (path : String) (update : Attributes → Attributes) : Action Tree Unit := do
  let tree ← get
  let id ← (tree.lookup path : Except Error _)
  modify fun tree => tree.setAttributes id update

/-- The bits of a mode that are kept. -/
def modeMask : UInt16 := 0o7777

def setPermissions (path : String) (mode : UInt16) : Action Tree Unit :=
  change path fun attributes => { attributes with mode := mode &&& modeMask }

def setOwner (path : String) (uid gid : UInt32) : Action Tree Unit :=
  change path fun attributes => { attributes with uid, gid }

def setMtime (path : String) (mtime : UInt32) : Action Tree Unit :=
  change path fun attributes => { attributes with mtime }

end Tree

end TreeImage.Staging
