import TreeImage.Build.Script
import TreeImage.Staging.Edit

/-!
Builders.  A builder holds a staged tree and the region that its image goes to.  The tree is
edited until the image is written, which happens once; whether that ends well or not, the builder
refuses everything afterwards.
-/

namespace TreeImage

open Build Format Staging

/-- How far a builder has come: it takes edits; or it writes its image, and the data or the tables
as well are written; or the image is complete; or writing it failed and what the region holds is of
no use. -/
inductive Stage
  | staging
  | dataWritten
  | metadataWritten
  | finalized
  | failed
  deriving DecidableEq, Repr

structure Builder where
  region : Region
  blockSize : UInt32
  tree : Tree
  stage : Stage

namespace Builder

/-- A builder whose image goes to the window of a storage from `start` on; a window of size zero
is open at its end.  The clock dates new nodes. -/
def create (storage : Storage) (start size : Nat) (blockSize : UInt32) (clock : NodeId → UInt32) :
    Except Error Builder :=
  if !isBlockSize blockSize.toNat then
    .error (.invalidFormat (.unusableBlockSize blockSize.toNat minBlockSize maxBlockSize))
  else if size ≠ 0 ∧ size < superblockSize then .error (.invalidFormat (.windowTooSmall size))
  else .ok ⟨Region.ofStorage storage start size, blockSize, Tree.new clock, .staging⟩

def edit {α : Type} (action : Action Tree α) : Action Builder α
  | ⟨region, blockSize, tree, .staging⟩ =>
      match action tree with
      | (result, tree) => (result, ⟨region, blockSize, tree, .staging⟩)
  | builder => (.error .alreadyFinalized, builder)

def mkdir (path : String) : Action Builder Unit := do
  let _ ← edit (Tree.mkdir path)

/-- Opens the file at a path for writing; it is made if it is missing and `create` is set. -/
def openFile (path : String) (create : Bool) : Action Builder FileHandle :=
  edit (Tree.openFile path create)

/-- Writes at the cursor of a handle and moves the cursor past the bytes. -/
def write (bytes : Bytes) : Action (FileHandle × Builder) Nat
  | (handle, ⟨region, blockSize, tree, .staging⟩) =>
      match Tree.write bytes (handle, tree) with
      | (result, handle, tree) => (result, handle, ⟨region, blockSize, tree, .staging⟩)
  | state => (.error .alreadyFinalized, state)

/-- Puts bytes at the start of the file at a path, which is made if it is missing. -/
def putFile (path : String) (bytes : Bytes) : Action Builder Unit := do
  let handle ← openFile path true
  edit fun tree =>
    match Tree.write bytes (handle, tree) with
    | (result, _, tree) => (result.map fun _ => (), tree)

def symlink (target path : String) : Action Builder Unit := do
  let _ ← edit (Tree.symlink target path)

def setPermissions (path : String) (mode : UInt16) : Action Builder Unit :=
  edit (Tree.setPermissions path mode)

def setOwner (path : String) (uid gid : UInt32) : Action Builder Unit :=
  edit (Tree.setOwner path uid gid)

def setMtime (path : String) (mtime : UInt32) : Action Builder Unit :=
  edit (Tree.setMtime path mtime)

/-- Makes the writes of a script on the region of a builder. -/
def onRegion {α : Type} (script : Script α) : Action Builder α
  | ⟨region, blockSize, tree, stage⟩ =>
      match script.run region with
      | (result, region) => (result, ⟨region, blockSize, tree, stage⟩)

def reach (stage : Stage) : Action Builder Unit
  | ⟨region, blockSize, tree, _⟩ => (.ok (), ⟨region, blockSize, tree, stage⟩)

/-- Writes the image of a tree, dated with the given time, and notes how far this has come. -/
def writeImage (codec : Codec) (blockSize modificationTime : UInt32) (tree : Tree)
    (options : Options) : Action Builder Unit := do
  let plan ← onRegion (Plan.ofTree codec blockSize tree options)
  reach .dataWritten
  let built ← onRegion (plan.writeTables codec)
  reach .metadataWritten
  onRegion (plan.writeSuperblock codec blockSize modificationTime built)

/-- Writes the image.  A codec that is not built in leaves the builder as it was.  A trap is no
failure of the writing but ends it at once, and the builder stays where it is. -/
def finalize (codecs : Codecs) (modificationTime : UInt32) (options : Options) :
    Action Builder Unit
  | ⟨region, blockSize, tree, .staging⟩ =>
      match options.algorithm.codec codecs with
      | .error error => (.error error, ⟨region, blockSize, tree, .staging⟩)
      | .ok codec =>
          match (writeImage codec blockSize modificationTime tree options).run
            ⟨region, blockSize, tree, .staging⟩ with
          | (.ok (), builder) => (reach .finalized).run builder
          | (.error (.trap cause), builder) => (.error (.trap cause), builder)
          | (.error error, ⟨region, blockSize, tree, _⟩) =>
              (.error error, ⟨region, blockSize, tree, .failed⟩)
  | builder => (.error .alreadyFinalized, builder)

end Builder

end TreeImage
