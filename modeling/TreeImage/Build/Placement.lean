import TreeImage.Build.Options
import TreeImage.Bytes.Blocks
import TreeImage.Format.Record
import TreeImage.Staging.Tree
import TreeImage.Storage.Region

/-!
Placing the contents of files.  A file is cut into blocks.  A full block is stored, compressed
where that makes it shorter, or left out if it holds only zeros.  A short last block is the tail
of the file; tails of several files are collected in fragment blocks, each of which is stored
when the next tail would not fit into it, and at the end.  The files of a staged tree are placed one
after the other in a given order.
-/

namespace TreeImage.Build

open Format
open Staging (NodeId Tree)

/-- Where the tail of a file is: which fragment block, and which part of it. -/
structure TailRef where
  fragment : UInt32
  offset : UInt32
  length : UInt32
  deriving DecidableEq, Repr, Inhabited

/-- Where the content of one file is. -/
structure Placement where
  /-- The position of the first stored block. -/
  start : Nat
  /-- One size word for each block. -/
  blockSizes : Array UInt32
  tail : Option TailRef
  /-- How many bytes are in blocks that are left out. -/
  sparse : Nat
  deriving DecidableEq, Repr, Inhabited

/-- What decides how contents are stored. -/
structure Storing where
  codec : Codec
  blockSize : Nat
  options : Options

/-- The stored blocks so far, and the fragment block that has been begun. -/
structure DataArea where
  /-- Where the next stored block goes. -/
  position : Nat
  /-- The stored blocks with their positions, in order. -/
  stored : Array (Nat × Bytes)
  /-- The tails in the fragment block that has been begun. -/
  tails : Buffer
  /-- The entries of the fragment blocks already stored. -/
  fragments : Array FragmentEntry

namespace DataArea

/-- The area without blocks, from the end of the superblock on. -/
def empty : DataArea := ⟨superblockSize, #[], #[], #[]⟩

def store (storing : Storing) (raw : Bool) (block : Bytes) : Action DataArea UInt32
  | ⟨position, stored, tails, fragments⟩ =>
      match if raw then .ok (block, false) else storing.codec.shrink block with
      | .error error => (.error error, ⟨position, stored, tails, fragments⟩)
      | .ok (bytes, isCompressed) =>
          (.ok (UInt32.ofNat (bytes.length + if isCompressed then 0 else dataRaw)),
            ⟨position + bytes.length, stored.push (position, bytes), tails, fragments⟩)

/-- Stores the fragment block that has been begun, if it holds any tail. -/
def flush (storing : Storing) : Action DataArea Unit := fun area =>
  if area.tails.isEmpty then (.ok (), area)
  else
    let start := area.position
    match store storing storing.options.rawFragments area.tails.toList area with
    | (.error error, area) => (.error error, area)
    | (.ok size, ⟨position, stored, _, fragments⟩) =>
        (.ok (), ⟨position, stored, #[], fragments.push ⟨UInt64.ofNat start, size⟩⟩)

/-- Puts a tail into the fragment block that has been begun. -/
def putTail (tail : Bytes) : Action DataArea TailRef
  | ⟨position, stored, tails, fragments⟩ =>
      (.ok ⟨UInt32.ofNat fragments.size, UInt32.ofNat tails.size, UInt32.ofNat tail.length⟩,
        ⟨position, stored, tails.pushAll tail, fragments⟩)

/-- Puts a tail into the fragment block that has been begun, or into a new one if it does not
fit. -/
def addTail (storing : Storing) (tail : Bytes) : Action DataArea TailRef := fun area =>
  if storing.blockSize < area.tails.size + tail.length then
    (do flush storing; putTail tail : Action DataArea TailRef).run area
  else putTail tail area

def addBlock (storing : Storing) (placement : Placement) (block : Bytes) :
    Action DataArea Placement := do
  if block.length < storing.blockSize ∧ !storing.options.noFragments then
    let tail ← addTail storing block
    return { placement with tail := some tail }
  else if storing.options.sparse ∧ block.all (· == 0) then
    return { placement with
      blockSizes := placement.blockSizes.push 0
      sparse := placement.sparse + block.length }
  else
    let size ← store storing storing.options.rawData block
    return { placement with blockSizes := placement.blockSizes.push size }

def addFile (storing : Storing) (content : Bytes) : Action DataArea Placement := fun area =>
  ((blocksOf storing.blockSize content).foldlM (addBlock storing)
    ⟨area.position, #[], none, 0⟩).run area

end DataArea

/-- The stored contents, and the placement of each file by the number of its node. -/
structure Contents where
  area : DataArea
  placements : Array Placement

namespace Contents

def addNode (storing : Storing) (tree : Tree) (id : NodeId) : Action Contents Unit
  | ⟨area, placements⟩ =>
      match tree.node? id with
      | some ⟨.file data, _⟩ =>
          match (DataArea.addFile storing data.toList).run area with
          | (.error error, area) => (.error error, ⟨area, placements⟩)
          | (.ok placement, area) => (.ok (), ⟨area, placements.setIfInBounds id placement⟩)
      | _ => (.ok (), ⟨area, placements⟩)

def finish (storing : Storing) : Action Contents Unit
  | ⟨area, placements⟩ =>
      match (DataArea.flush storing).run area with
      | (result, area) => (result, ⟨area, placements⟩)

def empty (size : Nat) : Contents := ⟨DataArea.empty, Array.replicate size default⟩

/-- Places the files among the given nodes, one after the other. -/
def addAll (storing : Storing) (tree : Tree) (order : List NodeId) : Action Contents Unit := do
  order.forM (addNode storing tree)
  finish storing

/-- Writes the files among the given nodes.  What was stored before a failure is written. -/
def ofTree (storing : Storing) (tree : Tree) (order : List NodeId) : Script Contents :=
  match (addAll storing tree order).run (empty tree.size) with
  | (result, contents) => ⟨contents.area.stored.toList, result.map fun () => contents⟩

def placement (contents : Contents) (id : NodeId) : Placement :=
  contents.placements[id]?.getD default

end Contents

end TreeImage.Build
