import TreeImage.Image.Basic

namespace TreeImage

open Format

/-- A data block of a file: where it is stored, and its size word. -/
structure StoredBlock where
  position : Nat
  word : UInt32
  deriving DecidableEq, Repr

structure OpenFile where
  image : Image
  body : FileBody
  inodeNumber : UInt32
  blocks : Array StoredBlock
  /-- Where the next read of the stream starts. -/
  position : Nat
  /-- The block that was loaded last, with its index. -/
  cache : Option (Nat × Bytes)

inductive Anchor
  | start
  | current
  | fileEnd
  deriving DecidableEq, Repr

namespace OpenFile

/-- A step on a stream that may fail; a failure keeps the state that was reached. -/
abbrev StreamAction (α : Type) := ExceptT IoError (StateM OpenFile) α

def storedLength (word : UInt32) : Nat := word.toNat % dataRaw

/-- Whether a size word is that of a block stored as it is. -/
def isRaw (word : UInt32) : Bool := word.toNat / dataRaw % 2 == 1

/-- The positions of blocks stored one after the other from `position` on, after those already
placed, and where the last one ends. -/
def placeBlocks (inodeNumber : UInt32) (blockSize : Nat) :
    List UInt32 → (position : Nat) → Array StoredBlock → Except Error (Array StoredBlock × Nat)
  | [], position, blocks => .ok (blocks, position)
  | word :: words, position, blocks =>
      let length := storedLength word
      if blockSize < length then
        .error (.corruptTable (.dataBlockTooLong inodeNumber.toNat length))
      else if addressSpace ≤ position + length then
        .error (.corruptTable (.dataBlocksOverflow inodeNumber.toNat))
      else
        placeBlocks inodeNumber blockSize words (position + length)
          (blocks.push ⟨position, word⟩)

/-- Opens a file of an image.  Its blocks must lie before the inode table, and its fragment must
be in the fragment table. -/
def ofBody (image : Image) (inodeNumber : UInt32) (body : FileBody) : Except Error OpenFile := do
  let (blocks, stop) ← placeBlocks inodeNumber image.superblock.blockSize.toNat body.blockSizes
    body.blocksStart.toNat #[]
  if image.superblock.inodeTableStart.toNat < stop then
    throw (.corruptTable (.dataBlocksPastEnd inodeNumber.toNat))
  if body.hasFragment && image.fragments.size ≤ body.fragment.toNat then
    throw (.corruptTable (.fragmentIndex inodeNumber.toNat body.fragment.toNat))
  return { image, body, inodeNumber, blocks, position := 0, cache := none }

def size (file : OpenFile) : Nat := file.body.fileSize.toNat

def blockSize (file : OpenFile) : Nat := file.image.superblock.blockSize.toNat

/-- Reads a stored block, which must lie between the superblock and the inode table. -/
def readStored (image : Image) (position : Nat) (word : UInt32) : Except Error Bytes := do
  let length := storedLength word
  if position < superblockSize || image.superblock.inodeTableStart.toNat < position + length then
    throw (.corruptTable (.storedOutside position length))
  let stored ← image.region.read position length
  if isRaw word then return stored
  else image.codec.decompress stored image.superblock.blockSize.toNat

/-- The length of the block with an index: only the last one may be short. -/
def blockLength (file : OpenFile) (index : Nat) : Except Error Nat := do
  let before ← Trapping.mul index file.blockSize
  let left ← Trapping.sub file.size before
  return min left file.blockSize

def loadData (file : OpenFile) (index : Nat) (block : StoredBlock) : Except Error Bytes := do
  let expected ← file.blockLength index
  if block.word = 0 then return List.replicate expected 0
  let data ← readStored file.image block.position block.word
  if data.length ≠ expected then
    throw (.corruptTable
      (.blockLength file.inodeNumber.toNat index data.length expected))
  return data

/-- The content of the tail, the block with an index past the data blocks. -/
def loadTail (file : OpenFile) (index : Nat) : Except Error Bytes := do
  if !file.body.hasFragment then
    throw (.corruptTable (.blockMissing file.inodeNumber.toNat index))
  let expected ← file.blockLength index
  let entry ← Trapping.entry file.image.fragments file.body.fragment.toNat
  let fragment ← readStored file.image entry.start.toNat entry.size
  let start := file.body.fragmentOffset.toNat
  let stop ← Trapping.add start expected
  if fragment.length < stop then
    throw (.corruptTable
      (.tailOutside file.inodeNumber.toNat start stop file.body.fragment.toNat fragment.length))
  Trapping.slice fragment start stop

def loadBlock (file : OpenFile) (index : Nat) : Except Error Bytes :=
  match file.blocks[index]? with
  | some block => file.loadData index block
  | none => file.loadTail index

/-- The content of the block with an index, which is loaded unless it was the last one loaded. -/
def block (index : Nat) : Action OpenFile Bytes := do
  let file ← get
  match file.cache with
  | some (cached, data) => if cached = index then return data else fetch file
  | none => fetch file
where
  /-- Loads the block and keeps it. -/
  fetch (file : OpenFile) : Action OpenFile Bytes := do
    let data ← (file.loadBlock index : Except Error Bytes)
    set { file with cache := some (index, data) }
    return data

/-- The contents of `count` blocks from an index on, in order. -/
def blocksFrom : (count index : Nat) → Action OpenFile (List Bytes)
  | 0, _ => return []
  | count + 1, index => do
      let first ← block index
      let rest ← blocksFrom count (index + 1)
      return first :: rest

/-- The bytes from an offset on, at most `count` of them and fewer only at the end. -/
def readAt (offset count : Nat) : Action OpenFile Bytes := do
  let file ← get
  let wanted := min count (file.size - offset)
  if wanted = 0 then return []
  let stop ← (Trapping.add offset wanted : Except Error Nat)
  let first ← (Trapping.div offset file.blockSize : Except Error Nat)
  let last ← (Trapping.div (stop - 1) file.blockSize : Except Error Nat)
  let blocks ← blocksFrom (last + 1 - first) first
  let within := offset % file.blockSize
  (Trapping.slice blocks.flatten within (within + wanted) : Except Error Bytes)

/-- Reads at most `count` bytes from the position on and moves the position past them. -/
def advance (count : Nat) : Action OpenFile Bytes := do
  let file ← get
  let data ← readAt file.position count
  let position ← (Trapping.add file.position data.length : Except Error Nat)
  modify fun file => { file with position }
  return data

/-- Reads at most `count` bytes from the position on, as a stream does. -/
def read (count : Nat) : StreamAction Bytes := (advance count).adapt Error.toIo

def readExact (count : Nat) : StreamAction Bytes := do
  let data ← read count
  if data.length < count then
    throw ⟨.unexpectedEof, "failed to fill whole buffer"⟩
  return data

/-- Reads on until the end or an error, each time as much as `ask` says for the number of bytes
already there, and returns what was read and the error.  At most `fuel` reads are made. -/
def drain (ask : Nat → Nat) : (fuel : Nat) → Buffer → StateM OpenFile (Buffer × Option IoError)
  | 0, gathered => return (gathered, none)
  | fuel + 1, gathered => do
      match ← read (ask gathered.size) with
      | .error error => return (gathered, some error)
      | .ok [] => return (gathered, none)
      | .ok data => drain ask fuel (gathered.pushAll data)

/-- Reads all that is left, in parts of a fixed length, and returns what came before an error. -/
def drainBy (length : Nat) : StateM OpenFile (Buffer × Option IoError) := do
  let file ← get
  drain (fun _ => length) (file.size + 1) #[]

/-- The least number of bytes that reading to the end asks for at once. -/
def leastAsk : Nat := 32

/-- Reads all that is left.  Every read asks for as much as is already there, so an error leaves
the position after the reads before it. -/
def readToEnd : StreamAction Bytes := fun file =>
  match drain (fun gathered => max leastAsk gathered) (file.size + 1) #[] file with
  | ((_, some error), file) => (.error error, file)
  | ((gathered, none), file) => (.ok gathered.toList, file)

/-- Moves the position by a distance from an anchor; it may pass the end, but must be an address
that 64 bits can name. -/
def seek (anchor : Anchor) (distance : Int) : StreamAction Nat := do
  let file ← get
  let base : Nat :=
    match anchor with
    | .start => 0
    | .current => file.position
    | .fileEnd => file.size
  let target := base + distance
  if target < 0 ∨ (addressSpace : Int) ≤ target then
    throw ⟨.invalidInput, "seek to a negative or overflowing position"⟩
  set { file with position := target.toNat }
  return target.toNat

end OpenFile

end TreeImage
