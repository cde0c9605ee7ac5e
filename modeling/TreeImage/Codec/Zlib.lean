import TreeImage.Bytes.Blocks
import TreeImage.Codec.Deflate
import TreeImage.Codec.Inflate
import TreeImage.Codec.Library

/-!
The zlib library of the machine.  A frame is two bytes that name the method, a deflate stream, and a
checksum of the data.

A decoder is fed a portion of a frame at a time and fills one window at a time.  It gives what it
has whenever a portion is used up or the window is full.  This settles how many bytes are given of a
frame with a fault before the fault is reported.
-/

namespace TreeImage

namespace Codec

namespace Zlib

def checksumBase : Nat := 65521

/-- The sum of the bytes and the sum of all running sums, each on top of what came before, in one
number. -/
def adlerFrom : Bytes → (low high : Nat) → Nat
  | [], low, high => high * 65536 + low
  | b :: bytes, low, high =>
      let low := (low + b.toNat) % checksumBase
      adlerFrom bytes low ((high + low) % checksumBase)

/-- The checksum of the data: the sum of its bytes plus one, and above it the sum of all running
sums. -/
def adler32 (data : Bytes) : Nat := adlerFrom data 1 0

def fromBigEndian (bytes : Bytes) : Nat := fromLittleEndian bytes.reverse

/-- Whether two bytes open a frame: deflate with a window that a decoder has, no preset
dictionary, and a right check value. -/
def isHeader (method flags : UInt8) : Bool :=
  method.toNat % 16 == 8 && method.toNat / 16 ≤ 7 && flags.toNat / 32 % 2 == 0
    && (method.toNat * 256 + flags.toNat) % 31 == 0

/-- The data in a frame, expanded up to a size.  What follows the frame is ignored. -/
def expand (limit : Nat) : (frame : Bytes) → Except Halt Bytes
  | method :: flags :: body =>
      if !isHeader method flags then .error (.fault .corrupt #[])
      else do
        let progress ← inflate limit (BitSource.ofBytes body)
        let data := progress.output.toList
        let trailer := progress.source.align.bytes.take 4
        if trailer.length < 4 then throw (.fault .incomplete progress.output)
        if fromBigEndian trailer ≠ adler32 data then throw (.fault .corrupt progress.output)
        return data
  | _ => .error (.fault .incomplete #[])

/-- The size up to which a frame is expanded for the bytes before a position: the end of the window
that holds the byte there.  What is wrong with the frame shows up to there. -/
def expansionLimit (position : Nat) : Nat := (position / windowSize + 1) * windowSize

def portionSize : Nat := 32768

/-- How many bytes are given of a damaged frame whose expansion stops after `produced` bytes: those
before the last window, and those that were there when a portion was used up. -/
def givenBeforeDamage (frame : Bytes) (produced : Nat) : Nat :=
  (List.range (frame.length / portionSize)).foldl
    (fun given n =>
      match expand produced (frame.take ((n + 1) * portionSize)) with
      | .error (.fault .incomplete output) => max given output.size
      | _ => given)
    ((produced - 1) / windowSize * windowSize)

/-- Whether no whole byte of a frame is left when a window is full. -/
def isUsedUpAt (frame : Bytes) (position : Nat) : Bool :=
  position != 0 && position % windowSize == 0 &&
    match expand position frame with
    | .error (.full _ isUsedUp) => isUsedUp
    | _ => false

/-- What is left of a frame: the frame with the number of bytes that were given, and whether a full
window was the last thing it had; or the data that are left, once all of them are known. -/
inductive Decoding
  | within (frame : Bytes) (given : Nat) (isDrained : Bool)
  | known (data : Bytes)

def ioError : StreamFault → IoError
  | .incomplete => ⟨.unexpectedEof, "incomplete deflate stream"⟩
  | .corrupt => ⟨.invalidInput, "corrupt deflate stream"⟩

namespace Decoding

def front (room : Nat) (data : Bytes) : {piece : Bytes // piece.length ≤ room} :=
  ⟨data.take room, List.length_take_le ..⟩

/-- Gives some of the bytes that are there.  If there are none, the frame has a fault. -/
def give (room : Nat) (frame : Bytes) (given : Nat) (isDrained : Bool) (fault : StreamFault)
    (bytes : Bytes) : Except IoError ({piece : Bytes // piece.length ≤ room} × Decoding) :=
  if bytes = [] then .error (ioError fault)
  else .ok (front room bytes, .within frame (given + min room bytes.length) isDrained)

/-- The next data of a frame.  The whole of a frame without faults is given.  Of another one, bytes
are given window by window, and from a full window with nothing left to take in they are given once
more. -/
def read (room : Nat) :
    Decoding → Except IoError ({piece : Bytes // piece.length ≤ room} × Decoding)
  | .known data => .ok (front room data, .known (data.drop room))
  | .within frame given isDrained =>
      match expand (expansionLimit (given + room)) frame with
      | .ok data => .ok (front room (data.drop given), .known (data.drop (given + room)))
      | .error (.full output _) =>
          give room frame given isDrained .incomplete (output.toList.drop given)
      | .error (.fault fault output) =>
          let there :=
            match fault with
            | .corrupt => givenBeforeDamage frame output.size
            | .incomplete => if isDrained then given else output.size
          give room frame given (isUsedUpAt frame given) fault
            ((output.toList.take (min there (expansionLimit given))).drop given)

end Decoding

/-- The deflate stream of the data; level zero only stores it. -/
def deflate (level : Nat) (data : Bytes) : Bytes :=
  if level = 0 then
    match (blocksOf longestStored data).reverse with
    | [] => storedBlock true []
    | last :: others => others.reverse.flatMap (storedBlock false) ++ storedBlock true last
  else fixedBlock (tokenize data.toArray)

def compress (level : Nat) (data : Bytes) : Bytes :=
  0x78 :: 0xda :: deflate level data ++ (littleEndian 4 (adler32 data)).reverse

/-- The least room that a buffer offers; one with less is made larger first. -/
def leastRoom : Nat := 32

def library : Library where
  Decoding := Decoding
  encode level data := .ok (compress level data)
  start frame := .within frame 0 false
  read := Decoding.read
  room capacity got := max leastRoom (capacity - got)
  room_pos _ _ := Nat.lt_of_lt_of_le (by decide) (Nat.le_max_left ..)

end Zlib

end Codec

/-- The codecs of the machine: that of zstd is left out. -/
def Codecs.machine : Codecs := .ofLibraries Codec.Zlib.library none

end TreeImage
