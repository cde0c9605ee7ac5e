import TreeImage.Codec.Token
import Std.Data.HashMap

namespace TreeImage.Codec

/-- A number that identifies the three bytes at a position. -/
def tripleAt (data : Buffer) (position : Nat) : Nat :=
  (data.getD position 0).toNat + 256 * ((data.getD (position + 1) 0).toNat
    + 256 * (data.getD (position + 2) 0).toNat)

/-- How many bytes from `right` on equal those from `left` on, counting at most `most`. -/
def matchLength (data : Buffer) (left right : Nat) : (most : Nat) → Nat
  | 0 => 0
  | most + 1 =>
      if right < data.size && data.getD left 0 == data.getD right 0 then
        matchLength data (left + 1) (right + 1) most + 1
      else 0

/-- Notes where the triples at `count` consecutive positions stand.  The very first position is
not noted: zero marks a triple not seen so far. -/
def noteTriples (data : Buffer) (seen : Std.HashMap Nat Nat) (position : Nat) :
    (count : Nat) → Std.HashMap Nat Nat
  | 0 => seen
  | count + 1 =>
      noteTriples data (seen.insert (tripleAt data position) position) (position + 1) count

/-- How far back a copy made at a position may reach: the window also holds the bytes that are next
to be coded. -/
def reach (data : Buffer) (position : Nat) : Nat :=
  windowSize - min longestCopy (data.size - position)

/-- The copy to make at a position, if an earlier place matches three bytes or more. -/
def findCopy? (data : Buffer) (seen : Std.HashMap Nat Nat) (position : Nat) :
    Option (Nat × Nat) :=
  match seen.getD (tripleAt data position) 0 with
  | 0 => none
  | place + 1 =>
      let length := matchLength data (place + 1) position longestCopy
      if 3 ≤ length && position - (place + 1) ≤ reach data position then
        some (length, position - (place + 1))
      else none

def tokenizeFrom (data : Buffer) : (fuel : Nat) → (position : Nat) → Std.HashMap Nat Nat →
    Array Token → Array Token
  | 0, _, _, tokens => tokens
  | fuel + 1, position, seen, tokens =>
      if h : position < data.size then
        match findCopy? data seen position with
        | some (length, distance) =>
            tokenizeFrom data fuel (position + length) (noteTriples data seen position length)
              (tokens.push (.copy length distance))
        | none =>
            tokenizeFrom data fuel (position + 1) (noteTriples data seen position 1)
              (tokens.push (.literal data[position]))
      else tokens

def tokenize (data : Buffer) : List Token := (tokenizeFrom data data.size 0 ∅ #[]).toList

def fieldBits (width n : Nat) : List Bool := (List.range width).map n.testBit

def wordBits (width n : Nat) : List Bool := (fieldBits width n).reverse

/-- The word of the fixed code for a literal, the end of a block or a length symbol. -/
def fixedLiteralWord (symbol : Nat) : List Bool :=
  if symbol < 144 then wordBits 8 (0x30 + symbol)
  else if symbol < 256 then wordBits 9 (0x190 + (symbol - 144))
  else if symbol < 280 then wordBits 7 (symbol - 256)
  else wordBits 8 (0xc0 + (symbol - 280))

/-- The last of the ranges that begin at or below a value, as its number and its data. -/
def rangeOf (ranges : Array (Nat × Nat)) (value : Nat) : Nat × Nat × Nat :=
  let symbol := (ranges.toList.takeWhile fun range => range.1 ≤ value).length - 1
  (symbol, ranges.getD symbol (0, 0))

def Token.bits : Token → List Bool
  | .literal b => fixedLiteralWord b.toNat
  | .copy length distance =>
      let (symbol, least, extra) := rangeOf lengthRanges length
      let (farSymbol, farLeast, farExtra) := rangeOf distanceRanges distance
      fixedLiteralWord (firstLengthSymbol + symbol) ++ fieldBits extra (length - least)
        ++ wordBits 5 farSymbol ++ fieldBits farExtra (distance - farLeast)

def byteOfBits (bits : List Bool) : UInt8 :=
  UInt8.ofNat (bits.foldr (fun bit value => bit.toNat + 2 * value) 0)

/-- Packs bits into bytes after those of `output`; missing bits of the last byte are zero. -/
def packInto (output : Buffer) : List Bool → Buffer
  | b0 :: b1 :: b2 :: b3 :: b4 :: b5 :: b6 :: b7 :: rest =>
      packInto (output.push (byteOfBits [b0, b1, b2, b3, b4, b5, b6, b7])) rest
  | [] => output
  | bits => output.push (byteOfBits bits)

/-- One last block that holds the tokens in the fixed codes. -/
def fixedBlock (tokens : List Token) : Bytes :=
  (packInto #[] ([true, true, false] ++ tokens.flatMap Token.bits
    ++ fixedLiteralWord endOfBlock)).toList

def longestStored : Nat := 65535

def storedBlock (isLast : Bool) (data : Bytes) : Bytes :=
  UInt8.ofNat isLast.toNat :: littleEndian 2 data.length
    ++ littleEndian 2 (0xffff - data.length) ++ data

end TreeImage.Codec
