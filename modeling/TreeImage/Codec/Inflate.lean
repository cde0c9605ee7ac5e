import TreeImage.Codec.PrefixCode
import TreeImage.Codec.Token

namespace TreeImage.Codec

/-- How far an expansion has come: what is unread and what has been produced. -/
structure Progress where
  source : BitSource
  output : Buffer

/-- Why an expansion stopped, with what was produced before: a fault of the stream, or the size
limit, which may be met when no whole byte of the stream is left unread. -/
inductive Halt
  | fault (fault : StreamFault) (output : Buffer)
  | full (output : Buffer) (isUsedUp : Bool)
  deriving DecidableEq, Repr

structure BlockCodes where
  literals : PrefixCode
  distances : PrefixCode

def fixedCodes : BlockCodes :=
  ⟨PrefixCode.ofLengths fixedLiteralLengths, PrefixCode.ofLengths fixedDistanceLengths⟩

namespace Progress

def read {α : Type} (progress : Progress)
    (step : BitSource → Except StreamFault (α × BitSource)) : Except Halt (α × Progress) :=
  match step progress.source with
  | .error fault => .error (.fault fault progress.output)
  | .ok (value, source) => .ok (value, { progress with source })

def corrupt {α : Type} (progress : Progress) : Except Halt α :=
  .error (.fault .corrupt progress.output)

/-- Produces one byte, unless the output has its full size. -/
def push (progress : Progress) (limit : Nat) (b : UInt8) : Except Halt Progress :=
  if progress.output.size < limit then .ok { progress with output := progress.output.push b }
  else .error (.full progress.output progress.source.bytes.isEmpty)

/-- Produces a copy of earlier output, or the part of it that is not past the full size. -/
def copy (progress : Progress) (limit length distance : Nat) : Except Halt Progress :=
  if progress.output.size + length ≤ limit then
    .ok { progress with output := copyBack progress.output distance length }
  else
    .error (.full (copyBack progress.output distance (limit - progress.output.size))
      progress.source.bytes.isEmpty)

end Progress

/-- Reads the value that a symbol and its extra bits stand for.  A symbol without a range is
damage. -/
def readRanged (ranges : Array (Nat × Nat)) (symbol : Nat) (source : BitSource) :
    Except StreamFault (Nat × BitSource) :=
  match ranges[symbol]? with
  | none => .error .corrupt
  | some (least, extra) =>
      match source.take extra with
      | .error fault => .error fault
      | .ok (offset, rest) => .ok (least + offset, rest)

def expandSymbols (codes : BlockCodes) (limit : Nat) : (fuel : Nat) → Progress →
    Except Halt Progress
  | 0, progress => .error (.fault .incomplete progress.output)
  | fuel + 1, progress => do
      let (symbol, progress) ← progress.read codes.literals.decode
      if symbol < endOfBlock then
        let progress ← progress.push limit (UInt8.ofNat symbol)
        expandSymbols codes limit fuel progress
      else if symbol = endOfBlock then
        return progress
      else
        let (length, progress) ←
          progress.read (readRanged lengthRanges (symbol - firstLengthSymbol))
        let (symbol, progress) ← progress.read codes.distances.decode
        let (distance, progress) ← progress.read (readRanged distanceRanges symbol)
        let progress ← progress.copy limit length distance
        expandSymbols codes limit fuel progress

/-- Expands a stored block: from the next whole byte on, its size, the complement of its size,
and its bytes. -/
def expandStored (limit : Nat) (progress : Progress) : Except Halt Progress :=
  match progress.source.align.bytes with
  | a :: b :: c :: d :: rest =>
      let length := fromLittleEndian [a, b]
      if length + fromLittleEndian [c, d] ≠ 0xffff then progress.corrupt
      else
        let (stored, rest) := rest.splitAt length
        if limit < progress.output.size + stored.length then
          .error (.full
            (progress.output.pushAll (stored.take (limit - progress.output.size))) false)
        else
          let progress := ⟨BitSource.ofBytes rest, progress.output.pushAll stored⟩
          if stored.length < length then .error (.fault .incomplete progress.output)
          else .ok progress
  | _ => .error (.fault .incomplete progress.output)

/-- The order in which the lengths of the code for code lengths are given. -/
def lengthCodeOrder : List Nat := [16, 17, 18, 0, 8, 7, 9, 6, 10, 5, 11, 4, 12, 3, 13, 2, 14, 1, 15]

def readLengthCodeLengths : (count : Nat) → BitSource → Except StreamFault (List Nat × BitSource)
  | 0, source => .ok ([], source)
  | count + 1, source => do
      let (length, source) ← source.take 3
      let (lengths, source) ← readLengthCodeLengths count source
      return (length :: lengths, source)

/-- The code for code lengths whose word lengths were given in the special order. -/
def lengthCode (given : List Nat) : PrefixCode :=
  PrefixCode.ofLengths ((List.range 19).map fun symbol =>
    ((lengthCodeOrder.zip given).lookup symbol).getD 0)

/-- Reads code lengths until there are at least `wanted`, the latest first.  Three symbols repeat
the previous length or zero. -/
def readCodeLengths (code : PrefixCode) (wanted : Nat) : (fuel : Nat) → List Nat → BitSource →
    Except StreamFault (List Nat × BitSource)
  | 0, lengths, source => .ok (lengths, source)
  | fuel + 1, lengths, source =>
      if wanted ≤ lengths.length then .ok (lengths, source)
      else do
        let (symbol, source) ← code.decode source
        if symbol < 16 then
          readCodeLengths code wanted fuel (symbol :: lengths) source
        else if symbol = 16 then
          match lengths with
          | [] => throw .corrupt
          | previous :: _ =>
              let (extra, source) ← source.take 2
              readCodeLengths code wanted fuel
                (List.replicate (3 + extra) previous ++ lengths) source
        else if symbol = 17 then
          let (extra, source) ← source.take 3
          readCodeLengths code wanted fuel (List.replicate (3 + extra) 0 ++ lengths) source
        else
          let (extra, source) ← source.take 7
          readCodeLengths code wanted fuel (List.replicate (11 + extra) 0 ++ lengths) source

def readCodes (source : BitSource) : Except StreamFault (BlockCodes × BitSource) := do
  let (literalExtra, source) ← source.take 5
  let (distanceExtra, source) ← source.take 5
  let (lengthExtra, source) ← source.take 4
  let literalCount := literalExtra + 257
  let distanceCount := distanceExtra + 1
  if 286 < literalCount ∨ 30 < distanceCount then throw .corrupt
  let (given, source) ← readLengthCodeLengths (lengthExtra + 4) source
  let code := lengthCode given
  if !code.isComplete then throw .corrupt
  let wanted := literalCount + distanceCount
  let (lengths, source) ← readCodeLengths code wanted wanted [] source
  if lengths.length ≠ wanted then throw .corrupt
  let lengths := lengths.reverse
  let codes : BlockCodes := ⟨PrefixCode.ofLengths (lengths.take literalCount),
    PrefixCode.ofLengths (lengths.drop literalCount)⟩
  if codes.literals.isUsable && codes.distances.isUsable then return (codes, source)
  else throw .corrupt

/-- Expands the blocks of a stream up to the end of the last one. -/
def expandBlocks (limit : Nat) : (fuel : Nat) → Progress → Except Halt Progress
  | 0, progress => .error (.fault .incomplete progress.output)
  | fuel + 1, progress => do
      let (header, progress) ← progress.read (·.take 3)
      let progress ←
        match header / 2 with
        | 0 => expandStored limit progress
        | 1 => expandSymbols fixedCodes limit fuel progress
        | 2 => do
            let (codes, progress) ← progress.read readCodes
            expandSymbols codes limit fuel progress
        | _ => progress.corrupt
      if header % 2 = 1 then return progress
      else expandBlocks limit fuel progress

/-- Expands a deflate stream, producing at most `limit` bytes.  Every block and every symbol takes
at least one bit, so the number of bits bounds the number of steps. -/
def inflate (limit : Nat) (source : BitSource) : Except Halt Progress :=
  expandBlocks limit (source.size + 1) ⟨source, #[]⟩

end TreeImage.Codec
