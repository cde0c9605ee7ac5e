import TreeImage.Bytes.Buffer

namespace TreeImage.Codec

inductive Token
  | literal (b : UInt8)
  | copy (length distance : Nat)
  deriving DecidableEq, Repr

/-- How far back a copy may reach. -/
def windowSize : Nat := 32768

def longestCopy : Nat := 258

def endOfBlock : Nat := 256

def firstLengthSymbol : Nat := 257

/-- For each length symbol, its least length and the number of extra bits. -/
def lengthRanges : Array (Nat × Nat) := #[
    (3, 0), (4, 0), (5, 0), (6, 0), (7, 0), (8, 0), (9, 0), (10, 0), (11, 1), (13, 1), (15, 1),
    (17, 1), (19, 2), (23, 2), (27, 2), (31, 2), (35, 3), (43, 3), (51, 3), (59, 3), (67, 4),
    (83, 4), (99, 4), (115, 4), (131, 5), (163, 5), (195, 5), (227, 5), (258, 0)]

/-- For each distance symbol, its least distance and the number of extra bits. -/
def distanceRanges : Array (Nat × Nat) := #[
    (1, 0), (2, 0), (3, 0), (4, 0), (5, 1), (7, 1), (9, 2), (13, 2), (17, 3), (25, 3), (33, 4),
    (49, 4), (65, 5), (97, 5), (129, 6), (193, 6), (257, 7), (385, 7), (513, 8), (769, 8),
    (1025, 9), (1537, 9), (2049, 10), (3073, 10), (4097, 11), (6145, 11), (8193, 12),
    (12289, 12), (16385, 13), (24577, 13)]

/-- The lengths of the fixed code's words for literals, the end of a block and lengths. -/
def fixedLiteralLengths : List Nat :=
  List.replicate 144 8 ++ List.replicate 112 9 ++ List.replicate 24 7 ++ List.replicate 8 8

def fixedDistanceLengths : List Nat := List.replicate 32 5

/-- The byte that stands `distance` places before the end.  Before all output stand zeros. -/
def byteBack (output : Buffer) (distance : Nat) : UInt8 :=
  if distance ≤ output.size then output.getD (output.size - distance) 0 else 0

/-- Appends `length` bytes, each equal to the one `distance` places before it. -/
def copyBack (output : Buffer) (distance : Nat) : (length : Nat) → Buffer
  | 0 => output
  | length + 1 => copyBack (output.push (byteBack output distance)) distance length

def Token.expand (output : Buffer) : Token → Buffer
  | .literal b => output.push b
  | .copy length distance => copyBack output distance length

@[simp] theorem size_copyBack (output : Buffer) (distance length : Nat) :
    (copyBack output distance length).size = output.size + length := by
  induction length generalizing output with
  | zero => rfl
  | succ length ih =>
      rw [copyBack, ih]
      simp only [Array.size_push]
      omega

end TreeImage.Codec
