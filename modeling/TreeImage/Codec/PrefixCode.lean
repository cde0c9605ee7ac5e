import TreeImage.Codec.BitSource

namespace TreeImage.Codec

/-- A canonical prefix code: how many words there are of length 1, 2, … up to the longest, and the
symbols ordered by word length and then by number. -/
structure PrefixCode where
  counts : List Nat
  symbols : Array Nat

namespace PrefixCode

/-- The word lengths to count when the symbols have these: from one to the longest, and one even
when there are no words, since it takes a bit to see that no word begins with it. -/
def wordLengths (lengths : List Nat) : List Nat :=
  (List.range (lengths.foldl max 1)).map (· + 1)

/-- The code in which symbol `i` has a word of length `lengths[i]`, and none where that is
zero. -/
def ofLengths (lengths : List Nat) : PrefixCode where
  counts := (wordLengths lengths).map fun length => lengths.count length
  symbols := ((wordLengths lengths).flatMap fun length =>
    (lengths.zipIdx.filter fun pair => pair.1 = length).map Prod.snd).toArray

def longest (code : PrefixCode) : Nat := code.counts.length

/-- The share of all words of the longest length that begin with a word of the code, in units of
one such word. -/
def coverage (code : PrefixCode) : Nat :=
  code.counts.foldl (fun covered count => 2 * covered + count) 0

/-- Whether every bit string begins with exactly one word of the code, as far as counting
shows. -/
def isComplete (code : PrefixCode) : Bool := code.coverage == 1 <<< code.longest

/-- Whether the code may serve for the symbols of a block: it is complete, or it has at most one
word, of a single bit. -/
def isUsable (code : PrefixCode) : Bool :=
  code.isComplete || (code.longest == 1 && code.symbols.size ≤ 1)

/-- Reads one symbol: `value` is the word so far, `first` the number after the last word of its
length, and `index` the position of the next length's first symbol. -/
def decodeFrom (symbols : Array Nat) :
    (counts : List Nat) → (value first index : Nat) → BitSource →
      Except StreamFault (Nat × BitSource)
  | [], _, _, _, _ => .error .corrupt
  | count :: counts, value, first, index, source =>
      match source.next? with
      | none => .error .incomplete
      | some (bit, rest) =>
          let value := 2 * value + bit.toNat
          let first := 2 * first
          if value < first + count then
            match symbols[index + (value - first)]? with
            | some symbol => .ok (symbol, rest)
            | none => .error .corrupt
          else decodeFrom symbols counts value (first + count) (index + count) rest

/-- Reads one symbol.  A word that the code does not have is noticed after the longest length of
those that it has. -/
def decode (code : PrefixCode) (source : BitSource) : Except StreamFault (Nat × BitSource) :=
  decodeFrom code.symbols code.counts 0 0 0 source

end PrefixCode

end TreeImage.Codec
