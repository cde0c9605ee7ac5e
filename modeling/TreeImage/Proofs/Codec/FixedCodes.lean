import TreeImage.Codec.Inflate
import TreeImage.Proofs.Codec.BitSource

namespace TreeImage.Codec

namespace PrefixCode

/-- The symbol that a word spells, in a code as far as it has been read. -/
def symbolFrom (symbols : Array Nat) :
    (counts : List Nat) → (value first index : Nat) → (word : List Bool) → Option Nat
  | count :: counts, value, first, index, bit :: word =>
      let value := 2 * value + bit.toNat
      let first := 2 * first
      if value < first + count then
        if word = [] then symbols[index + (value - first)]? else none
      else symbolFrom symbols counts value (first + count) (index + count) word
  | _, _, _, _, _ => none

def symbol? (code : PrefixCode) (word : List Bool) : Option Nat :=
  symbolFrom code.symbols code.counts 0 0 0 word

variable {source : BitSource} {rest : List Bool}

theorem decodeFrom_of_symbolFrom {symbols : Array Nat} {counts : List Nat}
    {value first index symbol : Nat} {word : List Bool}
    (hword : symbolFrom symbols counts value first index word = some symbol)
    (hstands : source.Stands (word ++ rest)) :
    ∃ last, decodeFrom symbols counts value first index source = .ok (symbol, last) ∧
      last.Stands rest := by
  induction counts generalizing value first index word source with
  | nil => cases hword
  | cons count counts ih =>
      cases word with
      | nil => cases hword
      | cons bit word =>
          obtain ⟨middle, hnext, hmiddle⟩ := hstands.next?
          rw [symbolFrom] at hword
          simp only [decodeFrom, hnext]
          by_cases hfits : 2 * value + bit.toNat < 2 * first + count
          · rw [if_pos hfits] at hword
            rw [if_pos hfits]
            by_cases hend : word = []
            · rw [if_pos hend] at hword
              rw [hword]
              rw [hend] at hmiddle
              exact ⟨middle, rfl, hmiddle⟩
            · rw [if_neg hend] at hword
              cases hword
          · rw [if_neg hfits] at hword
            rw [if_neg hfits]
            exact ih hword hmiddle

theorem decode_of_symbol? {code : PrefixCode} {word : List Bool} {symbol : Nat}
    (hword : code.symbol? word = some symbol) (hstands : source.Stands (word ++ rest)) :
    ∃ last, code.decode source = .ok (symbol, last) ∧ last.Stands rest :=
  decodeFrom_of_symbolFrom hword hstands

end PrefixCode

theorem symbol?_fixedLiteralWord : ∀ symbol < 288,
    fixedCodes.literals.symbol? (fixedLiteralWord symbol) = some symbol := by
  decide +kernel

theorem symbol?_wordBits : ∀ symbol < 32,
    fixedCodes.distances.symbol? (wordBits 5 symbol) = some symbol := by
  decide +kernel

/-- Whether ranges cover all values from the start of the first one up to a bound, each reaching at
least to the start of the next. -/
def covers (bound : Nat) : List (Nat × Nat) → Bool
  | [] => true
  | [(least, extra)] => bound ≤ least + 2 ^ extra
  | (least, extra) :: (next, more) :: ranges =>
      next ≤ least + 2 ^ extra && covers bound ((next, more) :: ranges)

theorem exists_range_of_covers {bound value : Nat} (hbound : value < bound)
    {range : Nat × Nat} {ranges : List (Nat × Nat)}
    (hcovers : covers bound (range :: ranges) = true)
    (hvalue : range.1 ≤ value) :
    ∃ least extra,
      (range :: ranges)[((range :: ranges).takeWhile fun range => range.1 ≤ value).length - 1]? =
        some (least, extra) ∧ least ≤ value ∧ value - least < 2 ^ extra := by
  induction ranges generalizing range with
  | nil =>
      obtain ⟨least, extra⟩ := range
      simp only [covers, decide_eq_true_eq] at hcovers
      refine ⟨least, extra, by simp [hvalue], hvalue, ?_⟩
      omega
  | cons next ranges ih =>
      obtain ⟨least, extra⟩ := range
      obtain ⟨start, more⟩ := next
      simp only [covers, Bool.and_eq_true, decide_eq_true_eq] at hcovers
      rw [List.takeWhile_cons_of_pos (by simpa using hvalue), List.length_cons,
        Nat.add_sub_cancel]
      by_cases hnext : start ≤ value
      · obtain ⟨found, width, hfound, hin⟩ := ih hcovers.2 hnext
        refine ⟨found, width, ?_, hin⟩
        rw [List.takeWhile_cons_of_pos (by simpa using hnext), List.length_cons,
          List.getElem?_cons_succ]
        rwa [List.takeWhile_cons_of_pos (by simpa using hnext), List.length_cons,
          Nat.add_sub_cancel] at hfound
      · rw [List.takeWhile_cons_of_neg (by simpa using hnext)]
        refine ⟨least, extra, rfl, hvalue, ?_⟩
        omega

/-- A value is told by the range that it is in and its place there. -/
theorem rangeOf_eq {ranges : Array (Nat × Nat)} {range : Nat × Nat} {others : List (Nat × Nat)}
    (hranges : ranges.toList = range :: others) {bound value : Nat}
    (hcovers : covers bound (range :: others) = true) (hvalue : range.1 ≤ value)
    (hbound : value < bound) :
    ∃ symbol least extra, rangeOf ranges value = (symbol, least, extra) ∧
      ranges[symbol]? = some (least, extra) ∧ least ≤ value ∧ value - least < 2 ^ extra := by
  obtain ⟨least, extra, hfound, hin⟩ := exists_range_of_covers hbound hcovers hvalue
  rw [← hranges, Array.getElem?_toList] at hfound
  refine ⟨_, least, extra, ?_, hfound, hin⟩
  rw [rangeOf]
  simp only [Array.getD_eq_getD_getElem?, hfound, Option.getD_some]

theorem rangeOf_length {length : Nat} (hleast : 3 ≤ length) (hmost : length ≤ longestCopy) :
    ∃ symbol least extra, rangeOf lengthRanges length = (symbol, least, extra) ∧
      lengthRanges[symbol]? = some (least, extra) ∧ least ≤ length ∧
        length - least < 2 ^ extra :=
  rangeOf_eq rfl (by decide) hleast (Nat.lt_succ_of_le hmost)

theorem rangeOf_distance {distance : Nat} (hleast : 1 ≤ distance)
    (hmost : distance ≤ windowSize) :
    ∃ symbol least extra, rangeOf distanceRanges distance = (symbol, least, extra) ∧
      distanceRanges[symbol]? = some (least, extra) ∧ least ≤ distance ∧
        distance - least < 2 ^ extra :=
  rangeOf_eq rfl (by decide) hleast (Nat.lt_succ_of_le hmost)

variable {source : BitSource} {rest : List Bool}

theorem readRanged_eq_ok {ranges : Array (Nat × Nat)} {symbol least extra value : Nat}
    (hrange : ranges[symbol]? = some (least, extra)) (hleast : least ≤ value)
    (hextra : value - least < 2 ^ extra)
    (hstands : source.Stands (fieldBits extra (value - least) ++ rest)) :
    ∃ last, readRanged ranges symbol source = .ok (value, last) ∧ last.Stands rest := by
  obtain ⟨last, htake, hlast⟩ := hstands.take hextra
  refine ⟨last, ?_, hlast⟩
  simp only [readRanged, hrange, htake, Nat.add_sub_cancel' hleast]

end TreeImage.Codec
