import TreeImage.Codec.Zlib
import TreeImage.Proofs.Bytes.Word
import TreeImage.Proofs.Codec.Deflate
import TreeImage.Proofs.Error.Action

namespace TreeImage.Codec

namespace Zlib

theorem adlerFrom_lt (data : Bytes) {low high : Nat} (hlow : low < checksumBase)
    (hhigh : high < checksumBase) : adlerFrom data low high < 2 ^ 32 := by
  induction data generalizing low high with
  | nil =>
      rw [adlerFrom]
      unfold checksumBase at hlow hhigh
      omega
  | cons b data ih => exact ih (Nat.mod_lt _ (by decide)) (Nat.mod_lt _ (by decide))

theorem fromBigEndian_reverse (width n : Nat) :
    fromBigEndian (littleEndian width n).reverse = n % 256 ^ width := by
  rw [fromBigEndian, List.reverse_reverse, fromLittleEndian_littleEndian]

theorem length_le_length_flatMap_bits (tokens : List Token) :
    tokens.length ≤ (tokens.flatMap Token.bits).length := by
  induction tokens with
  | nil => exact Nat.le_refl 0
  | cons token tokens ih =>
      have hbits : 1 ≤ token.bits.length := by
        have hword : ∀ symbol, 1 ≤ (fixedLiteralWord symbol).length := by
          intro symbol
          unfold fixedLiteralWord wordBits fieldBits
          split
          · simp
          · split
            · simp
            · split
              all_goals simp
        cases token with
        | literal b => exact hword _
        | copy length distance =>
            have := hword (firstLengthSymbol + (rangeOf lengthRanges length).1)
            simp only [Token.bits, List.length_append]
            omega
      rw [List.flatMap_cons, List.length_append, List.length_cons]
      omega

theorem inflate_fixedBlock {data : Buffer} {tokens : List Token}
    (hcuts : Cuts data data.size tokens) {limit : Nat} (hlimit : data.size ≤ limit)
    (trailer : Bytes) :
    ∃ last, inflate limit (BitSource.ofBytes (fixedBlock tokens ++ trailer)) = .ok ⟨last, data⟩ ∧
      last.align.bytes = trailer := by
  have houtput : tokens.foldl Token.expand #[] = data := by
    apply Array.toList_inj.mp
    rw [hcuts.expand, List.take_of_length_le (by simp)]
  obtain ⟨padding, hpadding, hpacked⟩ := flatMap_byteBits_packInto #[]
    ([true, true, false] ++ tokens.flatMap Token.bits ++ fixedLiteralWord endOfBlock)
  generalize hbody : fixedBlock tokens ++ trailer = body
  have hbits : body.flatMap byteBits = fieldBits 3 3 ++ (tokens.flatMap Token.bits ++
      (fixedLiteralWord endOfBlock ++
        (List.replicate padding false ++ trailer.flatMap byteBits))) := by
    rw [← hbody, fixedBlock, List.flatMap_append, hpacked]
    simp only [List.append_assoc, List.nil_append, List.flatMap_nil]
    rfl
  have hstands := BitSource.stands_ofBytes body
  have hsize : tokens.length < (BitSource.ofBytes body).size := by
    have hlength := congrArg List.length hbits
    have htokens := length_le_length_flatMap_bits tokens
    simp only [length_flatMap_byteBits, List.length_append, fieldBits, List.length_map,
      List.length_range] at hlength
    simp only [BitSource.size, BitSource.ofBytes, List.length_nil]
    omega
  rw [hbits] at hstands
  obtain ⟨middle, hheader, hmiddle⟩ := hstands.take (by decide)
  have hfits : (tokens.foldl Token.expand #[]).size ≤ limit := by
    rw [houtput]
    exact hlimit
  obtain ⟨last, hexpand, hlast⟩ := expandSymbols_of_stands hcuts.codable hfits hsize hmiddle
  have hread : (Progress.mk (BitSource.ofBytes body) #[]).read (·.take 3) = _ :=
    Progress.read_eq_ok hheader
  refine ⟨last, ?_, hlast.align (by simpa using hpadding)⟩
  rw [houtput] at hexpand
  rw [inflate, expandBlocks, hread]
  simp only [bind, Except.bind, hexpand]
  rfl

theorem lt_expansionLimit (limit : Nat) : limit < expansionLimit limit := by
  unfold expansionLimit
  have hdiv := Nat.div_add_mod limit windowSize
  have hmod := Nat.mod_lt limit (show 0 < windowSize by decide)
  rw [Nat.add_mul, Nat.mul_comm]
  omega

theorem expand_compress {level limit : Nat} (hlevel : level ≠ 0) {data : Bytes}
    (hlimit : data.length ≤ limit) : expand limit (compress level data) = .ok data := by
  obtain ⟨last, hinflate, htrailer⟩ := inflate_fixedBlock (cuts_tokenize data.toArray)
    (by simpa using hlimit) (littleEndian 4 (adler32 data)).reverse
  have hframe : compress level data =
      0x78 :: 0xda :: (deflate level data ++ (littleEndian 4 (adler32 data)).reverse) := rfl
  have hheader : ¬(!isHeader 0x78 0xda) = true := by decide
  have hlength : ¬((littleEndian 4 (adler32 data)).reverse.take 4).length < 4 := by simp
  have hsum : fromBigEndian ((littleEndian 4 (adler32 data)).reverse.take 4) = adler32 data := by
    rw [List.take_of_length_le (by simp), fromBigEndian_reverse]
    exact Nat.mod_eq_of_lt (adlerFrom_lt data (by decide) (by decide))
  rw [hframe, expand, if_neg hheader, deflate, if_neg hlevel, hinflate, Except.ok_bind]
  simp only [htrailer]
  refine Except.refuse_eq_ok.mpr ⟨hlength, ?_⟩
  exact Except.refuse_eq_ok.mpr ⟨fun hdiffers => hdiffers hsum, rfl⟩

end Zlib

end TreeImage.Codec
