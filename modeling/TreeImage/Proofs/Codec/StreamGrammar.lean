import TreeImage.Proofs.Codec.Inflate
import TreeImage.Proofs.Format.Record

/-!
What a deflate stream says.  A stream is read block by block and a block token by token, with no
regard to how long the output may become.  Every token takes at least one bit, and the output only
grows.
-/

namespace TreeImage.Codec

/-- A token is read as one symbol, or as two symbols with their extra bits. -/
inductive ReadsToken (codes : BlockCodes) : BitSource → Token → BitSource → Prop
  | literal {source rest : BitSource} {symbol : Nat} :
      codes.literals.decode source = .ok (symbol, rest) → symbol < endOfBlock →
        ReadsToken codes source (.literal (UInt8.ofNat symbol)) rest
  | copy {source atExtra atDistance atFarExtra rest : BitSource}
      {symbol length farSymbol distance : Nat} :
      codes.literals.decode source = .ok (symbol, atExtra) → endOfBlock < symbol →
        readRanged lengthRanges (symbol - firstLengthSymbol) atExtra = .ok (length, atDistance) →
        codes.distances.decode atDistance = .ok (farSymbol, atFarExtra) →
        readRanged distanceRanges farSymbol atFarExtra = .ok (distance, rest) →
        ReadsToken codes source (.copy length distance) rest

/-- The tokens of a block are read up to the symbol that ends it. -/
inductive ReadsTokens (codes : BlockCodes) : BitSource → List Token → BitSource → Prop
  | stop {source rest : BitSource} :
      codes.literals.decode source = .ok (endOfBlock, rest) → ReadsTokens codes source [] rest
  | next {source middle rest : BitSource} {token : Token} {tokens : List Token} :
      ReadsToken codes source token middle → ReadsTokens codes middle tokens rest →
        ReadsTokens codes source (token :: tokens) rest

/-- What a block of some kind makes of the output before it. -/
inductive ReadsBlock : (kind : Nat) → Progress → Progress → Prop
  | stored {source : BitSource} {output : Buffer} {a b c d : UInt8} {data after : Bytes} :
      source.align.bytes = a :: b :: c :: d :: (data ++ after) →
        fromLittleEndian [a, b] = data.length →
        data.length + fromLittleEndian [c, d] = 0xffff →
        ReadsBlock 0 ⟨source, output⟩ ⟨BitSource.ofBytes after, output.pushAll data⟩
  | fixed {source rest : BitSource} {output : Buffer} {tokens : List Token} :
      ReadsTokens fixedCodes source tokens rest →
        ReadsBlock 1 ⟨source, output⟩ ⟨rest, tokens.foldl Token.expand output⟩
  | described {source middle rest : BitSource} {output : Buffer} {codes : BlockCodes}
      {tokens : List Token} :
      readCodes source = .ok (codes, middle) → ReadsTokens codes middle tokens rest →
        ReadsBlock 2 ⟨source, output⟩ ⟨rest, tokens.foldl Token.expand output⟩

/-- Blocks are read up to the one whose header says that it is the last. -/
inductive ReadsBlocks : Progress → Progress → Prop
  | last {source middle : BitSource} {output : Buffer} {header : Nat} {last : Progress} :
      source.take 3 = .ok (header, middle) → header % 2 = 1 →
        ReadsBlock (header / 2) ⟨middle, output⟩ last → ReadsBlocks ⟨source, output⟩ last
  | next {source middle : BitSource} {output : Buffer} {header : Nat} {reached last : Progress} :
      source.take 3 = .ok (header, middle) → header % 2 ≠ 1 →
        ReadsBlock (header / 2) ⟨middle, output⟩ reached → ReadsBlocks reached last →
        ReadsBlocks ⟨source, output⟩ last

section Sizes

namespace BitSource

variable {source rest : BitSource}

theorem size_of_next? {bit : Bool} (hnext : source.next? = some (bit, rest)) :
    rest.size + 1 = source.size := by
  obtain ⟨pending, bytes⟩ := source
  cases pending with
  | cons b pending =>
      cases hnext
      simp only [size, List.length_cons]
      omega
  | nil =>
      cases bytes with
      | nil => cases hnext
      | cons b bytes =>
          cases hnext
          simp only [size, List.length_cons, List.length_nil]
          omega

theorem size_of_take {width n : Nat} (htake : source.take width = .ok (n, rest)) :
    rest.size + width = source.size := by
  induction width generalizing source n with
  | zero =>
      cases htake
      rfl
  | succ width ih =>
      rw [take] at htake
      split at htake
      · cases htake
      · rename_i hnext
        split at htake
        · cases htake
        · rename_i hrest
          cases htake
          have hbit := size_of_next? hnext
          have hbits := ih hrest
          omega

theorem size_align_le (source : BitSource) : source.align.size ≤ source.size := by
  simp only [align, size, List.length_nil]
  omega

end BitSource

variable {source rest : BitSource}

theorem PrefixCode.size_lt_of_decodeFrom {symbols : Array Nat} {counts : List Nat}
    {value first index symbol : Nat}
    (hdecode : decodeFrom symbols counts value first index source = .ok (symbol, rest)) :
    rest.size < source.size := by
  induction counts generalizing source value first index with
  | nil => cases hdecode
  | cons count counts ih =>
      rw [decodeFrom] at hdecode
      split at hdecode
      · cases hdecode
      · rename_i bit middle hnext
        have hbit := BitSource.size_of_next? hnext
        dsimp only at hdecode
        split at hdecode
        · split at hdecode
          · cases hdecode
            omega
          · cases hdecode
        · have hrest := ih hdecode
          omega

theorem PrefixCode.size_lt_of_decode {code : PrefixCode} {symbol : Nat}
    (hdecode : code.decode source = .ok (symbol, rest)) : rest.size < source.size :=
  size_lt_of_decodeFrom hdecode

theorem size_le_of_readRanged {ranges : Array (Nat × Nat)} {symbol n : Nat}
    (hread : readRanged ranges symbol source = .ok (n, rest)) : rest.size ≤ source.size := by
  unfold readRanged at hread
  split at hread
  · cases hread
  · split at hread
    · cases hread
    · rename_i htake
      cases hread
      exact Nat.le_of_add_right_le (Nat.le_of_eq (BitSource.size_of_take htake))

theorem size_le_of_readLengthCodeLengths {count : Nat} {lengths : List Nat}
    (hread : readLengthCodeLengths count source = .ok (lengths, rest)) :
    rest.size ≤ source.size := by
  induction count generalizing source lengths with
  | zero =>
      cases hread
      exact Nat.le_refl _
  | succ count ih =>
      obtain ⟨⟨length, middle⟩, htake, hread⟩ := Except.bind_eq_ok.mp hread
      obtain ⟨⟨others, last⟩, hothers, hread⟩ := Except.bind_eq_ok.mp hread
      cases hread
      have hbits := BitSource.size_of_take htake
      have hrest := ih hothers
      omega

theorem size_le_of_readCodeLengths {code : PrefixCode} {wanted fuel : Nat}
    {before lengths : List Nat}
    (hread : readCodeLengths code wanted fuel before source = .ok (lengths, rest)) :
    rest.size ≤ source.size := by
  induction fuel generalizing source before with
  | zero =>
      cases hread
      exact Nat.le_refl _
  | succ fuel ih =>
      rw [readCodeLengths] at hread
      split at hread
      · cases hread
        exact Nat.le_refl _
      · obtain ⟨⟨symbol, middle⟩, hdecode, hread⟩ := Except.bind_eq_ok.mp hread
        have hsymbol := PrefixCode.size_lt_of_decode hdecode
        dsimp only at hread
        have hrepeat : ∀ {width : Nat} {next : Nat × BitSource → List Nat},
            (middle.take width >>= fun extra =>
              readCodeLengths code wanted fuel (next extra) extra.2) = .ok (lengths, rest) →
            rest.size ≤ source.size := by
          intro width next hread
          obtain ⟨⟨extra, last⟩, htake, hread⟩ := Except.bind_eq_ok.mp hread
          have hbits := BitSource.size_of_take htake
          have hrest : rest.size ≤ last.size := ih hread
          omega
        split at hread
        · exact Nat.le_trans (ih hread) (Nat.le_of_lt hsymbol)
        · split at hread
          · split at hread
            · cases hread
            · exact hrepeat hread
          · split at hread
            · exact hrepeat hread
            · exact hrepeat hread

theorem size_le_of_readCodes {codes : BlockCodes}
    (hread : readCodes source = .ok (codes, rest)) : rest.size ≤ source.size := by
  obtain ⟨⟨literalExtra, atDistance⟩, hliteral, hread⟩ := Except.bind_eq_ok.mp hread
  obtain ⟨⟨distanceExtra, atLength⟩, hdistance, hread⟩ := Except.bind_eq_ok.mp hread
  obtain ⟨⟨lengthExtra, atGiven⟩, hlength, hread⟩ := Except.bind_eq_ok.mp hread
  obtain ⟨-, hread⟩ := Except.refuse_eq_ok.mp hread
  obtain ⟨⟨given, atLengths⟩, hgiven, hread⟩ := Except.bind_eq_ok.mp hread
  obtain ⟨-, hread⟩ := Except.refuse_eq_ok.mp hread
  obtain ⟨⟨lengths, last⟩, hlengths, hread⟩ := Except.bind_eq_ok.mp hread
  obtain ⟨-, hread⟩ := Except.refuse_eq_ok.mp hread
  dsimp only at hread
  split at hread
  · cases hread
    have hbits := BitSource.size_of_take hliteral
    have hfarBits := BitSource.size_of_take hdistance
    have hlengthBits := BitSource.size_of_take hlength
    have hfew := size_le_of_readLengthCodeLengths hgiven
    have hmany := size_le_of_readCodeLengths hlengths
    omega
  · cases hread

theorem ReadsToken.size_lt {codes : BlockCodes} {token : Token}
    (hreads : ReadsToken codes source token rest) : rest.size < source.size := by
  cases hreads with
  | literal hdecode _ => exact PrefixCode.size_lt_of_decode hdecode
  | copy hdecode _ hlength hfar hdistance =>
      have hsymbol := PrefixCode.size_lt_of_decode hdecode
      have hextra := size_le_of_readRanged hlength
      have hfarSymbol := PrefixCode.size_lt_of_decode hfar
      have hfarExtra := size_le_of_readRanged hdistance
      omega

theorem ReadsTokens.size_lt {codes : BlockCodes} {tokens : List Token}
    (hreads : ReadsTokens codes source tokens rest) : rest.size < source.size := by
  induction hreads with
  | stop hdecode => exact PrefixCode.size_lt_of_decode hdecode
  | next htoken _ ih => exact Nat.lt_trans ih htoken.size_lt

/-- A block leaves no more bits than there were before it. -/
theorem ReadsBlock.size_le {kind : Nat} {progress last : Progress}
    (hreads : ReadsBlock kind progress last) : last.source.size ≤ progress.source.size := by
  cases hreads with
  | @stored source output a b c d data after hbytes _ _ =>
      have halign := source.size_align_le
      simp only [BitSource.size, hbytes, List.length_cons, List.length_append] at halign
      simp only [BitSource.ofBytes, BitSource.size, List.length_nil]
      omega
  | fixed htokens => exact Nat.le_of_lt htokens.size_lt
  | described hcodes htokens =>
      exact Nat.le_trans (Nat.le_of_lt htokens.size_lt) (size_le_of_readCodes hcodes)

theorem ReadsBlock.prefix_output {kind : Nat} {progress last : Progress}
    (hreads : ReadsBlock kind progress last) : progress.output.toList <+: last.output.toList := by
  cases hreads with
  | stored _ _ _ =>
      rw [Buffer.toList_pushAll]
      exact List.prefix_append _ _
  | fixed _ => exact prefix_foldl_expand _ _
  | described _ _ => exact prefix_foldl_expand _ _

theorem ReadsBlocks.prefix_output {progress last : Progress}
    (hreads : ReadsBlocks progress last) : progress.output.toList <+: last.output.toList := by
  induction hreads with
  | last _ _ hblock => exact hblock.prefix_output
  | next _ _ hblock _ ih => exact hblock.prefix_output.trans ih

end Sizes

end TreeImage.Codec
