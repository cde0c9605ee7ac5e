import TreeImage.Proofs.Codec.FixedCodes

namespace TreeImage.Codec

def Token.IsCodable : Token → Prop
  | .literal _ => True
  | .copy length distance =>
      (3 ≤ length ∧ length ≤ longestCopy) ∧ 1 ≤ distance ∧ distance ≤ windowSize

theorem copyBack_add (output : Buffer) (distance front rest : Nat) :
    copyBack output distance (front + rest) =
      copyBack (copyBack output distance front) distance rest := by
  induction front generalizing output with
  | zero => rw [Nat.zero_add, copyBack]
  | succ front ih =>
      rw [Nat.add_right_comm, copyBack, copyBack]
      exact ih _

theorem prefix_copyBack (output : Buffer) (distance length : Nat) :
    output.toList <+: (copyBack output distance length).toList := by
  induction length generalizing output with
  | zero => exact List.prefix_refl _
  | succ length ih =>
      refine List.IsPrefix.trans ?_ (ih _)
      rw [Array.toList_push]
      exact List.prefix_append _ _

theorem toList_copyBack_of_le {front length : Nat} (hle : front ≤ length) (output : Buffer)
    (distance : Nat) : (copyBack output distance front).toList =
      (copyBack output distance length).toList.take (output.size + front) := by
  obtain ⟨rest, rfl⟩ := Nat.exists_eq_add_of_le hle
  have hfront := prefix_copyBack (copyBack output distance front) distance rest
  rw [← copyBack_add] at hfront
  rw [List.prefix_iff_eq_take.mp hfront, Array.length_toList, size_copyBack]

theorem prefix_expand (output : Buffer) (token : Token) :
    output.toList <+: (token.expand output).toList := by
  cases token with
  | literal b =>
      rw [Token.expand, Array.toList_push]
      exact List.prefix_append _ _
  | copy length distance => exact prefix_copyBack output distance length

theorem prefix_foldl_expand (tokens : List Token) (output : Buffer) :
    output.toList <+: (tokens.foldl Token.expand output).toList := by
  induction tokens generalizing output with
  | nil => exact List.prefix_refl _
  | cons token tokens ih => exact (prefix_expand output token).trans (ih _)

theorem Progress.read_eq_ok {α : Type} {progress : Progress}
    {step : BitSource → Except StreamFault (α × BitSource)} {value : α} {last : BitSource}
    (hstep : step progress.source = .ok (value, last)) :
    progress.read step = .ok (value, ⟨last, progress.output⟩) := by
  simp only [Progress.read, hstep]

variable {limit fuel : Nat} {source : BitSource} {output : Buffer} {rest : List Bool}

theorem expandSymbols_literal {b : UInt8} (hlimit : output.size < limit)
    (hstands : source.Stands ((Token.literal b).bits ++ rest)) :
    ∃ last, last.Stands rest ∧ expandSymbols fixedCodes limit (fuel + 1) ⟨source, output⟩ =
      expandSymbols fixedCodes limit fuel ⟨last, output.push b⟩ := by
  have hb : b.toNat < 256 := b.toNat_lt
  obtain ⟨last, hdecode, hlast⟩ :=
    PrefixCode.decode_of_symbol? (symbol?_fixedLiteralWord b.toNat (by omega)) hstands
  refine ⟨last, hlast, ?_⟩
  have hread : (Progress.mk source output).read fixedCodes.literals.decode = _ :=
    Progress.read_eq_ok hdecode
  have hsymbol : b.toNat < endOfBlock := hb
  rw [expandSymbols, hread]
  simp only [bind, Except.bind, if_pos hsymbol, Progress.push, if_pos hlimit, UInt8.ofNat_toNat]

theorem expandSymbols_copy {length distance : Nat}
    (hcodable : (Token.copy length distance).IsCodable)
    (hlimit : output.size + length ≤ limit)
    (hstands : source.Stands ((Token.copy length distance).bits ++ rest)) :
    ∃ last, last.Stands rest ∧ expandSymbols fixedCodes limit (fuel + 1) ⟨source, output⟩ =
      expandSymbols fixedCodes limit fuel ⟨last, copyBack output distance length⟩ := by
  obtain ⟨⟨hshort, hlong⟩, hnear, hfar⟩ := hcodable
  obtain ⟨symbol, least, extra, hrange, hsymbol, hleast, hextra⟩ := rangeOf_length hshort hlong
  obtain ⟨farSymbol, farLeast, farExtra, hfarRange, hfarSymbol, hfarLeast, hfarExtra⟩ :=
    rangeOf_distance hnear hfar
  have hsize : symbol < 29 := (Array.getElem?_eq_some_iff.mp hsymbol).1
  have hfarSize : farSymbol < 30 := (Array.getElem?_eq_some_iff.mp hfarSymbol).1
  simp only [Token.bits, hrange, hfarRange, List.append_assoc] at hstands
  obtain ⟨s1, hdecode, hs1⟩ := PrefixCode.decode_of_symbol?
    (symbol?_fixedLiteralWord (firstLengthSymbol + symbol) (by unfold firstLengthSymbol; omega))
    hstands
  obtain ⟨s2, hlength, hs2⟩ := readRanged_eq_ok hsymbol hleast hextra hs1
  obtain ⟨s3, hfarDecode, hs3⟩ :=
    PrefixCode.decode_of_symbol? (symbol?_wordBits farSymbol (by omega)) hs2
  obtain ⟨last, hdistance, hlast⟩ := readRanged_eq_ok hfarSymbol hfarLeast hfarExtra hs3
  refine ⟨last, hlast, ?_⟩
  have hread1 : (Progress.mk source output).read fixedCodes.literals.decode = _ :=
    Progress.read_eq_ok hdecode
  have hread2 : (Progress.mk s1 output).read (readRanged lengthRanges symbol) = _ :=
    Progress.read_eq_ok hlength
  have hread3 : (Progress.mk s2 output).read fixedCodes.distances.decode = _ :=
    Progress.read_eq_ok hfarDecode
  have hread4 : (Progress.mk s3 output).read (readRanged distanceRanges farSymbol) = _ :=
    Progress.read_eq_ok hdistance
  have hnotLiteral : ¬firstLengthSymbol + symbol < endOfBlock := by
    unfold firstLengthSymbol endOfBlock
    omega
  have hnotEnd : ¬firstLengthSymbol + symbol = endOfBlock := by
    unfold firstLengthSymbol endOfBlock
    omega
  rw [expandSymbols, hread1]
  simp only [bind, Except.bind, if_neg hnotLiteral, if_neg hnotEnd, Nat.add_sub_cancel_left, hread2,
    hread3, hread4, Progress.copy, if_pos hlimit]

/-- Tokens and the end of their block expand to what the tokens stand for. -/
theorem expandSymbols_of_stands {tokens : List Token}
    (hcodable : ∀ token ∈ tokens, token.IsCodable)
    (hlimit : (tokens.foldl Token.expand output).size ≤ limit) (hfuel : tokens.length < fuel)
    (hstands : source.Stands (tokens.flatMap Token.bits ++ (fixedLiteralWord endOfBlock ++ rest))) :
    ∃ last, expandSymbols fixedCodes limit fuel ⟨source, output⟩ =
      .ok ⟨last, tokens.foldl Token.expand output⟩ ∧ last.Stands rest := by
  induction tokens generalizing fuel source output with
  | nil =>
      obtain ⟨fuel, rfl⟩ := Nat.exists_eq_add_one_of_ne_zero (Nat.ne_zero_of_lt hfuel)
      obtain ⟨last, hdecode, hlast⟩ :=
        PrefixCode.decode_of_symbol? (symbol?_fixedLiteralWord endOfBlock (by decide)) hstands
      have hread : (Progress.mk source output).read fixedCodes.literals.decode = _ :=
        Progress.read_eq_ok hdecode
      refine ⟨last, ?_, hlast⟩
      rw [expandSymbols, hread]
      simp only [bind, Except.bind, if_neg (Nat.lt_irrefl endOfBlock), if_true]
      rfl
  | cons token tokens ih =>
      obtain ⟨fuel, rfl⟩ := Nat.exists_eq_add_one_of_ne_zero (Nat.ne_zero_of_lt hfuel)
      rw [List.flatMap_cons, List.append_assoc] at hstands
      rw [List.foldl_cons] at hlimit ⊢
      have hroom : (token.expand output).size ≤ limit :=
        Nat.le_trans (by simpa using (prefix_foldl_expand tokens (token.expand output)).length_le)
          hlimit
      have hothers : ∀ other ∈ tokens, other.IsCodable := fun other hmem =>
        hcodable other (by simp [hmem])
      have hleft : tokens.length < fuel := by
        simp only [List.length_cons] at hfuel
        omega
      have hstep : ∃ last, last.Stands (tokens.flatMap Token.bits ++
            (fixedLiteralWord endOfBlock ++ rest)) ∧
          expandSymbols fixedCodes limit (fuel + 1) ⟨source, output⟩ =
            expandSymbols fixedCodes limit fuel ⟨last, token.expand output⟩ := by
        cases token with
        | literal b =>
            simp only [Token.expand, Array.size_push] at hroom
            exact expandSymbols_literal (by omega) hstands
        | copy length distance =>
            simp only [Token.expand, size_copyBack] at hroom
            exact expandSymbols_copy (hcodable _ (by simp)) hroom hstands
      obtain ⟨middle, hmiddle, hexpand⟩ := hstep
      rw [hexpand]
      exact ih hothers hlimit hleft hmiddle

end TreeImage.Codec
