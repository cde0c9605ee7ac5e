import TreeImage.Proofs.Codec.StreamGrammar

namespace TreeImage.Codec

/-- The expansion of the block of some kind after its header. -/
def expandBlock (limit fuel kind : Nat) (progress : Progress) : Except Halt Progress :=
  match kind with
  | 0 => expandStored limit progress
  | 1 => expandSymbols fixedCodes limit fuel progress
  | 2 => do
      let (codes, progress) ← progress.read readCodes
      expandSymbols codes limit fuel progress
  | _ => progress.corrupt

theorem expandBlocks_succ (limit fuel : Nat) (progress : Progress) :
    expandBlocks limit (fuel + 1) progress = (do
      let (header, progress) ← progress.read (·.take 3)
      let progress ← expandBlock limit fuel (header / 2) progress
      if header % 2 = 1 then return progress
      else expandBlocks limit fuel progress) := by
  rw [expandBlocks]
  refine Except.bind_congr_of_ok fun found _ => ?_
  obtain ⟨header, middle⟩ := found
  dsimp only
  rcases hkind : header / 2 with _ | _ | _ | kind
  · rfl
  · rfl
  · change _ = (middle.read readCodes >>= _) >>= _
    rw [bind_assoc]
    rfl
  · rfl

/-- How an expansion under a limit ends that would end in `last` without one. -/
def Ends (limit : Nat) (last : Progress) (result : Except Halt Progress) : Prop :=
  if last.output.size ≤ limit then result = .ok last
  else ∃ output isUsedUp, result = .error (.full output isUsedUp) ∧
    output.toList = last.output.toList.take limit

section Ends

variable {limit fuel : Nat} {progress middle last : Progress} {result : Except Halt Progress}

theorem Ends.of_le (hends : Ends limit last result) (hroom : last.output.size ≤ limit) :
    result = .ok last := by
  rwa [Ends, if_pos hroom] at hends

theorem Ends.of_lt (hends : Ends limit last result) (hpast : limit < last.output.size) :
    ∃ output isUsedUp, result = .error (.full output isUsedUp) ∧
      output.toList = last.output.toList.take limit := by
  rwa [Ends, if_neg (Nat.not_le_of_lt hpast)] at hends

theorem ends_ok (hroom : last.output.size ≤ limit) : Ends limit last (.ok last) := by
  rw [Ends, if_pos hroom]

theorem Ends.bind {next : Progress → Except Halt Progress} (hfirst : Ends limit middle result)
    (hgrows : middle.output.toList <+: last.output.toList)
    (hrest : middle.output.size ≤ limit → Ends limit last (next middle)) :
    Ends limit last (result >>= next) := by
  rcases Nat.lt_or_ge limit middle.output.size with hpast | hroom
  · obtain ⟨output, isUsedUp, hfull, houtput⟩ := hfirst.of_lt hpast
    have hsize := hgrows.length_le
    simp only [Array.length_toList] at hsize
    rw [hfull, Ends, if_neg (by omega)]
    refine ⟨output, isUsedUp, rfl, houtput.trans ?_⟩
    rw [List.prefix_iff_eq_take.mp hgrows, List.take_take, Array.length_toList,
      Nat.min_eq_left (Nat.le_of_lt hpast)]
  · rw [hfirst.of_le hroom]
    exact hrest hroom

theorem ends_push (progress : Progress) (hroom : progress.output.size ≤ limit) (b : UInt8) :
    Ends limit ⟨progress.source, progress.output.push b⟩ (progress.push limit b) := by
  unfold Ends Progress.push
  dsimp only
  rw [Array.size_push]
  by_cases hmore : progress.output.size < limit
  · rw [if_pos hmore, if_pos (Nat.succ_le_of_lt hmore)]
  · rw [if_neg hmore, if_neg (mt Nat.lt_of_succ_le hmore)]
    refine ⟨_, _, rfl, ?_⟩
    have hexact : limit = progress.output.toList.length := by
      rw [Array.length_toList]
      omega
    rw [Array.toList_push, hexact, List.take_left]

theorem ends_copy (progress : Progress) (hroom : progress.output.size ≤ limit)
    (length distance : Nat) :
    Ends limit ⟨progress.source, copyBack progress.output distance length⟩
      (progress.copy limit length distance) := by
  unfold Ends Progress.copy
  dsimp only
  rw [size_copyBack]
  by_cases hmore : progress.output.size + length ≤ limit
  · rw [if_pos hmore, if_pos hmore]
  · rw [if_neg hmore, if_neg hmore]
    refine ⟨_, _, rfl, ?_⟩
    have hcut : limit - progress.output.size ≤ length := by omega
    rw [toList_copyBack_of_le hcut, Nat.add_sub_cancel' hroom]

variable {codes : BlockCodes} {source rest : BitSource} {output : Buffer}

theorem ReadsToken.expandSymbols_eq {token : Token} (hreads : ReadsToken codes source token rest)
    (hroom : output.size ≤ limit) (fuel : Nat) :
    ∃ step, Ends limit ⟨rest, token.expand output⟩ step ∧
      expandSymbols codes limit (fuel + 1) ⟨source, output⟩ =
        step >>= expandSymbols codes limit fuel := by
  cases hreads with
  | @literal _ symbol hdecode hsymbol =>
      refine ⟨_, ends_push ⟨rest, output⟩ hroom (UInt8.ofNat symbol), ?_⟩
      have hread : (Progress.mk source output).read codes.literals.decode = _ :=
        Progress.read_eq_ok hdecode
      rw [expandSymbols, hread, Except.ok_bind]
      exact if_pos hsymbol
  | @copy atExtra atDistance atFarExtra _ symbol length farSymbol distance
      hdecode hsymbol hlength hfar hdistance =>
      refine ⟨_, ends_copy ⟨rest, output⟩ hroom length distance, ?_⟩
      have hread : (Progress.mk source output).read codes.literals.decode = _ :=
        Progress.read_eq_ok hdecode
      have hreadLength : (Progress.mk atExtra output).read
          (readRanged lengthRanges (symbol - firstLengthSymbol)) = _ :=
        Progress.read_eq_ok hlength
      have hreadFar : (Progress.mk atDistance output).read codes.distances.decode = _ :=
        Progress.read_eq_ok hfar
      have hreadDistance : (Progress.mk atFarExtra output).read
          (readRanged distanceRanges farSymbol) = _ := Progress.read_eq_ok hdistance
      have hnotLiteral : ¬symbol < endOfBlock := Nat.not_lt_of_lt hsymbol
      have hnotEnd : symbol ≠ endOfBlock := Nat.ne_of_gt hsymbol
      rw [expandSymbols, hread, Except.ok_bind]
      dsimp only
      rw [if_neg hnotLiteral, if_neg hnotEnd, hreadLength, Except.ok_bind]
      dsimp only
      rw [hreadFar, Except.ok_bind]
      dsimp only
      rw [hreadDistance, Except.ok_bind]

theorem ReadsTokens.ends {tokens : List Token} (hreads : ReadsTokens codes source tokens rest)
    (hroom : output.size ≤ limit) (hfuel : source.size < fuel) :
    Ends limit ⟨rest, tokens.foldl Token.expand output⟩
      (expandSymbols codes limit fuel ⟨source, output⟩) := by
  induction hreads generalizing fuel output with
  | @stop source rest hdecode =>
      obtain ⟨fuel, rfl⟩ := Nat.exists_eq_add_one_of_ne_zero (Nat.ne_zero_of_lt hfuel)
      have hread : (Progress.mk source output).read codes.literals.decode = _ :=
        Progress.read_eq_ok hdecode
      rw [expandSymbols, hread, Except.ok_bind]
      exact ends_ok hroom
  | @next source middle rest token tokens htoken hrest ih =>
      obtain ⟨fuel, rfl⟩ := Nat.exists_eq_add_one_of_ne_zero (Nat.ne_zero_of_lt hfuel)
      obtain ⟨step, hstep, hexpand⟩ := htoken.expandSymbols_eq hroom fuel
      have hshorter := htoken.size_lt
      rw [hexpand]
      exact hstep.bind (prefix_foldl_expand tokens _) fun hroom => ih hroom (by omega)

theorem ends_expandStored (hroom : output.size ≤ limit) {a b c d : UInt8} {data after : Bytes}
    (hbytes : source.align.bytes = a :: b :: c :: d :: (data ++ after))
    (hlength : fromLittleEndian [a, b] = data.length)
    (hcomplement : data.length + fromLittleEndian [c, d] = 0xffff) :
    Ends limit ⟨BitSource.ofBytes after, output.pushAll data⟩
      (expandStored limit ⟨source, output⟩) := by
  have hsize : (output.pushAll data).size = output.size + data.length := by
    rw [← Array.length_toList, Buffer.toList_pushAll, List.length_append, Array.length_toList]
  unfold Ends expandStored
  dsimp only
  rw [hbytes]
  dsimp only
  rw [hlength, if_neg (not_not_intro hcomplement), List.splitAt_eq, List.take_left,
    List.drop_left, hsize]
  dsimp only
  by_cases hmore : output.size + data.length ≤ limit
  · rw [if_pos hmore, if_neg (Nat.not_lt_of_le hmore), if_neg (Nat.lt_irrefl _)]
  · rw [if_neg hmore, if_pos (Nat.lt_of_not_le hmore)]
    refine ⟨_, false, rfl, ?_⟩
    have hbefore : output.toList.length ≤ limit := by rwa [Array.length_toList]
    rw [Buffer.toList_pushAll, Buffer.toList_pushAll, List.take_append,
      List.take_of_length_le hbefore, Array.length_toList]

theorem ReadsBlock.ends {kind : Nat} (hreads : ReadsBlock kind progress last)
    (hroom : progress.output.size ≤ limit) (hfuel : progress.source.size < fuel) :
    Ends limit last (expandBlock limit fuel kind progress) := by
  cases hreads with
  | stored hbytes hlength hcomplement => exact ends_expandStored hroom hbytes hlength hcomplement
  | fixed htokens => exact htokens.ends hroom hfuel
  | @described source middle _ output codes _ hcodes htokens =>
      have hread : (Progress.mk source output).read readCodes = _ := Progress.read_eq_ok hcodes
      rw [expandBlock, hread, Except.ok_bind]
      exact htokens.ends hroom (Nat.lt_of_le_of_lt (size_le_of_readCodes hcodes) hfuel)

theorem ReadsBlocks.ends (hreads : ReadsBlocks progress last)
    (hroom : progress.output.size ≤ limit) (hfuel : progress.source.size < fuel) :
    Ends limit last (expandBlocks limit fuel progress) := by
  induction hreads generalizing fuel with
  | @last source middle output header last hheader hlast hblock =>
      obtain ⟨fuel, rfl⟩ := Nat.exists_eq_add_one_of_ne_zero (Nat.ne_zero_of_lt hfuel)
      have hread : (Progress.mk source output).read (·.take 3) = _ := Progress.read_eq_ok hheader
      have hbits := BitSource.size_of_take hheader
      rw [expandBlocks_succ, hread, Except.ok_bind]
      refine (hblock.ends hroom (by dsimp only at hfuel ⊢; omega)).bind (List.prefix_refl _) ?_
      intro hstill
      rw [if_pos hlast]
      exact ends_ok hstill
  | @next source middle output header reached last hheader hmore hblock hrest ih =>
      obtain ⟨fuel, rfl⟩ := Nat.exists_eq_add_one_of_ne_zero (Nat.ne_zero_of_lt hfuel)
      have hread : (Progress.mk source output).read (·.take 3) = _ := Progress.read_eq_ok hheader
      have hbits := BitSource.size_of_take hheader
      have hleft := hblock.size_le
      dsimp only at hfuel hleft
      rw [expandBlocks_succ, hread, Except.ok_bind]
      refine (hblock.ends hroom (by dsimp only; omega)).bind hrest.prefix_output ?_
      intro hstill
      rw [if_neg hmore]
      exact ih hstill (by omega)

end Ends

section Sound

variable {limit fuel : Nat} {progress next last : Progress}

theorem Progress.of_read_eq_ok {α : Type} {step : BitSource → Except StreamFault (α × BitSource)}
    {value : α} (hread : progress.read step = .ok (value, next)) :
    step progress.source = .ok (value, next.source) ∧ next.output = progress.output := by
  unfold read at hread
  split at hread
  · cases hread
  · rename_i hstep
    cases hread
    exact ⟨hstep, rfl⟩

theorem Progress.eq_of_push {b : UInt8} (hpush : progress.push limit b = .ok next) :
    next = ⟨progress.source, progress.output.push b⟩ := by
  unfold push at hpush
  split at hpush
  · exact (Except.ok.inj hpush).symm
  · cases hpush

theorem Progress.eq_of_copy {length distance : Nat}
    (hcopy : progress.copy limit length distance = .ok next) :
    next = ⟨progress.source, copyBack progress.output distance length⟩ := by
  unfold copy at hcopy
  split at hcopy
  · exact (Except.ok.inj hcopy).symm
  · cases hcopy

/-- Symbols that are expanded are tokens, and they are expanded to what the tokens stand for. -/
theorem readsTokens_of_expandSymbols {codes : BlockCodes}
    (hexpand : expandSymbols codes limit fuel progress = .ok last) :
    ∃ tokens, ReadsTokens codes progress.source tokens last.source ∧
      last.output = tokens.foldl Token.expand progress.output := by
  induction fuel generalizing progress with
  | zero => cases hexpand
  | succ fuel ih =>
      rw [expandSymbols] at hexpand
      obtain ⟨⟨symbol, middle⟩, hread, hexpand⟩ := Except.bind_eq_ok.mp hexpand
      obtain ⟨hdecode, houtput⟩ := Progress.of_read_eq_ok hread
      dsimp only at hexpand
      split at hexpand
      · rename_i hsymbol
        obtain ⟨after, hpush, hexpand⟩ := Except.bind_eq_ok.mp hexpand
        obtain rfl := Progress.eq_of_push hpush
        obtain ⟨tokens, hreads, hlast⟩ := ih hexpand
        refine ⟨_, .next (.literal hdecode hsymbol) hreads, ?_⟩
        rw [hlast, houtput]
        rfl
      · rename_i hnotLiteral
        split at hexpand
        · rename_i hend
          cases hexpand
          exact ⟨[], .stop (hend ▸ hdecode), houtput⟩
        · rename_i hnotEnd
          obtain ⟨⟨length, atDistance⟩, hlength, hexpand⟩ := Except.bind_eq_ok.mp hexpand
          obtain ⟨⟨farSymbol, atFarExtra⟩, hfar, hexpand⟩ := Except.bind_eq_ok.mp hexpand
          obtain ⟨⟨distance, reached⟩, hdistance, hexpand⟩ := Except.bind_eq_ok.mp hexpand
          obtain ⟨after, hcopy, hexpand⟩ := Except.bind_eq_ok.mp hexpand
          obtain ⟨hlength, hsame⟩ := Progress.of_read_eq_ok hlength
          obtain ⟨hfar, hsameFar⟩ := Progress.of_read_eq_ok hfar
          obtain ⟨hdistance, hsameLast⟩ := Progress.of_read_eq_ok hdistance
          obtain rfl := Progress.eq_of_copy hcopy
          obtain ⟨tokens, hreads, hlast⟩ := ih hexpand
          have hsymbol : endOfBlock < symbol := by omega
          refine ⟨_, .next (.copy hdecode hsymbol hlength hfar hdistance) hreads, ?_⟩
          rw [hlast, hsameLast, hsameFar, hsame, houtput]
          rfl

theorem readsBlock_of_expandStored (hexpand : expandStored limit progress = .ok last) :
    ReadsBlock 0 progress last := by
  obtain ⟨source, output⟩ := progress
  unfold expandStored at hexpand
  split at hexpand
  · rename_i a b c d rest hbytes
    dsimp only at hbytes hexpand
    split at hexpand
    · cases hexpand
    · rename_i hcomplement
      rw [List.splitAt_eq] at hexpand
      dsimp only at hexpand
      split at hexpand
      · cases hexpand
      · split at hexpand
        · cases hexpand
        · rename_i hwhole
          cases hexpand
          have hlength : (rest.take (fromLittleEndian [a, b])).length = fromLittleEndian [a, b] :=
            Nat.le_antisymm (List.length_take_le ..) (Nat.le_of_not_lt hwhole)
          have hsplit : source.align.bytes =
              a :: b :: c :: d :: (rest.take (fromLittleEndian [a, b]) ++
                rest.drop (fromLittleEndian [a, b])) := by
            rw [List.take_append_drop, hbytes]
          refine .stored hsplit hlength.symm ?_
          rw [hlength]
          exact Decidable.not_not.mp hcomplement
  · cases hexpand

theorem readsBlock_of_expandBlock {kind : Nat}
    (hexpand : expandBlock limit fuel kind progress = .ok last) :
    ReadsBlock kind progress last := by
  obtain ⟨source, output⟩ := progress
  obtain ⟨rest, after⟩ := last
  match kind with
  | 0 => exact readsBlock_of_expandStored hexpand
  | 1 =>
      obtain ⟨tokens, hreads, rfl⟩ := readsTokens_of_expandSymbols hexpand
      exact .fixed hreads
  | 2 =>
      obtain ⟨⟨codes, middle⟩, hcodes, hexpand⟩ := Except.bind_eq_ok.mp hexpand
      obtain ⟨hcodes, hsame⟩ := Progress.of_read_eq_ok hcodes
      obtain ⟨tokens, hreads, hafter⟩ := readsTokens_of_expandSymbols hexpand
      dsimp only at hafter hsame
      rw [hafter, hsame]
      exact .described hcodes hreads
  | _ + 3 => cases hexpand

theorem readsBlocks_of_expandBlocks (hexpand : expandBlocks limit fuel progress = .ok last) :
    ReadsBlocks progress last := by
  induction fuel generalizing progress with
  | zero => cases hexpand
  | succ fuel ih =>
      obtain ⟨source, output⟩ := progress
      rw [expandBlocks_succ] at hexpand
      obtain ⟨⟨header, middle, same⟩, hread, hblocks⟩ := Except.bind_eq_ok.mp hexpand
      obtain ⟨reached, hblock, hrest⟩ := Except.bind_eq_ok.mp hblocks
      obtain ⟨hheader, hsame⟩ := Progress.of_read_eq_ok hread
      dsimp only at hheader hsame hblock
      subst hsame
      have hreads := readsBlock_of_expandBlock hblock
      split at hrest
      · rename_i hlast
        cases hrest
        exact .last hheader hlast hreads
      · rename_i hmore
        exact .next hheader hmore hreads (ih hrest)

end Sound

section Inflate

variable {source : BitSource} {last : Progress}

theorem ReadsBlocks.inflate_ends (hreads : ReadsBlocks ⟨source, #[]⟩ last) (limit : Nat) :
    Ends limit last (inflate limit source) :=
  hreads.ends (Nat.zero_le limit) (Nat.lt_succ_self _)

theorem readsBlocks_of_inflate {limit : Nat} (hinflate : inflate limit source = .ok last) :
    ReadsBlocks ⟨source, #[]⟩ last := readsBlocks_of_expandBlocks hinflate

end Inflate

end TreeImage.Codec
