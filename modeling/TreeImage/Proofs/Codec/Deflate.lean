import TreeImage.Proofs.Codec.Inflate

namespace TreeImage.Codec

/-- What a match says: its bytes are all there, and they equal the earlier ones. -/
theorem matchLength_spec (data : Buffer) (left right most : Nat) :
    matchLength data left right most ≤ most ∧
      ∀ i < matchLength data left right most, right + i < data.size ∧
        data.getD (left + i) 0 = data.getD (right + i) 0 := by
  induction most generalizing left right with
  | zero => exact ⟨Nat.le_refl _, fun i hi => absurd hi (Nat.not_lt_zero i)⟩
  | succ most ih =>
      rw [matchLength]
      by_cases hequal : (right < data.size && data.getD left 0 == data.getD right 0) = true
      · rw [if_pos hequal]
        obtain ⟨hle, hmatch⟩ := ih (left + 1) (right + 1)
        simp only [Bool.and_eq_true, decide_eq_true_eq, beq_iff_eq] at hequal
        refine ⟨Nat.succ_le_succ hle, ?_⟩
        intro i hi
        cases i with
        | zero => exact hequal
        | succ i =>
            have hrest := hmatch i (by omega)
            rwa [Nat.add_right_comm left, Nat.add_right_comm right] at hrest
      · rw [if_neg hequal]
        exact ⟨Nat.zero_le _, fun i hi => absurd hi (Nat.not_lt_zero i)⟩

theorem toList_push_of_take {data output : Buffer} {position : Nat}
    (houtput : output.toList = data.toList.take position) (hposition : position < data.size) :
    (output.push data[position]).toList = data.toList.take (position + 1) := by
  rw [Array.toList_push, houtput, List.take_add_one, Array.getElem?_toList,
    Array.getElem?_eq_getElem hposition]
  rfl

theorem toList_copyBack {data output : Buffer} {position distance length : Nat}
    (houtput : output.toList = data.toList.take position) (hnear : 1 ≤ distance)
    (hfar : distance ≤ position)
    (hmatch : ∀ i < length, position + i < data.size ∧
      data.getD (position + i - distance) 0 = data.getD (position + i) 0) :
    (copyBack output distance length).toList = data.toList.take (position + length) := by
  induction length generalizing output position with
  | zero => exact houtput
  | succ length ih =>
      obtain ⟨hposition, hbyte⟩ := hmatch 0 (Nat.zero_lt_succ length)
      rw [Nat.add_zero] at hposition hbyte
      have hsize : output.size = position := by
        rw [← Array.length_toList, houtput, List.length_take, Array.length_toList]
        omega
      have hback : byteBack output distance = data[position] := by
        have hplace : output[position - distance]? = data[position - distance]? := by
          rw [← Array.getElem?_toList, houtput, List.getElem?_take_of_lt (by omega),
            Array.getElem?_toList]
        rw [byteBack, if_pos (by omega), hsize, Array.getD_eq_getD_getElem?, hplace,
          ← Array.getD_eq_getD_getElem?, hbyte, Array.getD_eq_getD_getElem?,
          Array.getElem?_eq_getElem hposition, Option.getD_some]
      rw [copyBack, hback, Nat.add_comm length 1, ← Nat.add_assoc]
      refine ih (toList_push_of_take houtput hposition) (by omega) ?_
      intro i hi
      have hnext := hmatch (i + 1) (by omega)
      rwa [Nat.add_comm i 1, ← Nat.add_assoc] at hnext

/-- Whether only places before a position have been noted. -/
def IsSeen (seen : Std.HashMap Nat Nat) (position : Nat) : Prop :=
  ∀ triple, seen.getD triple 0 = 0 ∨ seen.getD triple 0 < position

theorem isSeen_noteTriples (data : Buffer) {seen : Std.HashMap Nat Nat} {position : Nat}
    (hseen : IsSeen seen position) (count : Nat) :
    IsSeen (noteTriples data seen position count) (position + count) := by
  induction count generalizing seen position with
  | zero => exact hseen
  | succ count ih =>
      rw [noteTriples, Nat.add_comm count 1, ← Nat.add_assoc]
      refine ih ?_
      intro triple
      rw [Std.HashMap.getD_insert]
      split
      · exact Or.inr (Nat.lt_succ_self position)
      · rcases hseen triple with hzero | hlt
        · exact Or.inl hzero
        · exact Or.inr (Nat.lt_succ_of_lt hlt)

theorem findCopy?_eq_some {data : Buffer} {seen : Std.HashMap Nat Nat} {position length : Nat}
    {distance : Nat} (hseen : IsSeen seen position)
    (hfound : findCopy? data seen position = some (length, distance)) :
    (Token.copy length distance).IsCodable ∧ distance ≤ position ∧
      ∀ i < length, position + i < data.size ∧
        data.getD (position + i - distance) 0 = data.getD (position + i) 0 := by
  unfold findCopy? at hfound
  split at hfound
  · cases hfound
  · rename_i place hplace
    have hbefore : place + 1 < position := by
      have := hseen (tripleAt data position)
      omega
    obtain ⟨hmost, hmatch⟩ := matchLength_spec data (place + 1) position longestCopy
    dsimp only at hfound
    split at hfound
    · rename_i hworth
      simp only [Bool.and_eq_true, decide_eq_true_eq] at hworth
      cases hfound
      have hreach : reach data position ≤ windowSize := Nat.sub_le ..
      refine ⟨⟨⟨hworth.1, hmost⟩, by omega, by omega⟩, Nat.sub_le .., ?_⟩
      intro i hi
      obtain ⟨hinside, hequal⟩ := hmatch i hi
      refine ⟨hinside, ?_⟩
      rw [show position + i - (position - (place + 1)) = place + 1 + i by omega]
      exact hequal
    · cases hfound

/-- What holds of tokens that stand for the first bytes of the data. -/
structure Cuts (data : Buffer) (position : Nat) (tokens : List Token) : Prop where
  codable : ∀ token ∈ tokens, token.IsCodable
  expand : (tokens.foldl Token.expand #[]).toList = data.toList.take position

theorem Cuts.concat {data : Buffer} {position next : Nat} {tokens : List Token} {token : Token}
    (hcuts : Cuts data position tokens) (hcodable : token.IsCodable)
    (hexpand : ∀ output : Buffer, output.toList = data.toList.take position →
      (token.expand output).toList = data.toList.take next) :
    Cuts data next (tokens ++ [token]) := by
  refine ⟨?_, ?_⟩
  · intro other hmem
    rcases List.mem_append.mp hmem with hmem | hmem
    · exact hcuts.codable other hmem
    · rwa [List.mem_singleton.mp hmem]
  · rw [List.foldl_append]
    exact hexpand _ hcuts.expand

theorem cuts_tokenizeFrom (data : Buffer) {fuel position : Nat} {seen : Std.HashMap Nat Nat}
    {tokens : Array Token} (hfuel : data.size - position ≤ fuel)
    (hposition : position ≤ data.size) (hseen : IsSeen seen position)
    (hcuts : Cuts data position tokens.toList) :
    Cuts data data.size (tokenizeFrom data fuel position seen tokens).toList := by
  induction fuel generalizing position seen tokens with
  | zero =>
      rw [show data.size = position by omega]
      exact hcuts
  | succ fuel ih =>
      rw [tokenizeFrom]
      split
      · rename_i hinside
        split
        · rename_i length distance hcopy
          obtain ⟨hcodable, hfar, hmatch⟩ := findCopy?_eq_some hseen hcopy
          have hlength : 3 ≤ length := hcodable.1.1
          have hend := (hmatch (length - 1) (by omega)).1
          refine ih (by omega) (by omega) (isSeen_noteTriples data hseen length) ?_
          rw [Array.toList_push]
          exact hcuts.concat hcodable fun output houtput =>
            toList_copyBack houtput hcodable.2.1 hfar hmatch
        · refine ih (by omega) hinside (isSeen_noteTriples data hseen 1) ?_
          rw [Array.toList_push]
          exact hcuts.concat trivial fun output houtput => toList_push_of_take houtput hinside
      · rw [show data.size = position by omega]
        exact hcuts

theorem cuts_tokenize (data : Buffer) : Cuts data data.size (tokenize data) := by
  refine cuts_tokenizeFrom data (Nat.sub_le ..) (Nat.zero_le _) ?_ ⟨nofun, rfl⟩
  intro triple
  exact Or.inl Std.HashMap.getD_empty

end TreeImage.Codec
