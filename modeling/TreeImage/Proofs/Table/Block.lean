import TreeImage.Proofs.Codec.Basic
import TreeImage.Proofs.Storage.Stored
import TreeImage.Table.Records

namespace TreeImage.Table

open Format

variable {region : Region} {codec : Codec} {position limit stored : Nat} {payload : Bytes}

/-- The payload that a block's header and its stored bytes stand for. -/
def payloadOf (codec : Codec) (header : Nat) (frame : Bytes) : Except Error Bytes :=
  if metadataRaw ≤ header then .ok frame else codec.decompress frame metadataBlockSize

theorem readBlock_eq_ok :
    readBlock region codec position limit = .ok (payload, stored) ↔
      position + 2 + stored ≤ limit ∧ position + 2 + stored < addressSpace ∧
        stored ≠ 0 ∧ stored ≤ metadataBlockSize ∧
        ∃ header frame, region.read position 2 = .ok header ∧
          fromLittleEndian header % metadataRaw = stored ∧
          region.read (position + 2) stored = .ok frame ∧
          payloadOf codec (fromLittleEndian header) frame = .ok payload := by
  unfold readBlock payloadOf
  rw [Except.refuse_eq_ok]
  constructor
  · rintro ⟨hstart, hread⟩
    obtain ⟨header, hheader, hread⟩ := Except.bind_eq_ok.mp hread
    obtain ⟨hlength, hread⟩ := Except.refuse_eq_ok.mp hread
    obtain ⟨stop, hstop, hread⟩ := Except.bind_eq_ok.mp hread
    obtain ⟨hfits, rfl⟩ := Trapping.eq_of_add_eq_ok hstop
    obtain ⟨hoverrun, hread⟩ := Except.refuse_eq_ok.mp hread
    obtain ⟨frame, hframe, hread⟩ := Except.bind_eq_ok.mp hread
    have hresult : fromLittleEndian header % metadataRaw = stored ∧
        (if metadataRaw ≤ fromLittleEndian header then Except.ok frame
          else codec.decompress frame metadataBlockSize) = .ok payload := by
      by_cases hraw : metadataRaw ≤ fromLittleEndian header
      · rw [if_pos hraw]
        simp only [if_pos hraw] at hread
        obtain ⟨rfl, rfl⟩ := Prod.mk.inj (Except.ok.inj hread)
        exact ⟨rfl, rfl⟩
      · rw [if_neg hraw]
        simp only [if_neg hraw] at hread
        obtain ⟨data, hdata, hread⟩ := Except.bind_eq_ok.mp hread
        obtain ⟨rfl, rfl⟩ := Prod.mk.inj (Except.ok.inj hread)
        exact ⟨rfl, hdata⟩
    obtain ⟨rfl, hpayload⟩ := hresult
    exact ⟨by omega, hfits, by omega, by omega, header, frame, hheader, rfl, hframe, hpayload⟩
  · rintro ⟨hlimit, hfits, hpositive, hsmall, header, frame, hheader, rfl, hframe, hpayload⟩
    refine ⟨by omega, ?_⟩
    refine Except.bind_eq_ok.mpr ⟨header, hheader, ?_⟩
    refine Except.refuse_eq_ok.mpr ⟨by omega, ?_⟩
    refine Except.bind_eq_ok.mpr ⟨_, Trapping.add_eq_ok hfits, ?_⟩
    refine Except.refuse_eq_ok.mpr ⟨by omega, ?_⟩
    refine Except.bind_eq_ok.mpr ⟨frame, hframe, ?_⟩
    by_cases hraw : metadataRaw ≤ fromLittleEndian header
    · rw [if_pos hraw] at hpayload
      simp only [if_pos hraw, Except.ok.inj hpayload]
      rfl
    · rw [if_neg hraw] at hpayload
      simp only [if_neg hraw, hpayload]
      rfl

/-- The stored form of a payload, where its codec gives one. -/
def storedBlock (codec : Codec) (compress : Bool) (payload : Bytes) : Bytes :=
  match if compress then codec.shrink payload else .ok (payload, false) with
  | .ok (stored, isCompressed) =>
      littleEndian 2 (stored.length + if isCompressed then 0 else metadataRaw) ++ stored
  | .error _ => littleEndian 2 (payload.length + metadataRaw) ++ payload

@[simp] theorem storedBlock_raw (codec : Codec) (payload : Bytes) :
    storedBlock codec false payload = littleEndian 2 (payload.length + metadataRaw) ++ payload :=
  rfl

theorem eq_of_encodeBlock {compress : Bool} {block : Bytes}
    (hencode : encodeBlock codec compress payload = .ok block) :
    block = storedBlock codec compress payload := by
  cases compress with
  | true =>
      obtain ⟨⟨stored, isCompressed⟩, hshrink, hblock⟩ := Except.bind_eq_ok.mp hencode
      rw [storedBlock, if_pos rfl, hshrink]
      exact (Except.ok.inj hblock).symm
  | false => exact (Except.ok.inj hencode).symm

theorem encodeBlock_eq_ok {compress : Bool} (hcodec : compress = true → codec.Compresses)
    (payload : Bytes) :
    encodeBlock codec compress payload = .ok (storedBlock codec compress payload) := by
  have hok : ∃ block, encodeBlock codec compress payload = .ok block := by
    cases compress with
    | true =>
        obtain ⟨stored, isCompressed, hshrink⟩ := (hcodec rfl).exists_shrink payload
        exact ⟨_, Except.bind_eq_ok.mpr ⟨_, hshrink, rfl⟩⟩
    | false => exact ⟨_, rfl⟩
  obtain ⟨block, hblock⟩ := hok
  rw [hblock, eq_of_encodeBlock hblock]

theorem exists_storedBlock (codec : Codec) (compress : Bool) (payload : Bytes) :
    ∃ frame isCompressed, codec.IsForm frame isCompressed payload ∧
      storedBlock codec compress payload =
        littleEndian 2 (frame.length + if isCompressed then 0 else metadataRaw) ++ frame ∧
      (isCompressed = true → compress = true) := by
  cases compress with
  | false => exact ⟨payload, false, rfl, rfl, nofun⟩
  | true =>
      cases hshrink : codec.shrink payload with
      | error error =>
          refine ⟨payload, false, rfl, ?_, nofun⟩
          simp [storedBlock, hshrink]
      | ok shrunk =>
          refine ⟨shrunk.1, shrunk.2, Codec.isForm_of_shrink hshrink, ?_, fun _ => rfl⟩
          simp [storedBlock, hshrink]

theorem length_storedBlock_pos (codec : Codec) (compress : Bool) (payload : Bytes) :
    2 ≤ (storedBlock codec compress payload).length := by
  obtain ⟨frame, isCompressed, -, hblock, -⟩ := exists_storedBlock codec compress payload
  rw [hblock, List.length_append, length_littleEndian]
  omega

theorem length_storedBlock_le (codec : Codec) (compress : Bool) (payload : Bytes) :
    (storedBlock codec compress payload).length ≤ 2 + payload.length := by
  obtain ⟨frame, isCompressed, hform, hblock, -⟩ := exists_storedBlock codec compress payload
  have hframe := hform.length_le
  rw [hblock, List.length_append, length_littleEndian]
  omega

theorem exists_form_storedBlock (codec : Codec) (compress : Bool)
    (hlength : payload.length ≤ metadataBlockSize) :
    ∃ frame isCompressed, codec.IsForm frame isCompressed payload ∧
      (isCompressed = true → compress = true) ∧
      storedBlock codec compress payload =
        littleEndian 2 (frame.length + if isCompressed then 0 else metadataRaw) ++ frame ∧
      fromLittleEndian
          (littleEndian 2 (frame.length + if isCompressed then 0 else metadataRaw)) =
        frame.length + if isCompressed then 0 else metadataRaw := by
  obtain ⟨frame, isCompressed, hform, hblock, hcompress⟩ :=
    exists_storedBlock codec compress payload
  refine ⟨frame, isCompressed, hform, hcompress, hblock, ?_⟩
  have hframe := hform.length_le
  rw [fromLittleEndian_littleEndian]
  apply Nat.mod_eq_of_lt
  unfold metadataBlockSize at hlength
  unfold metadataRaw
  split
  all_goals omega

theorem represents_storedBlock (compress : Bool) (hcodec : compress = true → codec.IsFaithful)
    (hpayload : payload ≠ []) (hlength : payload.length ≤ metadataBlockSize) :
    ∃ frame isCompressed, codec.Represents frame isCompressed payload ∧
      storedBlock codec compress payload =
        littleEndian 2 (frame.length + if isCompressed then 0 else metadataRaw) ++ frame ∧
      fromLittleEndian
          (littleEndian 2 (frame.length + if isCompressed then 0 else metadataRaw)) =
        frame.length + if isCompressed then 0 else metadataRaw := by
  obtain ⟨frame, isCompressed, hform, hcompress, hblock, hheader⟩ :=
    exists_form_storedBlock codec compress hlength
  exact ⟨frame, isCompressed, hform.represents (fun hsome => hcodec (hcompress hsome)) hpayload,
    hblock, hheader⟩

/-- A block that is stored is read as its payload. -/
theorem readBlock_of_stores (compress : Bool) (hcodec : compress = true → codec.IsFaithful)
    (hopen : region.IsOpen) (hpayload : payload ≠ []) (hlength : payload.length ≤ metadataBlockSize)
    (hstores : region.Stores position (storedBlock codec compress payload))
    (hlimit : position + (storedBlock codec compress payload).length ≤ limit) :
    readBlock region codec position limit =
      .ok (payload, (storedBlock codec compress payload).length - 2) := by
  obtain ⟨frame, isCompressed, hrepresents, hencode, hheader⟩ :=
    represents_storedBlock compress hcodec hpayload hlength
  rw [hencode] at hstores hlimit ⊢
  have hframe := hrepresents.length_le
  have hpositive := List.length_pos_iff.mpr hrepresents.stored_ne_nil
  have hend := hstores.end_lt (by simp [hrepresents.stored_ne_nil])
  have hheaderRead := hstores.left.read hopen
  have hframeRead := hstores.right.read hopen
  simp only [List.length_append, length_littleEndian] at hend hlimit hheaderRead hframeRead ⊢
  rw [Nat.add_sub_cancel_left]
  refine readBlock_eq_ok.mpr ⟨by omega, by omega, by omega, by omega, _, frame, hheaderRead, ?_,
    hframeRead, ?_⟩
  · rw [hheader]
    unfold metadataBlockSize at hlength
    unfold metadataRaw
    split
    all_goals omega
  · rw [hheader, payloadOf]
    have hrestores := hrepresents.restores metadataBlockSize hlength (by decide)
    unfold metadataBlockSize at hlength
    cases isCompressed with
    | true =>
        rw [if_neg (by unfold metadataRaw; simp only [if_true]; omega)]
        exact hrestores
    | false =>
        rw [if_pos (by simp)]
        exact hrestores

/-- A block that was compressed to nothing would not come back: no length of zero is read. -/
theorem readBlock_of_compress_eq_nil (hopen : region.IsOpen) (hpayload : payload ≠ [])
    (hnil : codec.compress payload = .ok [])
    (hstores : region.Stores position (storedBlock codec true payload))
    (hlimit : position + 2 ≤ limit) :
    readBlock region codec position limit =
      .error (.corruptTable (.metadataBlockLength position 0)) := by
  have hblock : storedBlock codec true payload = [0, 0] := by
    have hshrink : codec.shrink payload = .ok ([], true) :=
      Codec.shrink_eq_ok.mpr ⟨[], hnil, .inl ⟨List.length_pos_iff.mpr hpayload, rfl, rfl⟩⟩
    rw [storedBlock, if_pos rfl, hshrink]
    rfl
  rw [hblock] at hstores
  have hread : region.read position 2 = .ok [0, 0] := hstores.read hopen
  rw [readBlock, if_neg (Nat.not_lt_of_le hlimit), hread]
  rfl

end TreeImage.Table
