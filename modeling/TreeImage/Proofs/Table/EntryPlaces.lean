import TreeImage.Codec.Zlib
import TreeImage.Proofs.Table.Lookup

/-!
Where the entries of a lookup table come from.  The blocks of a table are read one by one and
joined, and only the length of what they hold together is checked.  So an entry is found in the
block that it belongs to if the blocks before that one are full, and a block that is not full shifts
the entries behind it.
-/

namespace TreeImage

section

variable {size : Nat} {blocks : List Bytes}

theorem length_flatten_le (hblocks : ∀ block ∈ blocks, block.length ≤ size) :
    blocks.flatten.length ≤ blocks.length * size := by
  induction blocks with
  | nil => exact Nat.zero_le _
  | cons block blocks ih =>
      obtain ⟨hblock, hothers⟩ := List.forall_mem_cons.mp hblocks
      have hrest := ih hothers
      rw [List.flatten_cons, List.length_append, List.length_cons, Nat.add_one_mul]
      omega

theorem length_flatten_add_le (hblocks : ∀ block ∈ blocks, block.length ≤ size) {block : Bytes}
    (hmem : block ∈ blocks) :
    blocks.flatten.length + size ≤ blocks.length * size + block.length := by
  obtain ⟨front, back, rfl⟩ := List.append_of_mem hmem
  have hfront := length_flatten_le fun other hother => hblocks other (List.mem_append_left _ hother)
  have hback := length_flatten_le fun other hother =>
    hblocks other (List.mem_append_right _ (List.mem_cons_of_mem _ hother))
  rw [List.flatten_append, List.flatten_cons, List.length_append, List.length_append,
    List.length_append, List.length_cons, Nat.add_mul, Nat.add_one_mul]
  omega

end

namespace Table

open Format

variable {region : Region} {codec : Codec} {start count entrySize limit : Nat}
  {positions : List Nat} {payloads entries : List Bytes}

theorem length_le_of_readBlock (hcodec : codec.KeepsLimit) {position stored : Nat}
    {payload : Bytes} (hread : readBlock region codec position limit = .ok (payload, stored)) :
    payload.length ≤ metadataBlockSize := by
  obtain ⟨-, -, -, hstored, header, frame, -, -, hframe, hpayload⟩ := readBlock_eq_ok.mp hread
  unfold payloadOf at hpayload
  split at hpayload
  · cases hpayload
    rw [Region.length_of_read hframe]
    exact hstored
  · exact hcodec _ _ _ hpayload

theorem Decodes.length_le (hdecodes : Decodes region codec limit positions payloads)
    (hcodec : codec.KeepsLimit) : ∀ payload ∈ payloads, payload.length ≤ metadataBlockSize := by
  induction hdecodes with
  | nil => nofun
  | cons hblock _ ih =>
      obtain ⟨stored, hblock⟩ := hblock
      exact List.forall_mem_cons.mpr ⟨length_le_of_readBlock hcodec hblock, ih⟩

theorem length_of_readIndex
    (hindex : readIndex region start count entrySize limit = .ok positions) :
    positions.length = (count * entrySize + metadataBlockSize - 1) / metadataBlockSize := by
  obtain ⟨-, -, -, raw, hraw, rfl, -⟩ := readIndex_eq_ok.mp hindex
  rw [List.length_map, length_blocksOf (by decide), Region.length_of_read hraw, indexLength]
  omega

/-- Whether the blocks up to one are full, except the last block of the table. -/
def FullUpTo (payloads : List Bytes) (last : Nat) : Prop :=
  ∀ index ≤ last, index + 1 < payloads.length →
    ∀ payload, payloads[index]? = some payload → payload.length = metadataBlockSize

/-- Whether an entry is what stands at its place in the block that it belongs to. -/
def InOwnBlock (entrySize : Nat) (payloads entries : List Bytes) (index : Nat) : Prop :=
  ∃ payload, payloads[index * entrySize / metadataBlockSize]? = some payload ∧
    entries[index]? =
      some ((payload.drop (index * entrySize % metadataBlockSize)).take entrySize)

/-- Behind full blocks, bytes that do not pass the end of a block come from their own block. -/
theorem slice_flatten {offset length : Nat}
    (hoffset : offset / metadataBlockSize < payloads.length)
    (hinside : offset % metadataBlockSize + length ≤ metadataBlockSize)
    (hfull : FullUpTo payloads (offset / metadataBlockSize)) :
    ∃ payload, payloads[offset / metadataBlockSize]? = some payload ∧
      (payloads.flatten.drop offset).take length =
        (payload.drop (offset % metadataBlockSize)).take length := by
  have hplace := Nat.div_add_mod' offset metadataBlockSize
  generalize offset / metadataBlockSize = own at *
  refine ⟨payloads[own], List.getElem?_eq_getElem hoffset, ?_⟩
  have hsplit : payloads.take own ++ payloads[own] :: payloads.drop (own + 1) = payloads := by
    rw [← List.drop_eq_getElem_cons hoffset, List.take_append_drop]
  have hbefore : ∀ payload ∈ payloads.take own, payload.length = metadataBlockSize := by
    intro payload hmem
    obtain ⟨index, hindex, hpayload⟩ := List.mem_take_iff_getElem.mp hmem
    exact hfull index (by omega) (by omega) payload
      (hpayload ▸ List.getElem?_eq_getElem (by omega))
  have hfront : (payloads.take own).flatten.length = own * metadataBlockSize := by
    rw [length_flatten_of_length hbefore, List.length_take, Nat.min_eq_left (Nat.le_of_lt hoffset)]
  have hdrop : payloads.flatten.drop offset =
      (payloads[own] ++ (payloads.drop (own + 1)).flatten).drop (offset % metadataBlockSize) := by
    have hjoined := congrArg List.flatten hsplit
    rw [List.flatten_append, List.flatten_cons] at hjoined
    rw [← hjoined, List.drop_append, List.drop_eq_nil_of_le (by omega), List.nil_append]
    congr 1
    omega
  rw [hdrop]
  by_cases hlast : own + 1 < payloads.length
  · have hlength := hfull own (Nat.le_refl own) hlast _ (List.getElem?_eq_getElem hoffset)
    rw [List.drop_append_of_le_length (by omega),
      List.take_append_of_le_length (by rw [List.length_drop]; omega)]
  · rw [List.drop_eq_nil_of_le (Nat.le_of_not_lt hlast), List.flatten_nil, List.append_nil]

theorem getElem?_entries (hsize : entrySize ≠ 0) {joined : Bytes}
    (henough : count * entrySize ≤ joined.length) :
    (blocksOf entrySize (joined.take (count * entrySize))).length = count ∧
      ∀ index < count, (blocksOf entrySize (joined.take (count * entrySize)))[index]? =
        some ((joined.drop (index * entrySize)).take entrySize) := by
  have hlength : (blocksOf entrySize (joined.take (count * entrySize))).length = count := by
    rw [length_blocksOf hsize, List.length_take_of_le henough, Nat.add_sub_assoc (by omega),
      Nat.add_comm, Nat.add_mul_div_right _ _ (Nat.pos_of_ne_zero hsize),
      Nat.div_eq_of_lt (by omega), Nat.zero_add]
  refine ⟨hlength, fun index hindex => ?_⟩
  have hentry := List.getElem?_eq_getElem (hlength.symm ▸ hindex)
  have hstop : (index + 1) * entrySize ≤ count * entrySize := Nat.mul_le_mul_right _ hindex
  rw [Nat.add_one_mul] at hstop
  rw [hentry, (eq_of_getElem?_blocksOf hsize hentry).2, List.drop_take, List.take_take,
    Nat.min_eq_left (by omega)]

/-- An entry belongs to one of the blocks, and it does not pass the end of that one, because the
size of a block is a multiple of that of an entry. -/
theorem own_block_of_lt (hsize : entrySize = 4 ∨ entrySize = 8 ∨ entrySize = 16) {index : Nat}
    (hlt : index < count) :
    index * entrySize / metadataBlockSize <
        (count * entrySize + metadataBlockSize - 1) / metadataBlockSize ∧
      index * entrySize % metadataBlockSize + entrySize ≤ metadataBlockSize := by
  have hstop : (index + 1) * entrySize ≤ count * entrySize := Nat.mul_le_mul_right _ hlt
  rw [Nat.add_one_mul] at hstop
  unfold metadataBlockSize
  constructor
  · omega
  · rcases hsize with rfl | rfl | rfl
    all_goals omega

theorem Decodes.readEntries_eq (hdecodes : Decodes region codec start positions payloads)
    (hfits : count * entrySize < addressSpace)
    (henough : count * entrySize ≤ payloads.flatten.length) :
    readEntries region codec positions start count entrySize =
      .ok (blocksOf entrySize (payloads.flatten.take (count * entrySize))) := by
  have hjoined := toList_foldl_pushAll payloads #[]
  rw [List.nil_append] at hjoined
  refine readEntries_eq_ok.mpr ⟨hfits, _, readBlocks_eq_ok.mpr ⟨payloads, hdecodes, rfl⟩, ?_, ?_⟩
  · rwa [← Array.length_toList, hjoined]
  · rw [Buffer.toList_slice, hjoined, List.drop_zero]

theorem Decodes.readEntries_eq_error (hdecodes : Decodes region codec start positions payloads)
    (hfits : count * entrySize < addressSpace)
    (hshort : payloads.flatten.length < count * entrySize) :
    readEntries region codec positions start count entrySize =
      .error (.corruptTable (.lookupTooShort payloads.flatten.length (count * entrySize))) := by
  have hsize : (payloads.foldl Buffer.pushAll #[]).size = payloads.flatten.length := by
    rw [← Array.length_toList, toList_foldl_pushAll, List.nil_append]
  rw [readEntries, Trapping.mul_eq_ok hfits, Except.ok_bind,
    readBlocks_eq_ok.mpr ⟨payloads, hdecodes, rfl⟩, Except.ok_bind, hsize]
  exact if_pos hshort

/-- What reading a table through its index comes to, when the blocks that the index lists are read
as some payloads. -/
structure ReadsThrough (region : Region) (codec : Codec) (positions : List Nat)
    (start count entrySize : Nat) (payloads : List Bytes) : Prop where
  length_eq : payloads.length = (count * entrySize + metadataBlockSize - 1) / metadataBlockSize
  /-- Blocks that hold too little together are refused. -/
  short : payloads.flatten.length < count * entrySize →
    readEntries region codec positions start count entrySize =
      .error (.corruptTable (.lookupTooShort payloads.flatten.length (count * entrySize)))
  /-- Other blocks give entries, each of them from its place in the joined payloads.  This is in the
  block that it belongs to, if the blocks up to that one are full. -/
  enough : count * entrySize ≤ payloads.flatten.length →
    ∃ entries, readEntries region codec positions start count entrySize = .ok entries ∧
      entries.length = count ∧
      ∀ index < count,
        entries[index]? = some ((payloads.flatten.drop (index * entrySize)).take entrySize) ∧
        (FullUpTo payloads (index * entrySize / metadataBlockSize) →
          InOwnBlock entrySize payloads entries index)
  /-- A block of a table that is not refused lacks no more bytes than the entries leave in the last
  block, so that all blocks are full if the entries fill them. -/
  lacks : codec.KeepsLimit → count * entrySize ≤ payloads.flatten.length →
    ∀ payload ∈ payloads, payload.length ≤ metadataBlockSize ∧
      count * entrySize + metadataBlockSize ≤
        payloads.length * metadataBlockSize + payload.length

/-- A table is read just if all its blocks are and they hold enough together.  Its entries are then
cut out of the joined payloads, so that an entry comes from its own block if the blocks up to that
one are full. -/
theorem reads_through_index (hsize : entrySize = 4 ∨ entrySize = 8 ∨ entrySize = 16)
    (hindex : readIndex region start count entrySize limit = .ok positions) :
    (∀ entries, readEntries region codec positions start count entrySize = .ok entries →
      ∃ payloads, Decodes region codec start positions payloads ∧
        count * entrySize ≤ payloads.flatten.length) ∧
    ∀ payloads, Decodes region codec start positions payloads →
      ReadsThrough region codec positions start count entrySize payloads := by
  obtain ⟨hfits, -⟩ := readIndex_eq_ok.mp hindex
  constructor
  · intro entries hentries
    obtain ⟨-, joined, hjoined, henough, -⟩ := readEntries_eq_ok.mp hentries
    obtain ⟨payloads, hdecodes, rfl⟩ := readBlocks_eq_ok.mp hjoined
    rw [← Array.length_toList, toList_foldl_pushAll, List.nil_append] at henough
    exact ⟨payloads, hdecodes, henough⟩
  · intro payloads hdecodes
    have hlength : payloads.length =
        (count * entrySize + metadataBlockSize - 1) / metadataBlockSize :=
      (List.Forall₂.length_eq hdecodes).symm.trans (length_of_readIndex hindex)
    refine ⟨hlength, hdecodes.readEntries_eq_error hfits, ?_, ?_⟩
    · intro henough
      obtain ⟨hcount, hentries⟩ := getElem?_entries (by omega) henough
      refine ⟨_, hdecodes.readEntries_eq hfits henough, hcount, fun index hlt => ?_⟩
      refine ⟨hentries index hlt, fun hfull => ?_⟩
      obtain ⟨hown, hinside⟩ := own_block_of_lt hsize hlt
      rw [← hlength] at hown
      obtain ⟨payload, hpayload, hslice⟩ := slice_flatten hown hinside hfull
      exact ⟨payload, hpayload, (hentries index hlt).trans (congrArg some hslice)⟩
    · intro hcodec henough payload hmem
      have hbounds := hdecodes.length_le hcodec
      have hlacks := length_flatten_add_le hbounds hmem
      exact ⟨hbounds payload hmem, by omega⟩

/-- What the blocks of a table of 2049 words hold: the first one ends after its first word. -/
def shiftedPayloads : List Bytes := [word32 7, word32 9 ++ List.replicate 8188 0]

/-- The bytes of that table, with its index behind the blocks. -/
def shiftedBytes : Bytes :=
  (shiftedPayloads.map (storedBlock Codecs.machine.gzip false)).flatten ++ [0, 6].flatMap word64

def shiftedRegion : Region := Region.ofStorage (Storage.ofBytes shiftedBytes) 0 0

theorem isOpen_shiftedRegion : shiftedRegion.IsOpen := ⟨fun _ _ => rfl, rfl⟩

theorem length_shiftedPayloads : shiftedPayloads.map List.length = [4, 8192] := by
  rw [shiftedPayloads, List.map_cons, List.map_cons, List.map_nil, List.length_append,
    List.length_replicate, length_word32, length_word32]

theorem flatten_shiftedPayloads :
    shiftedPayloads.flatten = word32 7 ++ (word32 9 ++ List.replicate 8188 0) := by
  rw [shiftedPayloads, List.flatten_cons, List.flatten_cons, List.flatten_nil, List.append_nil]

theorem length_flatten_shiftedPayloads : shiftedPayloads.flatten.length = 8196 := by
  rw [List.length_flatten, length_shiftedPayloads]
  rfl

theorem length_storedBlock_raw (codec : Codec) (payload : Bytes) :
    (storedBlock codec false payload).length = 2 + payload.length := by
  rw [storedBlock_raw, List.length_append, length_littleEndian]

theorem length_shiftedBlocks :
    (shiftedPayloads.map (storedBlock Codecs.machine.gzip false)).flatten.length = 8200 := by
  rw [shiftedPayloads, List.map_cons, List.map_cons, List.map_nil, List.flatten_cons,
    List.flatten_cons, List.flatten_nil, List.append_nil, List.length_append,
    length_storedBlock_raw, length_storedBlock_raw, List.length_append, List.length_replicate,
    length_word32, length_word32]

theorem stores_shiftedRegion : shiftedRegion.Stores 0 shiftedBytes := by
  refine ⟨List.prefix_refl _, fun _ => ?_⟩
  rw [shiftedBytes, List.length_append, length_shiftedBlocks]
  decide

theorem readIndex_shiftedRegion : readIndex shiftedRegion 8200 2049 4 8216 = .ok [0, 6] := by
  have hindex := stores_shiftedRegion.right
  rw [length_shiftedBlocks] at hindex
  refine readIndex_eq_ok.mpr ⟨by decide, by decide, by decide, [0, 6].flatMap word64,
    hindex.read isOpen_shiftedRegion, ?_, by decide⟩
  rw [blocksOf_flatMap (by decide) length_word64]
  decide

theorem decodes_shiftedRegion :
    Decodes shiftedRegion Codecs.machine.gzip 8200 [0, 6] shiftedPayloads := by
  have hpayloads : ∀ payload ∈ shiftedPayloads,
      payload ≠ [] ∧ payload.length ≤ metadataBlockSize := by
    intro payload hmem
    have hlength := List.mem_map_of_mem (f := List.length) hmem
    rw [length_shiftedPayloads] at hlength
    have hbounds : 0 < payload.length ∧ payload.length ≤ metadataBlockSize := by
      unfold metadataBlockSize
      simp only [List.mem_cons, List.not_mem_nil, or_false] at hlength
      omega
    exact ⟨List.length_pos_iff.mp hbounds.1, hbounds.2⟩
  have hplaced : (Lookup.place 0
      (shiftedPayloads.map (storedBlock Codecs.machine.gzip false))).map Prod.fst = [0, 6] := rfl
  rw [← hplaced]
  refine decodes_of_stores ?_ isOpen_shiftedRegion hpayloads stores_shiftedRegion.left ?_
  · nofun
  · exact Nat.le_of_eq (by rw [length_shiftedBlocks])

/-- A table is read although its first block ends after one word: the word at the start of the
second block, which should be the last entry, is then the second one.  No block could lack more
without the table being refused. -/
theorem reads_through_shiftedRegion :
    ∃ entries, readEntries shiftedRegion Codecs.machine.gzip [0, 6] 8200 2049 4 = .ok entries ∧
      entries.length = 2049 ∧ entries[0]? = some (word32 7) ∧ entries[1]? = some (word32 9) ∧
      ∀ payload ∈ shiftedPayloads, 4 ≤ payload.length := by
  have hreads := (reads_through_index (.inl rfl) readIndex_shiftedRegion).2 _ decodes_shiftedRegion
  have henough := Nat.le_of_eq length_flatten_shiftedPayloads.symm
  obtain ⟨entries, hread, hcount, hentries⟩ := hreads.enough henough
  refine ⟨entries, hread, hcount, ?_, ?_, fun payload hmem => ?_⟩
  · rw [(hentries 0 (by decide)).1, flatten_shiftedPayloads]
    rfl
  · rw [(hentries 1 (by decide)).1, flatten_shiftedPayloads]
    rfl
  · have hlacks := (hreads.lacks (Codec.keepsLimit_gzip _ _) henough payload hmem).2
    rw [hreads.length_eq] at hlacks
    unfold metadataBlockSize at hlacks
    omega

/-- Not every table with a block before the last that is not full is refused, and not every entry
comes from the block that it belongs to. -/
theorem exists_entry_of_other_block :
    ∃ entries, readIndex shiftedRegion 8200 2049 4 8216 = .ok [0, 6] ∧
      Decodes shiftedRegion Codecs.machine.gzip 8200 [0, 6] shiftedPayloads ∧
      shiftedPayloads.map List.length = [4, 8192] ∧
      readEntries shiftedRegion Codecs.machine.gzip [0, 6] 8200 2049 4 = .ok entries ∧
      ¬InOwnBlock 4 shiftedPayloads entries 1 := by
  have henough : 2049 * 4 ≤ shiftedPayloads.flatten.length :=
    Nat.le_of_eq length_flatten_shiftedPayloads.symm
  refine ⟨_, readIndex_shiftedRegion, decodes_shiftedRegion, length_shiftedPayloads,
    decodes_shiftedRegion.readEntries_eq (by decide) henough, ?_⟩
  rintro ⟨payload, hpayload, hentry⟩
  rw [(getElem?_entries (by decide) henough).2 1 (by decide), flatten_shiftedPayloads] at hentry
  cases hpayload
  exact absurd (Option.some.inj hentry) (by decide)

end Table

end TreeImage
