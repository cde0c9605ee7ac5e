import Mathlib.Data.List.Forall2
import TreeImage.Proofs.Bytes.Blocks
import TreeImage.Proofs.Storage.Script
import TreeImage.Proofs.Table.Block
import TreeImage.Proofs.Table.RecordStream
import TreeImage.Table.Lookup

namespace TreeImage.Table

open Format

/-- The length of the index of a table whose entries take `size` bytes. -/
def indexLength (size : Nat) : Nat := (size + metadataBlockSize - 1) / metadataBlockSize * 8

variable {region : Region} {codec : Codec} {start count entrySize limit : Nat}
  {positions : List Nat}

theorem readIndex_eq_ok :
    readIndex region start count entrySize limit = .ok positions ↔
      count * entrySize < addressSpace ∧ indexLength (count * entrySize) < addressSpace ∧
        start + indexLength (count * entrySize) ≤ limit ∧
        ∃ raw, region.read start (indexLength (count * entrySize)) = .ok raw ∧
          (blocksOf 8 raw).map fromLittleEndian = positions ∧
          ∀ position ∈ positions, position < start := by
  unfold readIndex
  constructor
  · intro h
    obtain ⟨wanted, hwanted, h⟩ := Except.bind_eq_ok.mp h
    obtain ⟨hwantedFits, rfl⟩ := Trapping.eq_of_mul_eq_ok hwanted
    obtain ⟨length, hlength, h⟩ := Except.bind_eq_ok.mp h
    obtain ⟨hlengthFits, rfl⟩ := Trapping.eq_of_mul_eq_ok hlength
    obtain ⟨hpast, h⟩ := Except.refuse_eq_ok.mp h
    obtain ⟨raw, hraw, h⟩ := Except.bind_eq_ok.mp h
    obtain ⟨horder, h⟩ := Except.refuse_eq_ok.mp h
    have hpositions := Except.ok.inj h
    simp only [List.any_eq_true, decide_eq_true_eq, not_exists, not_and, Nat.not_le] at horder
    exact ⟨hwantedFits, hlengthFits, Nat.le_of_not_lt hpast, raw, hraw, hpositions,
      hpositions ▸ horder⟩
  · rintro ⟨hwanted, hlength, hlimit, raw, hraw, hpositions, horder⟩
    refine Except.bind_eq_ok.mpr ⟨_, Trapping.mul_eq_ok hwanted, ?_⟩
    refine Except.bind_eq_ok.mpr ⟨_, Trapping.mul_eq_ok hlength, ?_⟩
    refine Except.refuse_eq_ok.mpr ⟨Nat.not_lt_of_le hlimit, ?_⟩
    refine Except.bind_eq_ok.mpr ⟨raw, hraw, ?_⟩
    refine Except.refuse_eq_ok.mpr ⟨?_, congrArg Except.ok hpositions⟩
    simp only [hpositions, List.any_eq_true, decide_eq_true_eq, not_exists, not_and, Nat.not_le]
    exact horder

theorem readEntries_eq_ok {entries : List Bytes} :
    readEntries region codec positions start count entrySize = .ok entries ↔
      count * entrySize < addressSpace ∧
        ∃ data, readBlocks region codec start positions #[] = .ok data ∧
          count * entrySize ≤ data.size ∧
          blocksOf entrySize (data.slice 0 (count * entrySize)) = entries := by
  unfold readEntries
  constructor
  · intro h
    obtain ⟨wanted, hwanted, h⟩ := Except.bind_eq_ok.mp h
    obtain ⟨hwantedFits, rfl⟩ := Trapping.eq_of_mul_eq_ok hwanted
    obtain ⟨data, hdata, h⟩ := Except.bind_eq_ok.mp h
    obtain ⟨hshort, h⟩ := Except.refuse_eq_ok.mp h
    exact ⟨hwantedFits, data, hdata, Nat.le_of_not_lt hshort, Except.ok.inj h⟩
  · rintro ⟨hwanted, data, hdata, hshort, hentries⟩
    refine Except.bind_eq_ok.mpr ⟨_, Trapping.mul_eq_ok hwanted, ?_⟩
    refine Except.bind_eq_ok.mpr ⟨data, hdata, ?_⟩
    exact Except.refuse_eq_ok.mpr ⟨Nat.not_lt_of_le hshort, congrArg Except.ok hentries⟩

theorem readIndex_mono {more : Nat} (hle : limit ≤ more)
    (hindex : readIndex region start count entrySize limit = .ok positions) :
    readIndex region start count entrySize more = .ok positions := by
  rw [readIndex_eq_ok] at hindex ⊢
  obtain ⟨hwanted, hlength, hlimit, hread⟩ := hindex
  exact ⟨hwanted, hlength, Nat.le_trans hlimit hle, hread⟩

namespace Lookup

variable {lookup : Lookup} {blocks : List Bytes}

/-- The bytes of a lookup table: its blocks and then its index. -/
def stored (lookup : Lookup) : Bytes := lookup.blocks.flatten ++ lookup.index

theorem lays_place (start : Nat) (blocks : List Bytes) :
    Region.Lays start (place start blocks) blocks.flatten := by
  induction blocks generalizing start with
  | nil => exact Region.lays_nil start
  | cons block blocks ih => exact (Region.lays_singleton start block).append (ih _)

theorem length_place (start : Nat) (blocks : List Bytes) :
    (place start blocks).length = blocks.length := by
  induction blocks generalizing start with
  | nil => rfl
  | cons block blocks ih => rw [place, List.length_cons, ih, List.length_cons]

theorem lt_of_mem_place (hblocks : ∀ block ∈ blocks, block ≠ []) {start : Nat}
    {placed : Nat × Bytes} (hmem : placed ∈ place start blocks) :
    start ≤ placed.1 ∧ placed.1 < start + blocks.flatten.length := by
  induction blocks generalizing start with
  | nil => cases hmem
  | cons block blocks ih =>
      have hpositive := List.length_pos_iff.mpr (hblocks block (by simp))
      rw [List.flatten_cons, List.length_append]
      rcases List.mem_cons.mp hmem with rfl | hmem
      · exact ⟨Nat.le_refl _, by dsimp only; omega⟩
      · have hrest := ih (fun other hother => hblocks other (by simp [hother])) hmem
        omega

theorem pairwise_place (hblocks : ∀ block ∈ blocks, block ≠ []) (start : Nat) :
    ((place start blocks).map Prod.fst).Pairwise (· < ·) := by
  induction blocks generalizing start with
  | nil => exact .nil
  | cons block blocks ih =>
      have hpositive := List.length_pos_iff.mpr (hblocks block (by simp))
      have hothers : ∀ other ∈ blocks, other ≠ [] :=
        fun other hmem => hblocks other (by simp [hmem])
      refine .cons ?_ (ih hothers _)
      simp only [List.mem_map]
      rintro _ ⟨placed, hmem, rfl⟩
      have hbounds := lt_of_mem_place hothers hmem
      omega

theorem head?_placed {position : Nat}
    (hposition : (lookup.placed.map Prod.fst).head? = some position) : position = lookup.start := by
  unfold placed at hposition
  cases hblocks : lookup.blocks with
  | nil =>
      rw [hblocks] at hposition
      cases hposition
  | cons block blocks =>
      rw [hblocks] at hposition
      cases hposition
      rfl

theorem stop_eq (lookup : Lookup) : lookup.stop = lookup.start + lookup.stored.length := by
  rw [stop, indexStart, stored, List.length_append, Nat.add_assoc]

theorem length_index (lookup : Lookup) : lookup.index.length = lookup.blocks.length * 8 := by
  rw [index, length_flatMap_of_length (fun _ => length_littleEndian 8 _), placed, length_place]

/-- The writes of a table: its blocks one after the other, and then its index. -/
def writes (lookup : Lookup) : List (Nat × Bytes) :=
  lookup.placed ++ [(lookup.indexStart, lookup.index)]

theorem lays_writes (lookup : Lookup) :
    Region.Lays lookup.start lookup.writes lookup.stored := by
  exact (lays_place _ _).append (Region.lays_singleton lookup.indexStart lookup.index)

end Lookup

variable {payloads : List Bytes} {compress : Bool}

namespace Lookup

/-- The table that holds the given entries from `start` on. -/
def holding (codec : Codec) (compress : Bool) (start : Nat) (entries : Bytes) : Lookup :=
  ⟨start, (blocksOf metadataBlockSize entries).map (storedBlock codec compress)⟩

variable {position : Nat} {written : List (Nat × Bytes)} {lookup : Lookup} {entries : Bytes}

theorem eq_of_writeBlocks {blocks : List Bytes}
    (hwrite : writeBlocks codec compress position payloads = ⟨written, .ok blocks⟩) :
    blocks = payloads.map (storedBlock codec compress) ∧ written = place position blocks := by
  induction payloads generalizing position written blocks with
  | nil =>
      cases hwrite
      exact ⟨rfl, rfl⟩
  | cons payload payloads ih =>
      obtain ⟨_, block, _, hblock, hnext, rfl⟩ := Script.bind_eq_ok.mp hwrite
      obtain ⟨hencode, rfl⟩ := Script.lift_eq_ok.mp hblock
      obtain ⟨_, hlater, rfl⟩ := Script.write_bind_eq_ok.mp hnext
      obtain ⟨_, others, _, hothers, hlast, rfl⟩ := Script.bind_eq_ok.mp hlater
      cases hlast
      obtain ⟨rfl, rfl⟩ := ih hothers
      rw [eq_of_encodeBlock hencode, List.append_nil]
      exact ⟨rfl, rfl⟩

theorem eq_of_ofEntries
    (hwrite : ofEntries codec compress start entries = ⟨written, .ok lookup⟩) :
    lookup = holding codec compress start entries ∧ written = lookup.writes := by
  obtain ⟨_, blocks, _, hblocks, hnext, rfl⟩ := Script.bind_eq_ok.mp hwrite
  obtain ⟨_, hlast, rfl⟩ := Script.write_bind_eq_ok.mp hnext
  cases hlast
  obtain ⟨rfl, rfl⟩ := eq_of_writeBlocks hblocks
  exact ⟨rfl, rfl⟩

section Compresses

variable (hcodec : compress = true → codec.Compresses)
include hcodec

theorem writeBlocks_eq_ok (position : Nat) (payloads : List Bytes) :
    (writeBlocks codec compress position payloads).outcome =
      .ok (payloads.map (storedBlock codec compress)) := by
  induction payloads generalizing position with
  | nil => rfl
  | cons payload payloads ih =>
      have hrest := Script.eq_of_outcome
        (ih (position + (storedBlock codec compress payload).length))
      rw [writeBlocks, Script.bind_eq_of_ok (Script.lift_eq_ok.mpr
        ⟨encodeBlock_eq_ok hcodec payload, rfl⟩)]
      dsimp only
      rw [Script.write_bind, Script.bind_eq_of_ok hrest]
      rfl

theorem ofEntries_eq (start : Nat) (entries : Bytes) :
    ofEntries codec compress start entries =
      ⟨(holding codec compress start entries).writes,
        .ok (holding codec compress start entries)⟩ := by
  have hblocks := Script.eq_of_outcome
    (writeBlocks_eq_ok hcodec start (blocksOf metadataBlockSize entries))
  have houtcome : (ofEntries codec compress start entries).outcome =
      .ok (holding codec compress start entries) := by
    rw [ofEntries, Script.bind_eq_of_ok hblocks]
    rfl
  have hwritten := Script.eq_of_outcome houtcome
  rw [hwritten, (eq_of_ofEntries hwritten).2]

end Compresses

end Lookup

/-- Whether the blocks at some positions are read as some payloads, in order. -/
def Decodes (region : Region) (codec : Codec) (limit : Nat) : List Nat → List Bytes → Prop :=
  List.Forall₂ fun position payload =>
    ∃ stored, readBlock region codec position limit = .ok (payload, stored)

/-- Reading blocks is reading each of them and joining what they hold. -/
theorem readBlocks_eq_ok {data joined : Buffer} :
    readBlocks region codec limit positions data = .ok joined ↔
      ∃ payloads, Decodes region codec limit positions payloads ∧
        payloads.foldl Buffer.pushAll data = joined := by
  induction positions generalizing data with
  | nil =>
      constructor
      · intro hread
        exact ⟨[], .nil, Except.ok.inj hread⟩
      · rintro ⟨_, ⟨⟩, hjoined⟩
        exact congrArg Except.ok hjoined
  | cons position positions ih =>
      constructor
      · intro hread
        obtain ⟨⟨payload, stored⟩, hblock, hread⟩ := Except.bind_eq_ok.mp hread
        obtain ⟨payloads, hdecodes, hjoined⟩ := ih.mp hread
        exact ⟨payload :: payloads, .cons ⟨stored, hblock⟩ hdecodes, hjoined⟩
      · rintro ⟨_, hdecodes, hjoined⟩
        cases hdecodes with
        | cons hblock hdecodes =>
            obtain ⟨stored, hblock⟩ := hblock
            exact Except.bind_eq_ok.mpr ⟨_, hblock, ih.mpr ⟨_, hdecodes, hjoined⟩⟩

theorem decodes_of_stores (hcodec : compress = true → codec.IsFaithful)
    (hopen : region.IsOpen)
    (hpayloads : ∀ payload ∈ payloads, payload ≠ [] ∧ payload.length ≤ metadataBlockSize)
    {place : Nat}
    (hstores : region.Stores place (payloads.map (storedBlock codec compress)).flatten)
    (hlimit : place + (payloads.map (storedBlock codec compress)).flatten.length ≤ limit) :
    Decodes region codec limit
      ((Lookup.place place (payloads.map (storedBlock codec compress))).map Prod.fst) payloads := by
  induction payloads generalizing place with
  | nil => exact .nil
  | cons payload payloads ih =>
      obtain ⟨hne, hlength⟩ := hpayloads payload (by simp)
      rw [List.map_cons, List.flatten_cons] at hstores hlimit
      rw [List.length_append] at hlimit
      have hrest := ih (fun other hmem => hpayloads other (by simp [hmem])) hstores.right (by omega)
      exact .cons ⟨_, readBlock_of_stores compress hcodec hopen hne hlength hstores.left (by omega)⟩
        hrest

theorem readBlocks_of_stores (hcodec : compress = true → codec.IsFaithful)
    (hopen : region.IsOpen)
    (hpayloads : ∀ payload ∈ payloads, payload ≠ [] ∧ payload.length ≤ metadataBlockSize)
    {place : Nat}
    (hstores : region.Stores place (payloads.map (storedBlock codec compress)).flatten)
    (hlimit : place + (payloads.map (storedBlock codec compress)).flatten.length ≤ limit)
    (data : Buffer) :
    readBlocks region codec limit
        ((Lookup.place place (payloads.map (storedBlock codec compress))).map Prod.fst) data =
      .ok (payloads.foldl Buffer.pushAll data) :=
  readBlocks_eq_ok.mpr
    ⟨payloads, decodes_of_stores hcodec hopen hpayloads hstores hlimit, rfl⟩

theorem toList_foldl_pushAll (payloads : List Bytes) (data : Buffer) :
    (payloads.foldl Buffer.pushAll data).toList = data.toList ++ payloads.flatten := by
  induction payloads generalizing data with
  | nil => simp
  | cons payload payloads ih =>
      rw [List.foldl_cons, ih, Buffer.toList_pushAll, List.flatten_cons, List.append_assoc]

namespace Lookup

theorem payload_of_mem_blocksOf {entries payload : Bytes}
    (hmem : payload ∈ blocksOf metadataBlockSize entries) :
    payload ≠ [] ∧ payload.length ≤ metadataBlockSize :=
  ⟨ne_nil_of_mem_blocksOf hmem, length_le_of_mem_blocksOf hmem⟩

theorem ne_nil_of_mem_blocks {entries block : Bytes}
    (hmem : block ∈ (holding codec compress start entries).blocks) : block ≠ [] := by
  obtain ⟨payload, -, rfl⟩ := List.mem_map.mp hmem
  intro hnil
  have hlength := length_storedBlock_pos codec compress payload
  rw [hnil, List.length_nil] at hlength
  omega

theorem length_blocks_holding (codec : Codec) (compress : Bool) (start : Nat)
    (entries : Bytes) :
    (holding codec compress start entries).blocks.length =
      (entries.length + metadataBlockSize - 1) / metadataBlockSize := by
  rw [holding, List.length_map, length_blocksOf (by decide)]

theorem length_stored_le (codec : Codec) (compress : Bool) (start : Nat) (entries : Bytes) :
    (holding codec compress start entries).stored.length ≤ 11 * entries.length := by
  have hblocks : (holding codec compress start entries).blocks.flatten.length ≤ _ :=
    length_storedTable_le codec compress entries
  rw [stored, List.length_append, length_index, length_blocks_holding]
  unfold metadataBlockSize
  omega

theorem length_index_pos {entries : Bytes} (hentries : entries ≠ []) :
    8 ≤ (holding codec compress start entries).index.length := by
  have hblocks : (holding codec compress start entries).blocks ≠ [] := by
    unfold holding
    dsimp only
    rw [blocksOf_of_ne_nil (by decide) hentries]
    exact List.cons_ne_nil _ _
  have hpositive := List.length_pos_iff.mpr hblocks
  rw [length_index]
  omega

theorem stored_ne_nil {entries : Bytes} (hentries : entries ≠ []) :
    (holding codec compress start entries).stored ≠ [] := by
  intro hnil
  have hpositive : 8 ≤ (holding codec compress start entries).index.length :=
    length_index_pos hentries
  rw [(List.append_eq_nil_iff.mp hnil).2] at hpositive
  cases hpositive

variable {entries : Bytes}

/-- The index of a stored table gives the positions of its blocks. -/
theorem readIndex_of_stores (hmoves : region.storage.Moves)
    (hcheck : region.check (holding codec compress start entries).indexStart
      (holding codec compress start entries).index.length = .ok ())
    (hstores : region.Stores start (holding codec compress start entries).stored)
    (hcount : entries.length = count * entrySize) (hfits : count * entrySize < addressSpace)
    (hlimit : (holding codec compress start entries).stop ≤ limit) :
    readIndex region (holding codec compress start entries).indexStart count entrySize limit =
      .ok ((holding codec compress start entries).placed.map Prod.fst) := by
  generalize hlookup : holding codec compress start entries = lookup at *
  have hstart : lookup.start = start := by rw [← hlookup, holding]
  have hblocks : lookup.blocks.length =
      (count * entrySize + metadataBlockSize - 1) / metadataBlockSize := by
    rw [← hlookup, length_blocks_holding, hcount]
  have hlength : indexLength (count * entrySize) = lookup.index.length := by
    rw [indexLength, ← hblocks, length_index]
  have hplaced : ∀ place ∈ lookup.placed, place.1 < lookup.indexStart := by
    intro place hmem
    exact (lt_of_mem_place (fun block hblock => ne_nil_of_mem_blocks (hlookup ▸ hblock)) hmem).2
  have hindex := hstores.right
  rw [← hstart] at hindex
  change region.Stores lookup.indexStart lookup.index at hindex
  rw [readIndex_eq_ok, hlength]
  refine ⟨hfits, ?_, by rwa [stop] at hlimit, lookup.index,
    hindex.read_of_check hmoves hcheck, ?_, ?_⟩
  · rw [← hlength, indexLength]
    unfold metadataBlockSize addressSpace at *
    omega
  · rw [index, blocksOf_flatMap (by decide) (fun _ => length_littleEndian 8 _), List.map_map]
    refine List.map_congr_left fun place hmem => ?_
    have hne : lookup.index ≠ [] := by
      intro hnil
      have hword := congrArg List.length (List.flatMap_eq_nil_iff.mp hnil place hmem)
      rw [length_littleEndian] at hword
      cases hword
    have hend := hindex.end_lt hne
    have hlt := hplaced place hmem
    have hfitsWord : place.1 < 256 ^ 8 := by
      unfold addressSpace at hend
      omega
    rw [Function.comp_apply, fromLittleEndian_littleEndian, Nat.mod_eq_of_lt hfitsWord]
  · intro position hmem
    obtain ⟨place, hplace, rfl⟩ := List.mem_map.mp hmem
    exact hplaced place hplace

theorem readEntries_of_stores (hcodec : compress = true → codec.IsFaithful)
    (hopen : region.IsOpen)
    (hstores : region.Stores start (holding codec compress start entries).stored)
    (hcount : entries.length = count * entrySize) (hfits : count * entrySize < addressSpace) :
    readEntries region codec ((holding codec compress start entries).placed.map Prod.fst)
        (holding codec compress start entries).indexStart count entrySize =
      .ok (blocksOf entrySize entries) := by
  have hbuffer := toList_foldl_pushAll (blocksOf metadataBlockSize entries) #[]
  rw [List.nil_append, flatten_blocksOf (by decide)] at hbuffer
  rw [readEntries_eq_ok]
  refine ⟨hfits, _, readBlocks_of_stores hcodec hopen
    (fun payload hmem => payload_of_mem_blocksOf hmem) hstores.left (Nat.le_refl _) #[], ?_, ?_⟩
  · exact Nat.le_of_eq (by rw [← Array.length_toList, hbuffer, hcount])
  · rw [Buffer.toList_slice, hbuffer, List.drop_zero, ← hcount, List.take_length]

end Lookup

end TreeImage.Table
