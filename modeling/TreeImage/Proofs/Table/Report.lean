import TreeImage.Proofs.Error.Report
import TreeImage.Proofs.Table.Lookup
import TreeImage.Proofs.Table.Reader

namespace TreeImage

open Format

theorem Codec.IsWary.reports {codec : Codec} (hwary : codec.IsWary) {storageFails : Prop}
    (frame : Bytes) {limit : Nat} (hlimit : limit ≤ maxCapacity) :
    Reports storageFails (codec.decompress frame limit) := by
  intro error herror
  obtain ⟨damage, rfl⟩ := hwary frame limit error hlimit herror
  trivial

theorem Region.InMemory.read_reports {region : Region} (hmemory : region.InMemory)
    {offset count : Nat} (hholds : region.Holds (offset + count)) :
    Reports (region.declared ≠ none) (region.read offset count) := by
  rcases hmemory.read_cases hholds with ⟨hread, -⟩ | ⟨hdeclared, error, hread⟩
  · rw [hread]
    exact .ok _
  · rw [hread]
    exact .error hdeclared

namespace Table

variable {region : Region} {codec : Codec} {limit : Nat}

/-- Where a block ends is an address, since its header was read from memory. -/
theorem readBlock_reports (hmemory : region.InMemory) (hwary : codec.IsWary)
    (hholds : region.Holds limit) (position : Nat) :
    Reports (region.declared ≠ none) (readBlock region codec position limit) := by
  unfold readBlock
  refine .refuse trivial fun hstart => ?_
  have hheaderHolds : region.Holds (position + 2) := hholds.mono (by omega)
  refine .bind (hmemory.read_reports hheaderHolds) fun header hheader => ?_
  refine .refuse trivial fun hlength => ?_
  have hfits : position + 2 + fromLittleEndian header % metadataRaw < addressSpace := by
    obtain ⟨rfl, hheld⟩ := hmemory.read_eq_ok hheaderHolds hheader
    have hend := Region.start_add_le_of_length_held hheld (by omega)
    have hsize := hmemory.storage.size_lt
    unfold addressSpace metadataBlockSize at *
    omega
  refine .bind (.of_eq_ok (Trapping.add_eq_ok hfits)) fun stop hstop => ?_
  obtain ⟨-, rfl⟩ := Trapping.eq_of_add_eq_ok hstop
  refine .refuse trivial fun hoverrun => ?_
  refine .bind (hmemory.read_reports (hholds.mono (by omega))) fun frame _ => ?_
  split
  · exact .ok _
  · exact .bind (hwary.reports frame (by decide)) fun _ _ => .ok _

theorem readIndex_reports (hmemory : region.InMemory) (hholds : region.Holds limit)
    {count entrySize : Nat} (hwanted : 2 * (count * entrySize) < addressSpace) (start : Nat) :
    Reports (region.declared ≠ none) (readIndex region start count entrySize limit) := by
  unfold readIndex
  have hlength : (count * entrySize + metadataBlockSize - 1) / metadataBlockSize * 8 <
      addressSpace := by
    unfold addressSpace metadataBlockSize at *
    omega
  rw [Trapping.mul_eq_ok (by omega), Except.ok_bind]
  simp only [Trapping.mul_eq_ok hlength, Except.ok_bind]
  refine .refuse trivial fun hpast => ?_
  refine .bind (hmemory.read_reports (hholds.mono (by omega))) fun raw _ => ?_
  exact .refuse trivial fun _ => .ok _

theorem exists_cons_of_readIndex (hmemory : region.InMemory) {start count entrySize : Nat}
    {positions : List Nat} (hentries : 0 < count * entrySize) (hholds : region.Holds limit)
    (hindex : readIndex region start count entrySize limit = .ok positions) :
    ∃ first rest, positions = first :: rest := by
  obtain ⟨-, -, hlimit, raw, hraw, rfl, -⟩ := readIndex_eq_ok.mp hindex
  obtain ⟨-, hlength⟩ := hmemory.read_eq_ok (hholds.mono hlimit) hraw
  have hne : raw ≠ [] := by
    rintro rfl
    unfold indexLength metadataBlockSize at hlength
    simp only [List.length_nil] at hlength
    omega
  rw [blocksOf_of_ne_nil (by omega) hne]
  exact ⟨_, _, List.map_cons⟩

theorem lt_of_readEntries (hmemory : region.InMemory) {start count entrySize first : Nat}
    {rest : List Nat} (hholds : region.Holds start) {entries : List Bytes}
    (hread : readEntries region codec (first :: rest) start count entrySize = .ok entries) :
    region.start + first < region.storage.size := by
  obtain ⟨-, data, hdata, -⟩ := readEntries_eq_ok.mp hread
  obtain ⟨⟨payload, stored⟩, hblock, -⟩ := Except.bind_eq_ok.mp hdata
  obtain ⟨hlimit, -, -, -, header, -, hheader, -⟩ := readBlock_eq_ok.mp hblock
  obtain ⟨rfl, hheld⟩ := hmemory.read_eq_ok (hholds.mono (by omega)) hheader
  have hend := Region.start_add_le_of_length_held hheld (by omega)
  omega

theorem readBlocks_reports (hmemory : region.InMemory) (hwary : codec.IsWary)
    (hholds : region.Holds limit) (positions : List Nat) (data : Buffer) :
    Reports (region.declared ≠ none) (readBlocks region codec limit positions data) := by
  induction positions generalizing data with
  | nil => exact .ok data
  | cons position positions ih =>
      rw [readBlocks]
      exact .bind (readBlock_reports hmemory hwary hholds position) fun block _ => ih _

theorem readEntries_reports (hmemory : region.InMemory) (hwary : codec.IsWary) {start : Nat}
    (hholds : region.Holds start) {count entrySize : Nat}
    (hwanted : count * entrySize < addressSpace) (positions : List Nat) :
    Reports (region.declared ≠ none)
      (readEntries region codec positions start count entrySize) := by
  unfold readEntries
  rw [Trapping.mul_eq_ok hwanted, Except.ok_bind]
  refine .bind (readBlocks_reports hmemory hwary hholds positions #[]) fun data _ => ?_
  exact .refuse trivial fun _ => .ok _

end Table

/-- Whether a table lies in memory: its blocks are held up to where it stops, and it starts before
the memory ends. -/
structure RecordTable.InMemory (table : RecordTable) : Prop where
  region : table.region.InMemory
  codec : table.codec.IsWary
  start_le : table.start ≤ table.stop
  start_lt : table.region.start + table.start < table.region.storage.size
  stop_lt : table.stop < addressSpace
  holds : table.region.Holds table.stop

namespace RecordTable

variable {table : RecordTable}

theorem InMemory.add_eq_ok (hmemory : table.InMemory) {position : Nat}
    (hposition : position < table.size ∨ position < 2 ^ 32) :
    Trapping.add table.start position = .ok (table.start + position) := by
  have hsize := hmemory.region.storage.size_lt
  have hstart := hmemory.start_lt
  have hstop := hmemory.stop_lt
  apply Trapping.add_eq_ok
  unfold size at hposition
  unfold addressSpace at *
  omega

theorem InMemory.readBlock_reports (hmemory : table.InMemory) {position : Nat}
    (hposition : position < table.size ∨ position < 2 ^ 32) :
    Reports (table.region.declared ≠ none) (table.readBlock position) := by
  rw [readBlock, hmemory.add_eq_ok hposition]
  exact Table.readBlock_reports hmemory.region hmemory.codec hmemory.holds _

theorem InMemory.next_lt (hmemory : table.InMemory) {position stored : Nat} {payload : Bytes}
    (hread : table.readBlock position = .ok (payload, stored)) :
    position + (2 + stored) < addressSpace := by
  obtain ⟨address, haddress, hread⟩ := Except.bind_eq_ok.mp hread
  obtain ⟨-, rfl⟩ := Trapping.eq_of_add_eq_ok haddress
  obtain ⟨hend, -⟩ := Table.readBlock_eq_ok.mp hread
  have hstop := hmemory.stop_lt
  omega

theorem InMemory.cursor_reports (hmemory : table.InMemory) (ref : RecordRef) :
    Reports (table.region.declared ≠ none) (table.cursor ref) := by
  unfold cursor
  refine .bind (hmemory.readBlock_reports (Or.inr ref.block.toNat_lt)) fun block hblock => ?_
  refine .refuse trivial fun hoffset => ?_
  have hslice := Trapping.slice_eq_ok (Nat.le_of_not_lt hoffset) (Nat.le_refl block.1.length)
  refine .bind (.of_eq_ok hslice) fun unread _ => ?_
  exact .bind (.of_eq_ok (Trapping.add_eq_ok (hmemory.next_lt hblock))) fun _ _ => .ok _

theorem InMemory.collect_reports (hmemory : table.InMemory) (count : Nat) (unread : Bytes)
    (next : Nat) (got : Bytes) :
    Reports (table.region.declared ≠ none) (table.collect count unread next got) := by
  induction hleft : table.size - next using Nat.strongRecOn
    generalizing count unread next got with
  | _ left ih =>
      by_cases hle : count ≤ unread.length
      · rw [collect_of_le hle]
        exact .ok _
      · have hstart := hmemory.start_le
        rw [collect_of_lt (by omega), if_neg (by omega)]
        by_cases hend : table.size ≤ next
        · rw [if_pos hend]
          exact .error trivial
        · rw [if_neg hend]
          refine .bind (hmemory.readBlock_reports (Or.inl (by omega))) fun block hblock => ?_
          have hfits := hmemory.next_lt hblock
          simp only [if_neg (Nat.not_le_of_lt hfits)]
          exact ih _ (by omega) _ _ _ _ rfl

def InMemory.guard (hmemory : table.InMemory) :
    Guard TableCursor (table.region.declared ≠ none) where
  Safe cursor := cursor.table = table
  take_reports count hcursor := by
    subst hcursor
    exact hmemory.collect_reports count _ _ []
  safe_of_take hcursor htake := by
    subst hcursor
    exact table_of_collect htake

end RecordTable

end TreeImage
