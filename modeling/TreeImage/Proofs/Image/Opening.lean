import TreeImage.Image.Basic
import TreeImage.Proofs.Format.Steps
import TreeImage.Proofs.Format.Superblock
import TreeImage.Proofs.Table.Report

namespace TreeImage

open Format

namespace Image

structure InMemory (image : Image) : Prop where
  region : image.region.InMemory
  codec : image.codec.IsWary
  checked : image.superblock.IsChecked
  start_lt : image.region.start + image.superblock.directoryTableStart.toNat <
    image.region.storage.size
  start_le : image.superblock.directoryTableStart.toNat ≤ image.directoryTableEnd
  stop_le : image.directoryTableEnd ≤ image.superblock.bytesUsed.toNat
  holds : image.region.Holds image.superblock.bytesUsed.toNat

variable {region : Region} {codecs : Codecs} {codec : Codec} {superblock : Superblock}

theorem parse_reports {storageFails : Prop} (bytes : Bytes) :
    Reports storageFails (Superblock.parse bytes) := by
  intro error herror
  obtain ⟨fault, rfl⟩ := Superblock.invalidFormat_of_parse herror
  trivial

theorem readSuperblock_reports (hmemory : region.InMemory) :
    Reports (region.declared ≠ none) (readSuperblock region) := by
  unfold readSuperblock
  refine .refuse trivial fun hsize => ?_
  have hholds : region.Holds (0 + superblockSize) := by
    intro hnone
    simp only [Region.size, hnone, Option.getD_none] at hsize
    unfold superblockSize at *
    omega
  refine .bind (hmemory.read_reports hholds) fun data _ => ?_
  refine .bind (parse_reports data) fun _ _ => ?_
  exact .refuse trivial fun _ => .ok _

theorem readSuperblock_eq_ok (hread : readSuperblock region = .ok superblock) :
    superblock.IsChecked ∧ region.Holds superblock.bytesUsed.toNat := by
  unfold readSuperblock at hread
  obtain ⟨hsize, hread⟩ := Except.refuse_eq_ok.mp hread
  obtain ⟨data, -, hread⟩ := Except.bind_eq_ok.mp hread
  obtain ⟨found, hparse, hread⟩ := Except.bind_eq_ok.mp hread
  obtain ⟨hused, hread⟩ := Except.refuse_eq_ok.mp hread
  cases hread
  refine ⟨Superblock.isChecked_of_parse hparse, ?_⟩
  intro hnone
  simp only [Region.size, hnone, Option.getD_none] at hsize hused
  unfold superblockSize at hsize
  omega

theorem codec_reports {storageFails : Prop} (codecs : Codecs) (algorithm : Algorithm) :
    Reports storageFails (algorithm.codec codecs) := by
  intro error herror
  rw [Algorithm.eq_of_codec_eq_error herror]
  trivial

section Load

variable (hmemory : region.InMemory) (hwary : codec.IsWary)
  (hholds : region.Holds superblock.bytesUsed.toNat)
include hmemory hwary hholds

theorem load_reports (start : UInt64) {count entrySize : Nat} (hcount : count < 2 ^ 32)
    (hentry : entrySize ≤ 16) :
    Reports (region.declared ≠ none) (load region codec superblock start count entrySize) := by
  have hwanted : 2 * (count * entrySize) < addressSpace := by
    have hproduct : count * entrySize ≤ 2 ^ 32 * 16 :=
      Nat.mul_le_mul (Nat.le_of_lt hcount) hentry
    unfold addressSpace
    omega
  unfold load
  refine .bind (Table.readIndex_reports hmemory hholds hwanted _) fun positions hindex => ?_
  obtain ⟨-, -, hstart, -⟩ := Table.readIndex_eq_ok.mp hindex
  refine .bind ?_ fun _ _ => .ok _
  exact Table.readEntries_reports hmemory hwary (hholds.mono (by omega)) (by omega) positions

theorem loadIds_reports :
    Reports (region.declared ≠ none) (loadIds region codec superblock) := by
  unfold loadIds
  split
  · exact .error trivial
  · have hcount := superblock.idCount.toNat_lt
    exact load_reports hmemory hwary hholds _ (by omega) (by unfold idEntrySize; omega)

theorem loadFragments_reports :
    Reports (region.declared ≠ none) (loadFragments region codec superblock) := by
  unfold loadFragments
  split
  · exact .ok _
  · exact load_reports hmemory hwary hholds _ superblock.fragmentCount.toNat_lt
      (by unfold fragmentEntrySize; omega)

theorem loadExports_reports :
    Reports (region.declared ≠ none) (loadExports region codec superblock) := by
  unfold loadExports
  split
  · exact .map (load_reports hmemory hwary hholds _ superblock.inodeCount.toNat_lt
      (by unfold exportEntrySize; omega)) some
  · exact .ok _

end Load

theorem ofRegion_reports (hcodecs : codecs.All Codec.IsWary) (hmemory : region.InMemory) :
    Reports (region.declared ≠ none) (ofRegion codecs region) := by
  unfold ofRegion
  refine .bind (readSuperblock_reports hmemory) fun superblock hsuperblock => ?_
  obtain ⟨-, hholds⟩ := readSuperblock_eq_ok hsuperblock
  refine .bind (codec_reports _ _) fun codec hcodec => ?_
  have hwary := hcodecs _ _ hcodec
  refine .bind (loadIds_reports hmemory hwary hholds) fun ids _ => ?_
  refine .bind (loadFragments_reports hmemory hwary hholds) fun fragments _ => ?_
  refine .bind (loadExports_reports hmemory hwary hholds) fun exports _ => ?_
  exact .refuse trivial fun _ => .ok _

theorem foldl_min_le (floors : List Nat) (bound : Nat) : floors.foldl min bound ≤ bound := by
  induction floors generalizing bound with
  | nil => exact Nat.le_refl _
  | cons floor floors ih => exact Nat.le_trans (ih _) (Nat.min_le_left ..)

theorem le_foldl_min {floors : List Nat} {bound least : Nat} (hbound : least ≤ bound)
    (hfloors : ∀ floor ∈ floors, least ≤ floor) : least ≤ floors.foldl min bound := by
  induction floors generalizing bound with
  | nil => exact hbound
  | cons floor floors ih =>
      have hfloor := hfloors floor (by simp)
      exact ih (by omega) fun other hmem => hfloors other (by simp [hmem])

theorem floor_lt_of_load (hmemory : region.InMemory)
    (hholds : region.Holds superblock.bytesUsed.toNat) {start : UInt64} {count entrySize : Nat}
    (hentries : 0 < count * entrySize) {loaded : Loaded}
    (hload : load region codec superblock start count entrySize = .ok loaded) :
    ∃ floor, loaded.floor = some floor ∧ region.start + floor < region.storage.size := by
  obtain ⟨positions, hindex, hload⟩ := Except.bind_eq_ok.mp hload
  obtain ⟨entries, hentriesRead, hload⟩ := Except.bind_eq_ok.mp hload
  cases hload
  obtain ⟨floor, rest, rfl⟩ := Table.exists_cons_of_readIndex hmemory hentries hholds hindex
  obtain ⟨-, -, hstart, -⟩ := Table.readIndex_eq_ok.mp hindex
  exact ⟨floor, rfl, Table.lt_of_readEntries hmemory (hholds.mono (by omega)) hentriesRead⟩

/-- What opening reads: the superblock and the lookup tables, none of which starts before a
position. -/
structure Opens (codecs : Codecs) (region : Region) (codec : Codec) (superblock : Superblock)
    (ids fragments : Loaded) (exports : Option Loaded) (stop : Nat) : Prop where
  superblock_eq : readSuperblock region = .ok superblock
  codec_eq : superblock.compression.codec codecs = .ok codec
  ids_eq : loadIds region codec superblock = .ok ids
  fragments_eq : loadFragments region codec superblock = .ok fragments
  exports_eq : loadExports region codec superblock = .ok exports
  stop_le : ∀ floor ∈ [ids.floor, fragments.floor, exports.bind Loaded.floor].filterMap id,
    stop ≤ floor

def assemble (region : Region) (codec : Codec) (superblock : Superblock) (ids fragments : Loaded)
    (exports : Option Loaded) : Image where
  region
  superblock
  codec
  ids := (ids.entries.map fun entry => UInt32.ofNat (fromLittleEndian entry)).toArray
  fragments := (fragments.entries.map FragmentEntry.decode).toArray
  exports := exports.map fun exports => (exports.entries.map decodeRef).toArray
  directoryTableEnd := ([ids.floor, fragments.floor, exports.bind Loaded.floor].filterMap id).foldl
    min superblock.bytesUsed.toNat

theorem Opens.ofRegion {ids fragments : Loaded} {exports : Option Loaded} {stop : Nat}
    (hopens : Opens codecs region codec superblock ids fragments exports stop)
    (hstop : superblock.directoryTableStart.toNat ≤ stop) :
    ofRegion codecs region = .ok (assemble region codec superblock ids fragments exports) := by
  rw [Image.ofRegion, hopens.superblock_eq, Except.ok_bind, hopens.codec_eq, Except.ok_bind,
    hopens.ids_eq, Except.ok_bind, hopens.fragments_eq, Except.ok_bind, hopens.exports_eq,
    Except.ok_bind]
  refine Except.refuse_eq_ok.mpr ⟨?_, rfl⟩
  simp only [List.any_eq_true, decide_eq_true_eq, not_exists, not_and, Nat.not_lt]
  exact fun floor hmem => Nat.le_trans hstop (hopens.stop_le floor hmem)

theorem exists_opens_of_ofRegion {image : Image} (hopen : ofRegion codecs region = .ok image) :
    ∃ superblock codec ids fragments exports,
      Opens codecs region codec superblock ids fragments exports
          superblock.directoryTableStart.toNat ∧
        image = assemble region codec superblock ids fragments exports := by
  obtain ⟨superblock, hsuperblock, hopen⟩ := Except.bind_eq_ok.mp hopen
  obtain ⟨codec, hcodec, hopen⟩ := Except.bind_eq_ok.mp hopen
  obtain ⟨ids, hids, hopen⟩ := Except.bind_eq_ok.mp hopen
  obtain ⟨fragments, hfragments, hopen⟩ := Except.bind_eq_ok.mp hopen
  obtain ⟨exports, hexports, hopen⟩ := Except.bind_eq_ok.mp hopen
  obtain ⟨hfloors, hopen⟩ := Except.refuse_eq_ok.mp hopen
  simp only [List.any_eq_true, decide_eq_true_eq, not_exists, not_and, Nat.not_lt] at hfloors
  exact ⟨superblock, codec, ids, fragments, exports,
    ⟨hsuperblock, hcodec, hids, hfragments, hexports, hfloors⟩, (Except.ok.inj hopen).symm⟩

theorem codec_of_ofRegion {property : Codec → Prop} (hcodecs : codecs.All property) {image : Image}
    (hopen : ofRegion codecs region = .ok image) : property image.codec := by
  obtain ⟨superblock, codec, ids, fragments, exports, hopens, rfl⟩ := exists_opens_of_ofRegion hopen
  exact hcodecs _ _ hopens.codec_eq

/-- The tables of an image that was opened in memory lie in memory. -/
theorem inMemory_of_ofRegion (hcodecs : codecs.All Codec.IsWary) (hmemory : region.InMemory)
    {image : Image} (hopen : ofRegion codecs region = .ok image) :
    image.InMemory ∧ image.region = region := by
  obtain ⟨superblock, codec, ids, fragments, exports, hopens, rfl⟩ := exists_opens_of_ofRegion hopen
  obtain ⟨hchecked, hholds⟩ := readSuperblock_eq_ok hopens.superblock_eq
  have hfloors := hopens.stop_le
  have hids := hopens.ids_eq
  refine ⟨⟨hmemory, hcodecs _ _ hopens.codec_eq, hchecked, ?_, ?_, ?_, hholds⟩, rfl⟩
  · unfold loadIds at hids
    split at hids
    · cases hids
    · rename_i hcount
      have hpositive : 0 < superblock.idCount.toNat :=
        Nat.pos_of_ne_zero fun hzero => hcount (UInt16.toNat_inj.mp hzero)
      obtain ⟨floor, hfloor, hlt⟩ := floor_lt_of_load hmemory hholds
        (Nat.mul_pos hpositive (by decide)) hids
      have hle := hfloors floor (by simp [hfloor])
      dsimp only [assemble]
      omega
  · exact le_foldl_min hchecked.directories_le_bytesUsed hfloors
  · exact foldl_min_le _ _

end Image

end TreeImage
