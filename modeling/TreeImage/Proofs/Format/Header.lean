import TreeImage.Proofs.Format.Superblock

namespace TreeImage.Format

theorem isBlockSize_iff {size : Nat} :
    isBlockSize size = true ↔
      (∃ exponent, size = 2 ^ exponent) ∧ 4096 ≤ size ∧ size ≤ 2 ^ 20 := by
  have hpower : 1 <<< size.log2 = size ↔ ∃ exponent, size = 2 ^ exponent := by
    rw [Nat.one_shiftLeft]
    constructor
    · exact fun hsize => ⟨size.log2, hsize.symm⟩
    · rintro ⟨exponent, rfl⟩
      rw [Nat.log2_two_pow]
  rw [isBlockSize, Bool.and_eq_true, Bool.and_eq_true, beq_iff_eq, hpower, and_comm,
    decide_eq_true_eq, decide_eq_true_eq]
  rfl

namespace RecordRef

variable {ref other : RecordRef}

def bytes (ref : RecordRef) : Bytes := littleEndian 6 ref.toUInt64.toNat

@[simp] theorem length_bytes (ref : RecordRef) : ref.bytes.length = 6 := length_littleEndian 6 _

theorem toNat_toUInt64_ofUInt64 (word : UInt64) :
    (ofUInt64 word).toUInt64.toNat = word.toNat % 256 ^ 6 := by
  have hword := word.toNat_lt
  rw [toNat_toUInt64]
  simp only [ofUInt64, UInt64.toNat_toUInt32, UInt64.toNat_toUInt16, UInt64.toNat_shiftRight,
    UInt64.reduceToNat, Nat.reduceMod, Nat.shiftRight_eq_div_pow]
  omega

theorem toNat_toUInt64_lt (ref : RecordRef) : ref.toUInt64.toNat < 256 ^ 6 := by
  have hblock := ref.block.toNat_lt
  have hoffset := ref.offset.toNat_lt
  rw [toNat_toUInt64]
  omega

theorem bytes_inj : ref.bytes = other.bytes ↔ ref = other := by
  refine ⟨fun hbytes => ?_, congrArg bytes⟩
  have hnumber := ((littleEndian_append_inj ref.toNat_toUInt64_lt other.toNat_toUInt64_lt).mp
    (congrArg (· ++ []) hbytes)).1
  rw [← ref.ofUInt64_toUInt64, UInt64.toNat_inj.mp hnumber, ofUInt64_toUInt64]

theorem word64_eq_bytes_append (word : UInt64) :
    word64 word = (ofUInt64 word).bytes ++ littleEndian 2 (word.toNat / 256 ^ 6) := by
  rw [bytes, toNat_toUInt64_ofUInt64, littleEndian_mod, ← littleEndian_add]
  rfl

theorem word64_toUInt64 (ref : RecordRef) : word64 ref.toUInt64 = ref.bytes ++ [0, 0] := by
  rw [word64_eq_bytes_append, ofUInt64_toUInt64, Nat.div_eq_of_lt ref.toNat_toUInt64_lt]
  rfl

theorem exists_word (ref : RecordRef) {surplus : Bytes} (hsurplus : surplus.length = 2) :
    ∃ word, ofUInt64 word = ref ∧ word64 word = ref.bytes ++ surplus := by
  have hlength : (ref.bytes ++ surplus).length = 8 := by simp [hsurplus]
  have hlt := fromLittleEndian_lt (ref.bytes ++ surplus)
  have hsame := littleEndian_fromLittleEndian (ref.bytes ++ surplus)
  rw [hlength] at hlt hsame
  rw [← UInt64.toNat_ofNat_of_lt' hlt] at hsame
  refine ⟨_, bytes_inj.mp ?_, hsame⟩
  rw [← word64, word64_eq_bytes_append] at hsame
  exact (List.append_inj hsame (by simp)).1

end RecordRef

namespace Superblock

variable {superblock : Superblock} {data : Bytes}

structure IsProper (superblock : Superblock) : Prop where
  blockSize_power : ∃ exponent, superblock.blockSize.toNat = 2 ^ exponent
  blockSize_ge : 4096 ≤ superblock.blockSize.toNat
  blockSize_le : superblock.blockSize.toNat ≤ 2 ^ 20
  blockLog : superblock.blockSize.toNat = 2 ^ superblock.blockLog.toNat
  inodes_ge : 96 ≤ superblock.inodeTableStart.toNat
  inodes_le : superblock.inodeTableStart.toNat ≤ superblock.directoryTableStart.toNat
  directories_le : superblock.directoryTableStart.toNat ≤ superblock.bytesUsed.toNat
  ids_le : superblock.idTableStart.toNat ≤ superblock.bytesUsed.toNat
  rootOffset_lt : superblock.root.offset.toNat < 8192

theorem isProper_iff : superblock.IsProper ↔
    superblock.blockSize.toNat.log2 = superblock.blockLog.toNat ∧ superblock.IsChecked := by
  constructor
  · rintro ⟨hpower, hge, hle, hlog, hinodes, hdirectories, hused, hids, hroot⟩
    refine ⟨?_, isBlockSize_iff.mpr ⟨hpower, hge, hle⟩, ?_, hroot⟩
    · rw [hlog, Nat.log2_two_pow]
    · exact tablesInOrder_iff.mpr ⟨hinodes, hdirectories, hused, hids⟩
  · rintro ⟨hlog, hblockSize, htables, hroot⟩
    obtain ⟨hpower, hge, hle⟩ := isBlockSize_iff.mp hblockSize
    obtain ⟨hinodes, hdirectories, hused, hids⟩ := tablesInOrder_iff.mp htables
    refine ⟨hpower, hge, hle, ?_, hinodes, hdirectories, hused, hids, hroot⟩
    obtain ⟨exponent, hsize⟩ := hpower
    rw [← hlog, hsize, Nat.log2_two_pow]

theorem parse_eq_ok_iff_isProper : parse data = .ok superblock ↔
    (∃ root rest, RecordRef.ofUInt64 root = superblock.root ∧
      data = superblock.bytesWith root ++ rest) ∧ superblock.IsProper :=
  parse_eq_ok.trans (and_congr_right fun _ => isProper_iff.symm)

theorem id_lt (algorithm : Algorithm) : algorithm.id < 256 ^ 2 := by
  cases algorithm
  all_goals decide

theorem eq_of_bytesWith {other : Superblock} {root : UInt64} {front back : Bytes}
    (hbytes : superblock.toBytes ++ front = other.bytesWith root ++ back)
    (hroot : RecordRef.ofUInt64 root = other.root) : other = superblock := by
  rw [toBytes_eq_bytesWith] at hbytes
  -- every field takes a fixed number of bytes, so that the fields agree one by one
  unfold bytesWith opening closing at hbytes
  simp only [List.append_assoc, word16_append_inj, word32_append_inj, word64_append_inj,
    littleEndian_append_inj (id_lt _) (id_lt _)] at hbytes
  obtain ⟨-, hinodeCount, hmodificationTime, hblockSize, hfragmentCount, hcompression, hblockLog,
    hflags, hidCount, -, -, rfl, hbytesUsed, hidTable, hxattrTable, hinodeTable, hdirectoryTable,
    hfragmentTable, hexportTable, -⟩ := hbytes
  rw [RecordRef.ofUInt64_toUInt64] at hroot
  have halgorithm := Algorithm.ofId?_eq_some_iff.mpr hcompression
  rw [Algorithm.ofId?_id] at halgorithm
  obtain ⟨⟩ := superblock
  obtain ⟨⟩ := other
  simp only [Option.some.injEq] at *
  simp only [Superblock.mk.injEq]
  simp [*]

theorem fields_of_parse (hparse : parse data = .ok superblock) :
    96 ≤ data.length ∧ data.take 4 = [0x68, 0x73, 0x71, 0x73] ∧
      (data.drop 28).take 4 = [4, 0, 0, 0] ∧
      fromLittleEndian ((data.drop 20).take 2) = superblock.compression.id := by
  obtain ⟨⟨root, rest, -, rfl⟩, -⟩ := parse_eq_ok.mp hparse
  have hmagic : word32 magic = [0x68, 0x73, 0x71, 0x73] := by decide
  have hversion : word16 versionMajor ++ word16 versionMinor = [4, 0, 0, 0] := by decide
  refine ⟨?_, ?_, ?_, ?_⟩
  · simp [superblockSize]
  · simp [bytesWith, opening, hmagic]
  · rw [← hversion]
    simp [bytesWith, opening, List.drop_append, List.take_append, List.drop_of_length_le,
      List.take_of_length_le]
  · have hfield : ((superblock.bytesWith root ++ rest).drop 20).take 2 =
        littleEndian 2 superblock.compression.id := by
      simp [bytesWith, opening, List.drop_append, List.drop_of_length_le]
    rw [hfield, fromLittleEndian_littleEndian]
    exact Nat.mod_eq_of_lt (id_lt superblock.compression)

/-- A superblock is read back from its bytes, whatever comes after them, exactly if its numbers are
proper, and else it is refused as a header.  So are bytes that are too few, and bytes with another
magic number, version or algorithm. -/
theorem parse_exactly (superblock : Superblock) (rest : Bytes) :
    (parse (superblock.toBytes ++ rest) = .ok superblock ↔ superblock.IsProper) ∧
      (¬superblock.IsProper →
        ∃ fault, parse (superblock.toBytes ++ rest) = .error (.invalidFormat fault)) ∧
      ∀ data : Bytes,
        (data.length < 96 ∨ data.take 4 ≠ [0x68, 0x73, 0x71, 0x73] ∨
          (data.drop 28).take 4 ≠ [4, 0, 0, 0] ∨
          fromLittleEndian ((data.drop 20).take 2) ∉ [1, 2, 3, 4, 5, 6]) →
        ∃ fault, parse data = .error (.invalidFormat fault) := by
  have hrefused : ∀ data : Bytes, (∀ found, parse data ≠ .ok found) →
      ∃ fault, parse data = .error (.invalidFormat fault) := by
    intro data hnone
    cases hparse : parse data with
    | ok found => exact absurd hparse (hnone found)
    | error error =>
        obtain ⟨fault, rfl⟩ := invalidFormat_of_parse hparse
        exact ⟨fault, rfl⟩
  refine ⟨?_, ?_, ?_⟩
  · rw [parse_eq_ok_iff_isProper, and_iff_right]
    exact ⟨_, rest, superblock.root.ofUInt64_toUInt64, by rw [toBytes_eq_bytesWith]⟩
  · intro himproper
    -- whatever these bytes were read as would be this superblock
    refine hrefused _ fun found hparse => himproper ?_
    obtain ⟨⟨root, back, hroot, hbytes⟩, hproper⟩ := parse_eq_ok_iff_isProper.mp hparse
    exact eq_of_bytesWith hbytes hroot ▸ hproper
  · intro data hfields
    refine hrefused data fun found hparse => ?_
    obtain ⟨hlength, hmagic, hversion, hcompression⟩ := fields_of_parse hparse
    rcases hfields with hshort | hother | hother | hother
    · exact Nat.not_lt_of_le hlength hshort
    · exact hother hmagic
    · exact hother hversion
    · exact hother (hcompression ▸ found.compression.id_mem)

def sampleSuperblock : Superblock where
  inodeCount := 3
  modificationTime := 9
  blockSize := 0x2000
  fragmentCount := 1
  compression := .gzip
  blockLog := 13
  flags := Flag.noXattrs
  idCount := 1
  root := ⟨0, 64⟩
  bytesUsed := 400
  idTableStart := 380
  xattrTableStart := noTable
  inodeTableStart := 96
  directoryTableStart := 250
  fragmentTableStart := 300
  exportTableStart := noTable

/-- It is read back, it is refused once its tables are out of order, and so are its first bytes. -/
theorem parse_exactly_sample :
    parse (sampleSuperblock.toBytes ++ [1, 2]) = .ok sampleSuperblock ∧
      (∃ fault, parse ({ sampleSuperblock with idTableStart := 401 }.toBytes ++ [1, 2]) =
        .error (.invalidFormat fault)) ∧
      ∃ fault, parse (sampleSuperblock.toBytes.take 95) = .error (.invalidFormat fault) := by
  obtain ⟨hread, -, hrefused⟩ := parse_exactly sampleSuperblock [1, 2]
  obtain ⟨-, himproper, -⟩ := parse_exactly { sampleSuperblock with idTableStart := 401 } [1, 2]
  refine ⟨hread.mpr ?_, himproper fun hproper => ?_, hrefused _ (Or.inl (by decide))⟩
  · exact ⟨⟨13, rfl⟩, by decide, by decide, by decide, by decide, by decide, by decide, by decide,
      by decide⟩
  · exact absurd hproper.ids_le (by decide)

theorem eq_around_surplus (data : Bytes) :
    data = data.take 38 ++ ((data.drop 38).take 2 ++ data.drop 40) := by
  have hrest := List.take_append_drop 2 (data.drop 38)
  rw [List.drop_drop] at hrest
  rw [hrest, List.take_append_drop]

/-- A header is read as a superblock exactly if it has the superblock's bytes on both sides of the
two highest of the word of the root. -/
theorem parse_eq_ok_of_length (hlength : data.length = superblockSize) :
    parse data = .ok superblock ↔
      (data.take 38 = superblock.opening ++ superblock.root.bytes ∧
        data.drop 40 = superblock.closing) ∧ superblock.IsProper := by
  rw [parse_eq_ok_iff_isProper]
  refine and_congr_left fun _ => ⟨?_, ?_⟩
  · rintro ⟨root, rest, hroot, rfl⟩
    obtain rfl : rest = [] := by simpa using hlength
    rw [bytesWith, RecordRef.word64_eq_bytes_append, hroot]
    simp [List.take_append, List.drop_append, List.take_of_length_le, List.drop_of_length_le]
  · rintro ⟨hfront, hback⟩
    have hsurplus : ((data.drop 38).take 2).length = 2 := by simp [hlength, superblockSize]
    obtain ⟨root, hroot, hword⟩ := superblock.root.exists_word hsurplus
    refine ⟨root, [], hroot, ?_⟩
    calc
      data = data.take 38 ++ ((data.drop 38).take 2 ++ data.drop 40) := eq_around_surplus data
      _ = superblock.bytesWith root ++ [] := by
        rw [bytesWith, hword, hfront, hback]
        simp only [List.append_assoc, List.append_nil]

theorem toBytes_eq_around_zeros (superblock : Superblock) :
    superblock.toBytes =
      superblock.opening ++ superblock.root.bytes ++ [0, 0] ++ superblock.closing := by
  rw [toBytes_eq_bytesWith, bytesWith, RecordRef.word64_toUInt64]
  simp only [List.append_assoc]

/-- A header that is read as a superblock keeps all its bytes but two: the highest of the word of
the root are zero in the superblock's own bytes, and whatever they are in the header, the
superblock is the same. -/
theorem kept_of_parse (hlength : data.length = superblockSize)
    (hparse : parse data = .ok superblock) :
    superblock.toBytes = data.take 38 ++ [0, 0] ++ data.drop 40 ∧
      (superblock.toBytes = data ↔ (data.drop 38).take 2 = [0, 0]) ∧
      ∀ other : Bytes, other.length = superblockSize →
        (parse other = .ok superblock ↔
          other.take 38 = data.take 38 ∧ other.drop 40 = data.drop 40) := by
  obtain ⟨⟨hfront, hback⟩, hproper⟩ := (parse_eq_ok_of_length hlength).mp hparse
  have hbytes : superblock.toBytes = data.take 38 ++ [0, 0] ++ data.drop 40 := by
    rw [toBytes_eq_around_zeros, hfront, hback]
  refine ⟨hbytes, ?_, ?_⟩
  · constructor
    · intro hsame
      have hparts := (hbytes.symm.trans hsame).trans (eq_around_surplus data)
      rw [List.append_assoc, List.append_cancel_left_eq, List.append_cancel_right_eq] at hparts
      exact hparts.symm
    · intro hsurplus
      rw [hbytes, List.append_assoc, ← hsurplus, ← eq_around_surplus]
  · intro other hother
    rw [parse_eq_ok_of_length hother, hfront, hback, and_iff_left hproper]

/-- The sample header with a bit set above the block of its root. -/
def crookedHeader : Bytes :=
  sampleSuperblock.toBytes.take 38 ++ [1, 0] ++ sampleSuperblock.toBytes.drop 40

theorem parse_crookedHeader : parse crookedHeader = .ok sampleSuperblock :=
  Except.eq_ok_of_toOption (by decide +kernel)

/-- The bit is dropped, and nothing else. -/
theorem kept_of_crookedHeader :
    crookedHeader.length = superblockSize ∧ parse crookedHeader = .ok sampleSuperblock ∧
      sampleSuperblock.toBytes = crookedHeader.take 38 ++ [0, 0] ++ crookedHeader.drop 40 :=
  have hlength : crookedHeader.length = superblockSize := by decide +kernel
  ⟨hlength, parse_crookedHeader, (kept_of_parse hlength parse_crookedHeader).1⟩

/-- Not every header that is read as a superblock is given back by it. -/
theorem not_every_header_kept :
    ¬∀ (header : Bytes) (superblock : Superblock), header.length = superblockSize →
      parse header = .ok superblock → superblock.toBytes = header := by
  intro hevery
  have hkept := hevery crookedHeader sampleSuperblock (by decide +kernel) parse_crookedHeader
  exact absurd hkept (by decide +kernel)

end Superblock

end TreeImage.Format
