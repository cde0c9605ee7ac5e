import TreeImage.Format.Superblock
import TreeImage.Proofs.Codec.Basic
import TreeImage.Proofs.Format.Record

namespace TreeImage.Format

theorem RecordRef.toNat_toUInt64 (ref : RecordRef) :
    ref.toUInt64.toNat = ref.block.toNat * 65536 + ref.offset.toNat := by
  have hblock := ref.block.toNat_lt
  have hoffset := ref.offset.toNat_lt
  have hshift : (ref.block.toUInt64 <<< 16).toNat = 2 ^ 16 * ref.block.toNat := by
    rw [UInt64.toNat_shiftLeft, UInt32.toNat_toUInt64]
    simp only [UInt64.reduceToNat, Nat.reduceMod, Nat.shiftLeft_eq]
    omega
  rw [RecordRef.toUInt64, UInt64.toNat_or, hshift, UInt16.toNat_toUInt64,
    ← Nat.two_pow_add_eq_or_of_lt hoffset]
  omega

theorem RecordRef.ofUInt64_toUInt64 (ref : RecordRef) :
    RecordRef.ofUInt64 ref.toUInt64 = ref := by
  have hword := ref.toNat_toUInt64
  have hblock := ref.block.toNat_lt
  have hoffset := ref.offset.toNat_lt
  have hlow : ref.toUInt64.toUInt16 = ref.offset := by
    apply UInt16.toNat_inj.mp
    rw [UInt64.toNat_toUInt16, hword]
    omega
  have hhigh : (ref.toUInt64 >>> 16).toUInt32 = ref.block := by
    apply UInt32.toNat_inj.mp
    rw [UInt64.toNat_toUInt32, UInt64.toNat_shiftRight, hword]
    simp only [UInt64.reduceToNat, Nat.reduceMod, Nat.shiftRight_eq_div_pow]
    omega
  rw [RecordRef.ofUInt64, hlow, hhigh]

namespace Decoder

variable {α β : Type} {holds : Bytes → β → Bytes → Prop}

/-- What holds of the bytes that a step succeeds on, of the value and of the bytes that are left. -/
def Yields (step : Decoder Bytes α) (holds : Bytes → α → Bytes → Prop) : Prop :=
  ∀ data value rest, step data = .ok (value, rest) → holds data value rest

theorem Yields.read {step : Decoder Bytes α} {encode : α → Bytes}
    (hstep : ∀ {data rest value}, step data = .ok (value, rest) ↔ data = encode value ++ rest)
    {next : α → Decoder Bytes β}
    (hnext : ∀ value, Yields (next value) fun data => holds (encode value ++ data)) :
    Yields (step >>= next) holds := by
  intro data value rest hrun
  obtain ⟨read, middle, hread, hvalue⟩ := bind_eq_ok.mp hrun
  rw [hstep.mp hread]
  exact hnext read middle value rest hvalue

theorem Yields.u16 {next : UInt16 → Decoder Bytes β}
    (hnext : ∀ word, Yields (next word) fun data => holds (word16 word ++ data)) :
    Yields (u16 >>= next) holds := .read u16_eq_ok hnext

theorem Yields.u32 {next : UInt32 → Decoder Bytes β}
    (hnext : ∀ word, Yields (next word) fun data => holds (word32 word ++ data)) :
    Yields (u32 >>= next) holds := .read u32_eq_ok hnext

theorem Yields.u64 {next : UInt64 → Decoder Bytes β}
    (hnext : ∀ word, Yields (next word) fun data => holds (word64 word ++ data)) :
    Yields (u64 >>= next) holds := .read u64_eq_ok hnext

theorem Yields.pure {value : β} (hvalue : ∀ data, holds data value data) :
    Yields (pure value) holds := by
  rintro data found rest ⟨⟩
  exact hvalue data

theorem yields_throw (error : Error) : Yields (throw error) holds := by
  rintro data found rest ⟨⟩

theorem Yields.refuse {condition : Prop} [Decidable condition] {error : Error}
    {next : Unit → Decoder Bytes β} (hnext : ¬condition → Yields (next ()) holds) :
    Yields (if condition then throw error >>= next else next ()) holds := by
  by_cases hcondition : condition
  · rw [if_pos hcondition]
    exact yields_throw error
  · rw [if_neg hcondition]
    exact hnext hcondition

end Decoder

namespace Superblock

structure IsChecked (superblock : Superblock) : Prop where
  blockSize : isBlockSize superblock.blockSize.toNat = true
  tables : superblock.tablesInOrder = true
  root : superblock.root.offset.toNat < metadataBlockSize

variable {superblock : Superblock}

theorem IsChecked.blockSize_pos (hchecked : superblock.IsChecked) :
    0 < superblock.blockSize.toNat := by
  have hblockSize := hchecked.blockSize
  simp only [isBlockSize, Bool.and_eq_true, decide_eq_true_eq] at hblockSize
  unfold minBlockSize at hblockSize
  omega

theorem tablesInOrder_iff : superblock.tablesInOrder = true ↔
    superblockSize ≤ superblock.inodeTableStart.toNat ∧
      superblock.inodeTableStart.toNat ≤ superblock.directoryTableStart.toNat ∧
      superblock.directoryTableStart.toNat ≤ superblock.bytesUsed.toNat ∧
      superblock.idTableStart.toNat ≤ superblock.bytesUsed.toNat := by
  simp only [tablesInOrder, Bool.and_eq_true, decide_eq_true_eq, UInt64.le_iff_toNat_le, and_assoc]

theorem IsChecked.inodes_le_directories (hchecked : superblock.IsChecked) :
    superblock.inodeTableStart.toNat ≤ superblock.directoryTableStart.toNat :=
  (tablesInOrder_iff.mp hchecked.tables).2.1

theorem IsChecked.directories_le_bytesUsed (hchecked : superblock.IsChecked) :
    superblock.directoryTableStart.toNat ≤ superblock.bytesUsed.toNat :=
  (tablesInOrder_iff.mp hchecked.tables).2.2.1

def opening (superblock : Superblock) : Bytes :=
  word32 magic ++ word32 superblock.inodeCount ++ word32 superblock.modificationTime
    ++ word32 superblock.blockSize ++ word32 superblock.fragmentCount
    ++ littleEndian 2 superblock.compression.id ++ word16 superblock.blockLog
    ++ word16 superblock.flags ++ word16 superblock.idCount
    ++ word16 versionMajor ++ word16 versionMinor

def closing (superblock : Superblock) : Bytes :=
  word64 superblock.bytesUsed ++ word64 superblock.idTableStart
    ++ word64 superblock.xattrTableStart ++ word64 superblock.inodeTableStart
    ++ word64 superblock.directoryTableStart ++ word64 superblock.fragmentTableStart
    ++ word64 superblock.exportTableStart

def bytesWith (superblock : Superblock) (root : UInt64) : Bytes :=
  superblock.opening ++ (word64 root ++ superblock.closing)

theorem toBytes_eq_bytesWith (superblock : Superblock) :
    superblock.toBytes = superblock.bytesWith superblock.root.toUInt64 := by
  unfold toBytes bytesWith opening closing
  simp only [List.append_assoc]

@[simp] theorem length_opening (superblock : Superblock) : superblock.opening.length = 32 := by
  unfold opening
  repeat rw [List.length_append]
  simp only [length_word16, length_word32, length_littleEndian]

@[simp] theorem length_bytesWith (superblock : Superblock) (root : UInt64) :
    (superblock.bytesWith root).length = superblockSize := by
  have hlength := superblock.length_toBytes
  rw [toBytes_eq_bytesWith] at hlength
  simpa [bytesWith] using hlength

theorem decode_reads (hchecked : superblock.IsChecked)
    (hlog : superblock.blockSize.toNat.log2 = superblock.blockLog.toNat) {root : UInt64}
    (hroot : RecordRef.ofUInt64 root = superblock.root) :
    Decoder.Reads Front.ofBytes decode (superblock.bytesWith root) superblock := by
  have hid : (UInt16.ofNat superblock.compression.id).toNat = superblock.compression.id := by
    cases superblock.compression
    all_goals decide
  unfold decode bytesWith opening closing
  simp only [List.append_assoc]
  refine (Decoder.reads_u32 _).bind ?_
  refine (Decoder.reads_u32 _).bind ?_
  refine (Decoder.reads_u32 _).bind ?_
  refine (Decoder.reads_u32 _).bind ?_
  refine (Decoder.reads_u32 _).bind ?_
  refine (Decoder.reads_u16_littleEndian _).bind ?_
  refine (Decoder.reads_u16 _).bind ?_
  refine (Decoder.reads_u16 _).bind ?_
  refine (Decoder.reads_u16 _).bind ?_
  refine (Decoder.reads_u16 _).bind ?_
  refine (Decoder.reads_u16 _).bind ?_
  refine (Decoder.reads_u64 _).bind ?_
  refine (Decoder.reads_u64 _).bind ?_
  refine (Decoder.reads_u64 _).bind ?_
  refine (Decoder.reads_u64 _).bind ?_
  refine (Decoder.reads_u64 _).bind ?_
  refine (Decoder.reads_u64 _).bind ?_
  refine (Decoder.reads_u64 _).bind ?_
  refine (Decoder.reads_u64 _).map ?_
  rw [if_neg (by simp), if_neg (by simp), hchecked.blockSize, if_neg (by simp),
    if_neg (by simp [hlog]), hid, Algorithm.ofId?_id, hroot]
  simp only
  rw [hchecked.tables, if_neg (by simp), if_neg (Nat.not_le_of_lt hchecked.root)]
  exact Decoder.Reads.pure superblock

/-- What is read as a superblock is its bytes, with any word that tells its root, and it passes the
checks. -/
theorem decode_yields :
    Decoder.Yields decode fun data superblock rest =>
      (∃ root, RecordRef.ofUInt64 root = superblock.root ∧
        data = superblock.bytesWith root ++ rest) ∧
      superblock.blockSize.toNat.log2 = superblock.blockLog.toNat ∧ superblock.IsChecked := by
  unfold decode
  refine .u32 fun foundMagic => ?_
  refine .u32 fun inodeCount => ?_
  refine .u32 fun modificationTime => ?_
  refine .u32 fun blockSize => ?_
  refine .u32 fun fragmentCount => ?_
  refine .u16 fun compressionId => ?_
  refine .u16 fun blockLog => ?_
  refine .u16 fun flags => ?_
  refine .u16 fun idCount => ?_
  refine .u16 fun major => ?_
  refine .u16 fun minor => ?_
  refine .u64 fun root => ?_
  refine .u64 fun bytesUsed => ?_
  refine .u64 fun idTableStart => ?_
  refine .u64 fun xattrTableStart => ?_
  refine .u64 fun inodeTableStart => ?_
  refine .u64 fun directoryTableStart => ?_
  refine .u64 fun fragmentTableStart => ?_
  refine .u64 fun exportTableStart => ?_
  refine .refuse fun hmagic => ?_
  refine .refuse fun hversion => ?_
  refine .refuse fun hblockSize => ?_
  refine .refuse fun hlog => ?_
  obtain ⟨hmajor, hminor⟩ := not_or.mp hversion
  split
  · exact Decoder.yields_throw _
  · rename_i compression hcompression
    refine .refuse fun htables => ?_
    refine .refuse fun hroot => ?_
    refine .pure fun rest => ⟨⟨root, rfl, ?_⟩, not_not.mp hlog, by simpa using hblockSize,
      by simpa using htables, Nat.lt_of_not_le hroot⟩
    rw [not_not.mp hmagic, not_not.mp hmajor, not_not.mp hminor,
      word16, Algorithm.ofId?_eq_some_iff.mp hcompression]
    simp only [bytesWith, opening, closing, List.append_assoc]

theorem parse_eq_ok {data : Bytes} :
    parse data = .ok superblock ↔
      (∃ root rest, RecordRef.ofUInt64 root = superblock.root ∧
        data = superblock.bytesWith root ++ rest) ∧
      superblock.blockSize.toNat.log2 = superblock.blockLog.toNat ∧ superblock.IsChecked := by
  unfold parse
  constructor
  · intro hparse
    split at hparse
    · cases hparse
    · rcases hdecode : decode.run data with error | ⟨found, rest⟩
      · rw [hdecode] at hparse
        cases hparse
      · rw [hdecode] at hparse
        cases hparse
        obtain ⟨⟨root, hroot, hdata⟩, hrest⟩ := decode_yields data found rest hdecode
        exact ⟨⟨root, rest, hroot, hdata⟩, hrest⟩
  · rintro ⟨⟨root, rest, hroot, rfl⟩, hlog, hchecked⟩
    have hdecode : decode.run (superblock.bytesWith root ++ rest) = .ok (superblock, rest) :=
      (decode_reads hchecked hlog hroot).eq_of_bytes rest
    rw [hdecode, if_neg (by simp)]
    rfl

theorem isChecked_of_parse {data : Bytes} (hparse : parse data = .ok superblock) :
    superblock.IsChecked := (parse_eq_ok.mp hparse).2.2

theorem parse_toBytes (hchecked : superblock.IsChecked)
    (hlog : superblock.blockSize.toNat.log2 = superblock.blockLog.toNat) :
    parse superblock.toBytes = .ok superblock := by
  refine parse_eq_ok.mpr ⟨⟨_, [], superblock.root.ofUInt64_toUInt64, ?_⟩, hlog, hchecked⟩
  rw [List.append_nil, toBytes_eq_bytesWith]

def usedOffset : Nat := 40

theorem bytesUsed_of_parse {data : Bytes} (hparse : parse data = .ok superblock) :
    superblock.bytesUsed.toNat = fromLittleEndian ((data.drop usedOffset).take 8) := by
  obtain ⟨⟨root, rest, -, rfl⟩, -⟩ := parse_eq_ok.mp hparse
  have hfield : ((superblock.bytesWith root ++ rest).drop usedOffset).take 8 =
      word64 superblock.bytesUsed := by
    simp [bytesWith, closing, usedOffset, List.drop_append, List.take_append]
  rw [hfield, word64, fromLittleEndian_littleEndian]
  exact (Nat.mod_eq_of_lt superblock.bytesUsed.toNat_lt).symm

end Superblock

namespace Decoder

variable {α β : Type} {count : Nat}

/-- Whether a step that has enough bytes to read fails only as it finds a fault in a header. -/
def RefusesHeader (count : Nat) (step : Decoder Bytes α) : Prop :=
  ∀ source : Bytes, count ≤ source.length → ∀ error, step source = .error error →
    ∃ fault, error = .invalidFormat fault

theorem refusesHeader_pure (value : α) : RefusesHeader count (pure value) := by
  rintro source hcount error ⟨⟩

theorem refusesHeader_throw (fault : HeaderFault) :
    RefusesHeader count (throw (.invalidFormat fault) : Decoder Bytes α) := by
  rintro source hcount error ⟨⟩
  exact ⟨fault, rfl⟩

theorem RefusesHeader.refuse {condition : Prop} [Decidable condition] {fault : HeaderFault}
    {next : Unit → Decoder Bytes α} (hnext : RefusesHeader count (next ())) :
    RefusesHeader count
      (if condition then throw (.invalidFormat fault) >>= next else next ()) := by
  split
  · exact refusesHeader_throw fault
  · exact hnext

/-- A word is there, and what comes after it has the bytes that are left. -/
theorem RefusesHeader.word {Word : Type} {ofNat : Nat → Word} {width : Nat}
    {next : Word → Decoder Bytes β} (hnext : ∀ word, RefusesHeader count (next word)) :
    RefusesHeader (count + width)
      ((do return ofNat (fromLittleEndian (← bytes width))) >>= next) := by
  intro source hcount error herror
  have hword : (do return ofNat (fromLittleEndian (← bytes width)) : Decoder Bytes Word) source =
      .ok (ofNat (fromLittleEndian (source.take width)), source.drop width) :=
    bind_eq_ok.mpr ⟨source.take width, source.drop width,
      bytes_eq_ok.mpr ⟨(List.take_append_drop width source).symm,
        List.length_take_of_le (Nat.le_of_add_left_le hcount)⟩, rfl⟩
  change (do return ofNat (fromLittleEndian (← bytes width)) : Decoder Bytes Word) source >>= _ =
    .error error at herror
  rw [hword] at herror
  refine hnext _ (source.drop width) ?_ error herror
  rw [List.length_drop]
  exact Nat.le_sub_of_add_le hcount

theorem RefusesHeader.u16 {next : UInt16 → Decoder Bytes β}
    (hnext : ∀ word, RefusesHeader count (next word)) :
    RefusesHeader (count + 2) (u16 >>= next) := .word hnext

theorem RefusesHeader.u32 {next : UInt32 → Decoder Bytes β}
    (hnext : ∀ word, RefusesHeader count (next word)) :
    RefusesHeader (count + 4) (u32 >>= next) := .word hnext

theorem RefusesHeader.u64 {next : UInt64 → Decoder Bytes β}
    (hnext : ∀ word, RefusesHeader count (next word)) :
    RefusesHeader (count + 8) (u64 >>= next) := .word hnext

end Decoder

namespace Superblock

theorem decode_refusesHeader : Decoder.RefusesHeader superblockSize decode := by
  unfold superblockSize decode
  refine .u32 fun _ => ?_
  refine .u32 fun _ => ?_
  refine .u32 fun _ => ?_
  refine .u32 fun _ => ?_
  refine .u32 fun _ => ?_
  refine .u16 fun _ => ?_
  refine .u16 fun _ => ?_
  refine .u16 fun _ => ?_
  refine .u16 fun _ => ?_
  refine .u16 fun _ => ?_
  refine .u16 fun _ => ?_
  refine .u64 fun _ => ?_
  refine .u64 fun _ => ?_
  refine .u64 fun _ => ?_
  refine .u64 fun _ => ?_
  refine .u64 fun _ => ?_
  refine .u64 fun _ => ?_
  refine .u64 fun _ => ?_
  refine .u64 fun _ => ?_
  refine .refuse ?_
  refine .refuse ?_
  refine .refuse ?_
  refine .refuse ?_
  split
  · exact Decoder.refusesHeader_throw _
  · refine .refuse ?_
    refine .refuse ?_
    exact Decoder.refusesHeader_pure _

theorem invalidFormat_of_parse {data : Bytes} {error : Error} (hparse : parse data = .error error) :
    ∃ fault, error = .invalidFormat fault := by
  unfold parse at hparse
  split at hparse
  · cases hparse
    exact ⟨_, rfl⟩
  · rename_i hlength
    cases hdecode : decode.run data with
    | error found =>
        rw [hdecode] at hparse
        cases hparse
        exact decode_refusesHeader data (Nat.le_of_not_lt hlength) error hdecode
    | ok result =>
        rw [hdecode] at hparse
        cases hparse

end Superblock

end TreeImage.Format
