import TreeImage.Image.Basic
import TreeImage.Proofs.Build.Script
import TreeImage.Proofs.Format.Superblock
import TreeImage.Proofs.Image.Opening

namespace TreeImage

open Build Format Table

theorem Region.Stores.end_le {region : Region} {offset : Nat} {bytes : Bytes}
    (hstores : region.Stores offset bytes) (hne : bytes ≠ []) :
    region.start + offset + bytes.length ≤ region.storage.size := by
  have hpositive := List.length_pos_iff.mpr hne
  have hlength := hstores.isPrefix.length_le
  rw [List.length_drop] at hlength
  unfold Storage.size
  rw [← Array.length_toList]
  omega

namespace Build

variable {codec : Codec} {blockSize time : UInt32} {plan : Plan} {tables : Tables}
  {layout : Layout} {region : Region}

/-- Whether finished tables fit the words of a superblock. -/
structure Tables.Fit (plan : Plan) (tables : Tables) : Prop where
  nodes_lt : plan.numbering.order.length < 2 ^ 32 - 1
  nodes_ne : plan.numbering.order ≠ []
  fragments_le : plan.contents.area.fragments.size ≤ plan.numbering.order.length
  ids_le : tables.ids.values.size ≤ IdTable.maxSize
  ids_ne : tables.ids.values.toList ≠ []
  root_lt : (Tables.ref tables.refs Staging.root).offset.toNat < metadataBlockSize

theorem ids_encode_ne_nil (hfit : tables.Fit plan) : tables.ids.encode ≠ [] := by
  obtain ⟨id, ids, hvalues⟩ := List.exists_cons_of_ne_nil hfit.ids_ne
  intro hnil
  rw [IdTable.encode, hvalues, List.flatMap_cons] at hnil
  have hlength := congrArg List.length (List.append_eq_nil_iff.mp hnil).1
  rw [length_word32] at hlength
  cases hlength

theorem IsWritten.stop_le (hwritten : IsWritten codec blockSize time plan tables layout region)
    (hmade : layout.IsMadeOf codec plan tables) (hfit : tables.Fit plan) :
    region.start + layout.ids.stop < addressSpace ∧
      region.start + layout.ids.stop ≤ region.storage.size ∧
      layout.ids.indexStart + 8 ≤
        layout.ids.stop := by
  have hindex : 8 ≤ layout.ids.index.length := by
    rw [hmade.ids_eq]
    exact Lookup.length_index_pos (ids_encode_ne_nil hfit)
  have hids := hwritten.stored.ids
  have hne : layout.ids.stored ≠ [] := by
    intro hnil
    rw [(List.append_eq_nil_iff.mp hnil).2] at hindex
    cases hindex
  have hlt := hids.end_lt hne
  have hle := hids.end_le hne
  rw [Nat.add_assoc, ← Lookup.stop_eq] at hlt hle
  exact ⟨hlt, hle, Nat.add_le_add_left hindex _⟩

theorem length_encode_fragment (entry : FragmentEntry) :
    entry.encode.length = fragmentEntrySize := by
  simp [FragmentEntry.encode, fragmentEntrySize]

theorem toNat_ofNat_of_lt {position : Nat} (hlt : position < addressSpace) :
    (UInt64.ofNat position).toNat = position := by
  rw [UInt64.toNat_ofNat']
  exact Nat.mod_eq_of_lt hlt

theorem toNat_log2 (hpositive : 0 < blockSize.toNat) :
    (UInt16.ofNat blockSize.toNat.log2).toNat = blockSize.toNat.log2 := by
  have hlt := (Nat.log2_lt (Nat.ne_of_gt hpositive)).mpr blockSize.toNat_lt
  rw [UInt16.toNat_ofNat']
  omega

/-- The positions in the superblock of an image that was written. -/
structure Located (region : Region) (superblock : Superblock) (layout : Layout) : Prop where
  chained : layout.IsChained
  inodeTableStart : superblock.inodeTableStart.toNat = layout.inodeTableStart
  directoryTableStart : superblock.directoryTableStart.toNat = layout.directoryTableStart
  fragmentTableStart : superblock.fragmentTableStart.toNat = layout.fragments.indexStart
  exportTableStart : ∀ exports, layout.exports = some exports →
    superblock.exportTableStart.toNat = exports.indexStart ∧ exports.indexStart + 1 < addressSpace
  noExports : layout.exports = none → superblock.exportTableStart = noTable
  idTableStart : superblock.idTableStart.toNat = layout.ids.indexStart
  bytesUsed : superblock.bytesUsed.toNat = layout.ids.stop
  stop_lt : region.start + layout.ids.stop < addressSpace
  stop_le : region.start + layout.ids.stop ≤ region.storage.size

theorem superblock_positions (codec : Codec) (blockSize time : UInt32) (plan : Plan)
    (tables : Tables) (hchained : layout.IsChained)
    (hlt : layout.bytesUsed < addressSpace) :
    let superblock := Build.superblock codec blockSize time plan tables layout
    superblock.inodeTableStart.toNat = layout.inodeTableStart ∧
      superblock.directoryTableStart.toNat = layout.directoryTableStart ∧
      superblock.fragmentTableStart.toNat = layout.fragments.indexStart ∧
      (∀ exports, layout.exports = some exports →
        superblock.exportTableStart.toNat = exports.indexStart) ∧
      (layout.exports = none → superblock.exportTableStart = noTable) ∧
      superblock.idTableStart.toNat = layout.ids.indexStart ∧
      superblock.bytesUsed.toNat = layout.bytesUsed := by
  obtain ⟨hfragments, hfragmentsStop, hfragmentsIds, hids, hstop, hexports⟩ := hchained.le
  have hdirectories := hchained.fragments_start
  have hinodes : layout.inodeTableStart ≤ layout.directoryTableStart := Nat.le_add_right _ _
  have hused : layout.bytesUsed = layout.ids.stop := rfl
  refine ⟨toNat_ofNat_of_lt (by omega), toNat_ofNat_of_lt (by omega),
    toNat_ofNat_of_lt (by omega), ?_, ?_, toNat_ofNat_of_lt (by omega), toNat_ofNat_of_lt hlt⟩
  · intro exports hsome
    have hbefore := hexports exports hsome
    unfold Build.superblock
    rw [hsome]
    exact toNat_ofNat_of_lt (by omega)
  · intro hnone
    unfold Build.superblock
    rw [hnone]

theorem IsWritten.located (hwritten : IsWritten codec blockSize time plan tables layout region)
    (hmade : layout.IsMadeOf codec plan tables) (hfit : tables.Fit plan) :
    Located region (Build.superblock codec blockSize time plan tables layout) layout := by
  obtain ⟨hlt, hle, hindex⟩ := hwritten.stop_le hmade hfit
  have hchained := hmade.isChained
  obtain ⟨-, -, -, hids, hstop, hexportsLe⟩ := hchained.le
  obtain ⟨hinodes, hdirectories, hfragments, hexports, hnone, hidStart, hused⟩ :=
    superblock_positions codec blockSize time plan tables hchained
      (show layout.ids.stop < addressSpace by omega)
  refine ⟨hchained, hinodes, hdirectories, hfragments, ?_, hnone, hidStart, hused, hlt, hle⟩
  intro exports hsome
  have hbefore := hexportsLe exports hsome
  exact ⟨hexports exports hsome, by omega⟩

theorem toNat_inodeCount (codec : Codec) (blockSize time : UInt32) (hfit : tables.Fit plan)
    (layout : Layout) :
    (Build.superblock codec blockSize time plan tables layout).inodeCount.toNat =
      plan.numbering.order.length := by
  change (UInt32.ofNat plan.numbering.order.length).toNat = _
  rw [UInt32.toNat_ofNat']
  exact Nat.mod_eq_of_lt (Nat.lt_of_lt_of_le hfit.nodes_lt (by decide))

theorem Located.hasExport (hfit : tables.Fit plan)
    (hlocated : Located region (Build.superblock codec blockSize time plan tables layout) layout)
    {exports : Lookup} (hexports : layout.exports = some exports) :
    ((Build.superblock codec blockSize time plan tables layout).hasExport &&
      (Build.superblock codec blockSize time plan tables layout).inodeCount != 0) = true := by
  obtain ⟨hstart, hbefore⟩ := hlocated.exportTableStart exports hexports
  rw [Bool.and_eq_true, Superblock.hasExport, bne_iff_ne, bne_iff_ne]
  constructor
  · intro hnone
    rw [hnone] at hstart
    change 2 ^ 64 - 1 = exports.indexStart at hstart
    unfold addressSpace at hbefore
    omega
  · intro hzero
    have hcount := toNat_inodeCount codec blockSize time hfit layout
    rw [hzero] at hcount
    exact hfit.nodes_ne (List.length_eq_zero_iff.mp hcount.symm)

theorem IsWritten.isChecked (hwritten : IsWritten codec blockSize time plan tables layout region)
    (hmade : layout.IsMadeOf codec plan tables) (hfit : tables.Fit plan)
    (hblockSize : isBlockSize blockSize.toNat = true)
    (hdata : superblockSize ≤ plan.contents.area.position) :
    (Build.superblock codec blockSize time plan tables layout).IsChecked := by
  obtain ⟨hchained, hinodeStart, hdirectoryStart, -, -, -, hidStart, hused, -, -⟩ :=
    hwritten.located hmade hfit
  refine ⟨hblockSize, ?_, hfit.root_lt⟩
  have hstart : superblockSize ≤ layout.inodeTableStart := by
    rw [hmade.start_eq]
    exact hdata
  obtain ⟨hfragments, hfragmentsStop, hfragmentsIds, hids, hstop, -⟩ := hchained.le
  have hdirectories := hchained.fragments_start
  have hinodes : layout.inodeTableStart ≤ layout.directoryTableStart := Nat.le_add_right _ _
  simp only [Superblock.tablesInOrder, Bool.and_eq_true, decide_eq_true_eq,
    UInt64.le_iff_toNat_le, hinodeStart, hdirectoryStart, hidStart, hused]
  omega

end Build

namespace Image

variable {region : Region} {codec : Codec} {superblock : Superblock}

theorem readSuperblock_of_stores (hopen : region.IsOpen)
    (hstores : region.Stores 0 superblock.toBytes) (hchecked : superblock.IsChecked)
    (hlog : superblock.blockSize.toNat.log2 = superblock.blockLog.toNat)
    (hused : region.start + superblock.bytesUsed.toNat ≤ region.storage.size) :
    readSuperblock region = .ok superblock := by
  have hne : superblock.toBytes ≠ [] := by
    intro hnil
    have hlength := superblock.length_toBytes
    rw [hnil] at hlength
    cases hlength
  have hend := hstores.end_le hne
  have hread := hstores.read hopen
  rw [Superblock.length_toBytes] at hend hread
  have hsize : region.size = region.storage.size - region.start := by
    rw [Region.size, hopen.declared]
    rfl
  unfold readSuperblock
  refine Except.refuse_eq_ok.mpr ⟨by omega, ?_⟩
  rw [hread, Except.ok_bind, Superblock.parse_toBytes hchecked hlog, Except.ok_bind]
  exact Except.refuse_eq_ok.mpr ⟨by omega, rfl⟩

theorem load_of_stores {α : Type} {values : List α} {encode : α → Bytes} {compress : Bool}
    {lookup : Lookup} {start entrySize : Nat} {tableStart : UInt64} (hcodec : codec.IsFaithful)
    (hopen : region.IsOpen)
    (hlookup : lookup = Lookup.holding codec compress start (values.flatMap encode))
    (hstores : region.Stores lookup.start lookup.stored) (hsize : entrySize ≠ 0)
    (hencode : ∀ value, (encode value).length = entrySize)
    (hfits : values.length * entrySize < addressSpace)
    (htable : tableStart.toNat = lookup.indexStart)
    (hlimit : lookup.stop ≤ superblock.bytesUsed.toNat) :
    ∃ floor, load region codec superblock tableStart values.length entrySize =
      .ok ⟨values.map encode, floor⟩ ∧
        ∀ position, floor = some position → position = lookup.start := by
  subst hlookup
  change region.Stores start _ at hstores
  have hindex := Lookup.readIndex_of_stores hopen.toMoves (hopen.check_eq_ok ..) hstores
    (length_flatMap_of_length hencode values) hfits hlimit
  have hentries := Lookup.readEntries_of_stores (fun _ => hcodec) hopen hstores
    (length_flatMap_of_length hencode values) hfits
  rw [blocksOf_flatMap hsize hencode] at hentries
  refine ⟨((Lookup.holding codec compress start
    (values.flatMap encode)).placed.map Prod.fst).head?, ?_, fun _ => Lookup.head?_placed⟩
  rw [load, htable, hindex, Except.ok_bind, hentries]
  rfl

/-- The entries of the export table of a plan, which has one if the options ask for it. -/
def exportEntries (plan : Plan) (tables : Tables) : Option (List Bytes) :=
  if plan.options.exportTable then
    some (plan.numbering.order.map fun id => word64 (Tables.ref tables.refs id).toUInt64)
  else none

section Load

variable {blockSize time : UInt32} {plan : Plan} {tables : Tables} {layout : Layout}
  (hwritten : IsWritten codec blockSize time plan tables layout region)
  (hmade : layout.IsMadeOf codec plan tables) (hfit : tables.Fit plan) (hopen : region.IsOpen)
  (hcodec : codec.IsFaithful)
include hwritten hmade hfit hopen hcodec

theorem loadIds_of_isWritten :
    ∃ floor, loadIds region codec
          (Build.superblock codec blockSize time plan tables layout) =
        .ok ⟨tables.ids.values.toList.map word32, floor⟩ ∧
      ∀ position, floor = some position → position = layout.ids.start := by
  have hlocated := hwritten.located hmade hfit
  have hstored := hwritten.stored.ids
  have hsize : tables.ids.values.toList.length ≤ 65535 := hfit.ids_le
  have hpositive := List.length_pos_iff.mpr hfit.ids_ne
  have hcount : (UInt16.ofNat tables.ids.values.size).toNat = tables.ids.values.toList.length :=
    IdTable.toNat_ofNat_of_le hfit.ids_le
  obtain ⟨floor, hload, hfloor⟩ := load_of_stores hcodec hopen hmade.ids_eq hstored
    (show idEntrySize ≠ 0 by decide) length_word32 (by unfold idEntrySize addressSpace; omega)
    hlocated.idTableStart (Nat.le_of_eq hlocated.bytesUsed.symm)
  refine ⟨floor, ?_, hfloor⟩
  rw [loadIds, if_neg]
  · rw [← hload]
    exact congrArg (fun count => load region codec _ _ count idEntrySize) hcount
  · intro hzero
    have hnone := congrArg UInt16.toNat hzero
    change (UInt16.ofNat tables.ids.values.size).toNat = 0 at hnone
    omega

theorem loadFragments_of_isWritten :
    ∃ floor, loadFragments region codec
          (Build.superblock codec blockSize time plan tables layout) =
        .ok ⟨plan.contents.area.fragments.toList.map FragmentEntry.encode, floor⟩ ∧
      ∀ position, floor = some position → position = layout.fragments.start := by
  have hlocated := hwritten.located hmade hfit
  have hstored := hwritten.stored.fragments
  have hsize := Nat.lt_of_le_of_lt hfit.fragments_le hfit.nodes_lt
  have hcount : (UInt32.ofNat plan.contents.area.fragments.size).toNat =
      plan.contents.area.fragments.toList.length := by
    rw [UInt32.toNat_ofNat', Array.length_toList]
    exact Nat.mod_eq_of_lt (by omega)
  rw [← Array.length_toList] at hsize
  obtain ⟨-, hstop, hids, hidsLe, hidsStop, -⟩ := hlocated.chained.le
  have hlimit : layout.fragments.stop ≤
      (Build.superblock codec blockSize time plan tables
        layout).bytesUsed.toNat := by
    rw [hlocated.bytesUsed]
    omega
  rw [loadFragments]
  by_cases hzero : (Build.superblock codec blockSize time plan tables
      layout).fragmentCount = 0
  · have hnone := congrArg UInt32.toNat hzero
    change (UInt32.ofNat plan.contents.area.fragments.size).toNat = 0 at hnone
    rw [hcount, List.length_eq_zero_iff] at hnone
    rw [if_pos hzero, hnone]
    exact ⟨none, rfl, fun position hposition => nomatch hposition⟩
  · obtain ⟨floor, hload, hfloor⟩ := load_of_stores hcodec hopen hmade.fragments_eq hstored
      (show fragmentEntrySize ≠ 0 by decide) length_encode_fragment
      (by unfold fragmentEntrySize addressSpace; omega) hlocated.fragmentTableStart hlimit
    refine ⟨floor, ?_, hfloor⟩
    rw [if_neg hzero, ← hload]
    exact congrArg (fun count => load region codec _ _ count fragmentEntrySize) hcount

theorem loadExports_of_isWritten :
    ∃ exports, loadExports region codec
        (Build.superblock codec blockSize time plan tables layout) =
      .ok exports ∧ exports.map Loaded.entries = exportEntries plan tables ∧
        ∀ position, exports.bind Loaded.floor = some position →
          layout.fragments.stop ≤ position := by
  have hlocated := hwritten.located hmade hfit
  have hnodes := hfit.nodes_lt
  rw [loadExports]
  cases hexports : layout.exports with
  | none =>
      have hoption : ¬plan.options.exportTable = true := by
        intro hoption
        have hsome := hmade.exports_eq
        rw [hexports, if_pos hoption] at hsome
        cases hsome
      refine ⟨none, ?_, by rw [exportEntries, if_neg hoption]; rfl, fun position hposition =>
        nomatch hposition⟩
      rw [if_neg]
      simp [Superblock.hasExport, hlocated.noExports hexports]
  | some exports =>
      obtain ⟨hstart, hbefore⟩ := hlocated.exportTableStart exports hexports
      obtain ⟨-, -, -, hidsLe, hidsStop, hchain⟩ := hlocated.chained.le
      obtain ⟨hstartEq, -, hindexStop, hexportsStop⟩ := hchain exports hexports
      have hstored := hwritten.stored.exports exports hexports
      obtain ⟨hoption, hentries⟩ := hmade.of_exports hexports
      have hlimit : exports.stop ≤ (Build.superblock codec blockSize time plan tables
          layout).bytesUsed.toNat := by
        rw [hlocated.bytesUsed]
        omega
      have hcount := toNat_inodeCount codec blockSize time hfit layout
      obtain ⟨floor, hload, hfloor⟩ := load_of_stores hcodec hopen hentries hstored
        (show exportEntrySize ≠ 0 by decide) (fun id => length_word64 _)
        (by unfold exportEntrySize addressSpace; omega) hstart hlimit
      refine ⟨some ⟨plan.numbering.order.map fun id =>
        word64 (Tables.ref tables.refs id).toUInt64, floor⟩, ?_,
        by rw [exportEntries, if_pos hoption]; rfl, ?_⟩
      · rw [if_pos (hlocated.hasExport hfit hexports)]
        refine congrArg (Except.map some) (Eq.trans ?_ hload)
        exact congrArg (fun count => load region codec _ _ count exportEntrySize) hcount
      · intro position hposition
        rw [hfloor position hposition, ← hstartEq]

end Load

/-- Whether an opened image holds the tables and the data that were written, with the streams of
the inodes and of the listings. -/
structure Carries (image : Image) (codec : Codec) (blockSize : UInt32) (plan : Plan)
    (tables : Tables) (inodes listings : Bytes) : Prop where
  codec_eq : image.codec = codec
  faithful : codec.IsFaithful
  blockSize_eq : image.superblock.blockSize = blockSize
  root_eq : image.superblock.root = Tables.ref tables.refs Staging.root
  ids_eq : image.ids = tables.ids.values
  fragments_eq : image.fragments = plan.contents.area.fragments
  count_eq : image.superblock.inodeCount.toNat = plan.numbering.order.length
  exports_eq : plan.options.exportTable = true →
    image.exports = some (plan.numbering.order.map (Tables.ref tables.refs)).toArray
  isOpen : image.region.IsOpen
  inodes : image.inodeTable.StoresFrom (!plan.options.rawInodes) 0 inodes
  listings : image.directoryTable.StoresFrom (!plan.options.rawInodes) 0 listings
  data : image.region.Stores superblockSize plan.contents.area.bytes
  data_end : image.superblock.inodeTableStart.toNat =
    superblockSize + plan.contents.area.bytes.length

theorem decode_encode_fragment (entry : FragmentEntry) :
    FragmentEntry.decode entry.encode = entry := by
  obtain ⟨start, size⟩ := entry
  have hstart : start.toNat < 256 ^ 8 := Nat.lt_of_lt_of_eq start.toNat_lt (by decide)
  have hsize : size.toNat < 256 ^ 4 := Nat.lt_of_lt_of_eq size.toNat_lt (by decide)
  unfold FragmentEntry.encode FragmentEntry.decode
  rw [List.append_assoc, List.take_left' (length_word64 _), List.drop_left' (length_word64 _),
    List.take_left' (length_word32 _), word64, word32, fromLittleEndian_littleEndian,
    fromLittleEndian_littleEndian, Nat.mod_eq_of_lt hstart, Nat.mod_eq_of_lt hsize]
  simp

theorem ofNat_fromLittleEndian_word32 (word : UInt32) :
    UInt32.ofNat (fromLittleEndian (word32 word)) = word := by
  have hword : word.toNat < 256 ^ 4 := Nat.lt_of_lt_of_eq word.toNat_lt (by decide)
  rw [word32, fromLittleEndian_littleEndian, Nat.mod_eq_of_lt hword]
  simp

theorem decodeRef_word64 (ref : RecordRef) : decodeRef (word64 ref.toUInt64) = ref := by
  have hword : ref.toUInt64.toNat < 256 ^ 8 := Nat.lt_of_lt_of_eq ref.toUInt64.toNat_lt (by decide)
  rw [decodeRef, word64, fromLittleEndian_littleEndian, Nat.mod_eq_of_lt hword, UInt64.ofNat_toNat,
    RecordRef.ofUInt64_toUInt64]

theorem toArray_map_map {α β : Type} (encode : α → β) (decode : β → α)
    (hdecode : ∀ value, decode (encode value) = value) (values : Array α) :
    ((values.toList.map encode).map decode).toArray = values := by
  have hid : decode ∘ encode = id := funext hdecode
  rw [List.map_map, hid, List.map_id]

section Opened

variable {codecs : Codecs} {blockSize time : UInt32} {plan : Plan} {tables : Tables}
  {layout : Layout} (hwritten : IsWritten codec blockSize time plan tables layout region)
  (hmade : layout.IsMadeOf codec plan tables) (hfit : tables.Fit plan) (hopen : region.IsOpen)
  (hcodec : codec.IsFaithful) (halgorithm : codec.algorithm.codec codecs = .ok codec)
  (hblockSize : isBlockSize blockSize.toNat = true)
include hwritten hmade hfit hopen hcodec halgorithm hblockSize

theorem exists_opens_of_isWritten (hdata : superblockSize ≤ plan.contents.area.position) :
    ∃ idsFloor fragmentsFloor exports, Opens codecs region codec
      (Build.superblock codec blockSize time plan tables layout)
      ⟨tables.ids.values.toList.map word32, idsFloor⟩
      ⟨plan.contents.area.fragments.toList.map FragmentEntry.encode, fragmentsFloor⟩ exports
      (layout.directoryTableStart + layout.directoryTable.length) ∧
      exports.map Loaded.entries = exportEntries plan tables := by
  have hlocated := hwritten.located hmade hfit
  have hchecked := hwritten.isChecked hmade hfit hblockSize hdata
  obtain ⟨idsFloor, hids, hidsFloor⟩ := loadIds_of_isWritten hwritten hmade hfit hopen hcodec
  obtain ⟨fragmentsFloor, hfragments, hfragmentsFloor⟩ :=
    loadFragments_of_isWritten hwritten hmade hfit hopen hcodec
  obtain ⟨exports, hexports, hentries, hexportsFloor⟩ :=
    loadExports_of_isWritten hwritten hmade hfit hopen hcodec
  have hlog := toNat_log2 hchecked.blockSize_pos
  have hsuperblock := readSuperblock_of_stores hopen hwritten.superblock hchecked hlog.symm
    (by rw [hlocated.bytesUsed]; exact hlocated.stop_le)
  refine ⟨idsFloor, fragmentsFloor, exports, ⟨hsuperblock, halgorithm, hids, hfragments, hexports,
    ?_⟩, hentries⟩
  obtain ⟨hfragmentsLe, hfragmentsStop, hfragmentsIds, -, -, -⟩ := hlocated.chained.le
  have hdirectoryEnd := hlocated.chained.fragments_start
  intro floor hmem
  simp only [List.mem_filterMap, id_eq, exists_eq_right, List.mem_cons, List.not_mem_nil,
    or_false] at hmem
  rcases hmem with hmem | hmem | hmem
  · rw [hidsFloor floor hmem.symm]
    omega
  · rw [hfragmentsFloor floor hmem.symm]
    omega
  · have hle := hexportsFloor floor hmem.symm
    omega

/-- A written image is opened, and what is loaded is what was written. -/
theorem exists_carries_of_isWritten {storing : Storing} {inodes listings : Bytes}
    (hdata : DataArea.Consistent storing plan.contents.area)
    (hinodes : tables.inodes.Wrote codec (!plan.options.rawInodes) inodes)
    (hlistings : tables.directories.Wrote codec (!plan.options.rawInodes) listings) :
    ∃ image, ofRegion codecs region = .ok image ∧
      image.Carries codec blockSize plan tables inodes listings := by
  have hstart := hdata.position_eq
  obtain ⟨idsFloor, fragmentsFloor, exports, hopens, hentries⟩ := exists_opens_of_isWritten
    hwritten hmade hfit hopen hcodec halgorithm hblockSize (hstart ▸ Nat.le_add_right _ _)
  have hlocated := hwritten.located hmade hfit
  have hlayout := hwritten.stored
  have hinodeTable := hinodes.eq_of_finish hmade.inodes
  have hdirectoryTable := hlistings.eq_of_finish hmade.directories
  have hinodeEnd : layout.inodeTableStart +
      layout.inodeTable.length =
        layout.directoryTableStart := rfl
  have hdirectoryEnd := hlocated.chained.fragments_start
  rw [← hlocated.directoryTableStart] at hopens
  refine ⟨_, hopens.ofRegion (Nat.le_add_right _ _), rfl, hcodec, rfl, rfl, ?_, ?_,
    toNat_inodeCount codec blockSize time hfit _, ?_, hopen,
    ⟨hopen, fun _ => hcodec, ?_, ?_, UInt64.toNat_lt _⟩,
    ⟨hopen, fun _ => hcodec, ?_, ?_,
      Nat.lt_of_le_of_lt (foldl_min_le _ _) (UInt64.toNat_lt _)⟩,
    hwritten.data, hlocated.inodeTableStart.trans (hmade.start_eq.trans hstart)⟩
  · exact toArray_map_map word32 (fun entry => UInt32.ofNat (fromLittleEndian entry))
      ofNat_fromLittleEndian_word32 tables.ids.values
  · exact toArray_map_map FragmentEntry.encode FragmentEntry.decode decode_encode_fragment
      plan.contents.area.fragments
  · intro hoption
    rw [exportEntries, if_pos hoption, Option.map_eq_some_iff] at hentries
    obtain ⟨loaded, rfl, hloaded⟩ := hentries
    change some (loaded.entries.map decodeRef).toArray = _
    rw [hloaded, List.map_map]
    refine congrArg (fun refs => some (List.toArray refs)) (List.map_congr_left fun id _ => ?_)
    exact decodeRef_word64 (Tables.ref tables.refs id)
  · dsimp only [inodeTable, assemble]
    rw [Nat.add_zero, hlocated.inodeTableStart, ← hinodeTable]
    exact hlayout.inodes
  · dsimp only [inodeTable, assemble]
    rw [Nat.add_zero, hlocated.inodeTableStart, hlocated.directoryTableStart, ← hinodeTable]
    exact Nat.le_of_eq hinodeEnd
  · dsimp only [directoryTable, assemble]
    rw [Nat.add_zero, hlocated.directoryTableStart, ← hdirectoryTable]
    exact hlayout.directories
  · dsimp only [directoryTable, assemble]
    rw [Nat.add_zero, ← hdirectoryTable]
    refine le_foldl_min ?_ hopens.stop_le
    rw [hlocated.directoryTableStart, hlocated.bytesUsed]
    obtain ⟨hfragmentsLe, hfragmentsStop, hfragmentsIds, hidsLe, hidsStop, -⟩ :=
      hlocated.chained.le
    omega

end Opened

end Image

end TreeImage
