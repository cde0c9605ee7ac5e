import TreeImage.Proofs.Build.Script
import TreeImage.Proofs.Image.Written
import TreeImage.Proofs.Storage.Stream

namespace TreeImage.Build

open Format Table Staging

/-- The bytes of an image with their addresses, in the order in which they are put down: the
superblock comes last. -/
def publishing (start : Nat) (image : Bytes) : List (Nat × UInt8) :=
  addressed (start + superblockSize) (image.drop superblockSize) ++
    addressed start (image.take superblockSize)

section Publishing

variable (start : Nat) (image : Bytes)

theorem length_publishing : (publishing start image).length = image.length := by
  rw [publishing, List.length_append, length_addressed, length_addressed, List.length_drop,
    List.length_take]
  omega

theorem count_publishing (address : Nat) :
    ((publishing start image).map Prod.fst).count address =
      if start ≤ address ∧ address < start + image.length then 1 else 0 := by
  have hcount : ∀ first length : Nat, (List.range' first length).count address =
      if first ≤ address ∧ address < first + length then 1 else 0 := by
    intro first length
    simp only [List.Nodup.count (List.nodup_range' ..), List.mem_range'_1]
  rw [publishing, List.map_append, map_fst_addressed, map_fst_addressed, List.count_append, hcount,
    hcount, List.length_drop, List.length_take]
  repeat' split
  all_goals omega

theorem putAll_publishing (buffer : Buffer) {image : Bytes} (hne : image ≠ []) :
    buffer.putAll (publishing start image) = buffer.overwrite start image := by
  have hheader : image.take superblockSize ≠ [] := by
    intro hnil
    rcases List.take_eq_nil_iff.mp hnil with hzero | hempty
    · cases hzero
    · exact hne hempty
  rw [publishing, Buffer.putAll_append, Buffer.putAll_addressed _ start hheader]
  by_cases hbody : image.drop superblockSize = []
  · rw [hbody, List.take_of_length_le (List.drop_eq_nil_iff.mp hbody)]
    rfl
  · have hlength : (image.take superblockSize).length = superblockSize := by
      have hpositive := List.length_pos_iff.mpr hbody
      rw [List.length_drop] at hpositive
      exact List.length_take_of_le (by omega)
    have hbefore := Buffer.overwrite_before buffer start (image.take superblockSize)
      (image.drop superblockSize)
    rw [hlength, List.take_append_drop] at hbefore
    rw [Buffer.putAll_addressed _ _ hbody, hbefore]

variable {start} {image}

theorem mem_publishing {put : Nat × UInt8} (hmem : put ∈ publishing start image) :
    start ≤ put.1 ∧ put.1 < start + image.length := by
  rcases List.mem_append.mp hmem with hmem | hmem
  · have hput := mem_addressed hmem
    rw [List.length_drop] at hput
    omega
  · have hput := mem_addressed hmem
    rw [List.length_take] at hput
    omega

/-- Whatever part of an image is put down, either what was there before is still in the place of the
superblock, or all the rest of the image is in place. -/
theorem header_or_rest (buffer : Buffer) (count : Nat) :
    (∀ i, start ≤ i → i < start + superblockSize → i < buffer.size →
      (buffer.putAll ((publishing start image).take count)).toList[i]? = buffer.toList[i]?) ∨
    ∀ i, superblockSize ≤ i → i < image.length →
      (buffer.putAll ((publishing start image).take count)).toList[start + i]? = image[i]? := by
  unfold publishing
  generalize hrest : addressed (start + superblockSize) (image.drop superblockSize) = rest
  by_cases hcount : count ≤ rest.length
  · left
    intro i hstart hheader hheld
    rw [List.take_append_of_le_length hcount]
    refine Buffer.getElem?_putAll hheld fun hmem => ?_
    obtain ⟨put, hput, rfl⟩ := List.mem_map.mp hmem
    have hafter := mem_addressed (hrest ▸ List.mem_of_mem_take hput)
    omega
  · right
    intro i hafter hi
    obtain ⟨more, rfl⟩ := Nat.exists_eq_add_of_le (Nat.le_of_not_le hcount)
    have hne : image.drop superblockSize ≠ [] := by
      rw [← List.length_pos_iff, List.length_drop]
      omega
    have hplaced : (buffer.putAll rest).toList[start + i]? = image[i]? := by
      rw [← hrest, Buffer.putAll_addressed _ _ hne, Buffer.getElem?_overwrite_eq,
        if_neg (by omega), if_pos (by rw [List.length_drop]; omega), List.getElem?_drop]
      congr 1
      omega
    have hheld : start + i < (buffer.putAll rest).size := by
      rw [← Array.length_toList]
      exact (List.getElem?_eq_some_iff.mp (hplaced.trans (List.getElem?_eq_getElem hi))).1
    rw [List.take_length_add_append, Buffer.putAll_append, ← hplaced]
    refine Buffer.getElem?_putAll hheld fun hmem => ?_
    obtain ⟨put, hput, hput'⟩ := List.mem_map.mp hmem
    have hheader := mem_addressed (List.mem_of_mem_take hput)
    rw [List.length_take] at hheader
    omega

end Publishing

/-- The parts of an image: the superblock, the stored blocks of files, and the tables. -/
structure Parts where
  header : Superblock
  data : Bytes
  layout : Layout

namespace Parts

def body (parts : Parts) : Bytes := parts.data ++ parts.layout.bytes

def bytes (parts : Parts) : Bytes := parts.header.toBytes ++ parts.body

@[simp] theorem length_bytes (parts : Parts) :
    parts.bytes.length = superblockSize + parts.body.length := by
  rw [bytes, List.length_append, Superblock.length_toBytes]

theorem publishing_bytes (start : Nat) (parts : Parts) :
    publishing start parts.bytes =
      addressed (start + superblockSize) parts.body ++ addressed start parts.header.toBytes := by
  rw [publishing, bytes, List.drop_left' parts.header.length_toBytes,
    List.take_left' parts.header.length_toBytes]

theorem bytes_ne_nil (parts : Parts) : parts.bytes ≠ [] := by
  intro hnil
  have hlength := parts.length_bytes
  rw [hnil] at hlength
  unfold superblockSize at hlength
  rw [List.length_nil] at hlength
  omega

/-- Whether the parts lie one after the other where the superblock says, up to the alignment. -/
structure Tiles (parts : Parts) : Prop where
  inodeTable : parts.header.inodeTableStart.toNat = superblockSize + parts.data.length
  directoryTable : parts.header.directoryTableStart.toNat =
    parts.header.inodeTableStart.toNat + parts.layout.inodeTable.length
  fragments : parts.header.fragmentTableStart.toNat =
    parts.header.directoryTableStart.toNat + parts.layout.directoryTable.length +
      parts.layout.fragments.blocks.flatten.length
  exports : ∀ exports, parts.layout.exports = some exports →
    parts.header.exportTableStart.toNat =
      parts.header.fragmentTableStart.toNat + parts.layout.fragments.index.length +
        exports.blocks.flatten.length
  noExports : parts.layout.exports = none → parts.header.exportTableStart = noTable
  ids : parts.header.idTableStart.toNat =
    parts.header.fragmentTableStart.toNat + parts.layout.fragments.index.length +
      parts.layout.exportBytes.length + parts.layout.ids.blocks.flatten.length
  bytesUsed : parts.header.bytesUsed.toNat =
    parts.header.idTableStart.toNat + parts.layout.ids.index.length
  padding : parts.layout.padding =
    List.replicate (parts.bytes.length - parts.header.bytesUsed.toNat) 0
  length_bytes : parts.bytes.length =
    (parts.header.bytesUsed.toNat + imageAlignment - 1) / imageAlignment * imageAlignment

end Parts

/-- The parts of the image of a tree. -/
def Parts.ofTree (codec : Codec) (blockSize time : UInt32) (tree : Tree) (options : Options) :
    Except Error Parts := do
  let plan ← (Plan.ofTree codec blockSize tree options).outcome
  let (tables, layout) ← (plan.writeTables codec).outcome
  return ⟨superblock codec blockSize time plan tables layout, plan.contents.area.bytes, layout⟩

theorem Layout.IsChained.length_bytes {layout : Layout} (hchained : layout.IsChained) :
    layout.inodeTableStart + layout.bytes.length = layout.bytesUsed + layout.padding.length ∧
      layout.bytesUsed + layout.padding.length =
        (layout.bytesUsed + imageAlignment - 1) / imageAlignment * imageAlignment := by
  have hfragments := hchained.fragments_start
  have hfragmentsStop := layout.fragments.stop_eq
  have hids := hchained.ids_start
  have hidsStop : layout.bytesUsed = _ := layout.ids.stop_eq
  have hdirectories : layout.directoryTableStart =
    layout.inodeTableStart + layout.inodeTable.length := rfl
  constructor
  · unfold Layout.bytes
    simp only [List.length_append]
    omega
  · rw [Layout.padding, List.length_replicate]
    unfold imageAlignment
    omega

theorem length_stored_holding_le {α : Type} {encode : α → Bytes} {size : Nat}
    (hencode : ∀ value, (encode value).length = size) (codec : Codec) (compress : Bool)
    (start : Nat) (values : List α) :
    (Lookup.holding codec compress start (values.flatMap encode)).stored.length ≤
      11 * (size * values.length) := by
  have hstored := Lookup.length_stored_le codec compress start (values.flatMap encode)
  rwa [length_flatMap_of_length hencode, Nat.mul_comm values.length] at hstored

namespace IsMade

variable {codec : Codec} {blockSize time : UInt32} {tree : Tree} {options : Options}
  {plan : Plan} {tables : Tables} {layout : Layout} {storing : Storing}

def parts (_ : IsMade codec blockSize tree options plan tables layout) (time : UInt32) : Parts :=
  ⟨superblock codec blockSize time plan tables layout, plan.contents.area.bytes, layout⟩

variable (hmade : IsMade codec blockSize tree options plan tables layout)

theorem ofTree_eq (time : UInt32) :
    Parts.ofTree codec blockSize time tree options = .ok (hmade.parts time) := by
  unfold Parts.ofTree
  rw [hmade.plan_eq]
  dsimp only
  rw [Except.ok_bind, Plan.writeTables_eq_ok.mpr ⟨hmade.tables_eq, hmade.layout_eq⟩]
  rfl

theorem imageScript_eq (time : UInt32) : imageScript codec blockSize time tree options =
    ⟨plan.contents.area.stored.toList ++ layout.writes ++
      [(0, (hmade.parts time).header.toBytes)], .ok ()⟩ :=
  imageScript_eq_ok.mpr ⟨plan, tables, layout, hmade, rfl⟩

variable (hdata : DataArea.Consistent storing plan.contents.area)
include hmade hdata

theorem inodeTableStart_eq :
    layout.inodeTableStart = superblockSize + plan.contents.area.bytes.length :=
  hmade.isMadeOf.start_eq.trans hdata.position_eq

theorem length_bytes (time : UInt32) :
    (hmade.parts time).bytes.length = layout.bytesUsed + layout.padding.length ∧
      (hmade.parts time).bytes.length =
        (layout.bytesUsed + imageAlignment - 1) / imageAlignment * imageAlignment := by
  obtain ⟨hlength, haligned⟩ := hmade.isMadeOf.isChained.length_bytes
  have hstart := hmade.inodeTableStart_eq hdata
  have hbytes : (hmade.parts time).bytes.length = layout.bytesUsed + layout.padding.length := by
    rw [Parts.length_bytes, Parts.body, List.length_append, ← hlength, hstart, Nat.add_assoc]
    rfl
  exact ⟨hbytes, hbytes.trans haligned⟩

theorem length_bytes_le (time : UInt32) {inodes listings : Bytes}
    (hinodes : tables.inodes.Wrote codec (!plan.options.rawInodes) inodes)
    (hlistings : tables.directories.Wrote codec (!plan.options.rawInodes) listings) :
    (hmade.parts time).bytes.length ≤
      superblockSize + imageAlignment + plan.contents.area.bytes.length +
      3 * (inodes.length + listings.length) +
      11 * (16 * plan.contents.area.fragments.size + 8 * plan.numbering.count +
        4 * tables.ids.values.size) := by
  obtain ⟨-, haligned⟩ := hmade.length_bytes hdata time
  have hlayout := hmade.isMadeOf
  have hchained := hlayout.isChained
  have hids : layout.ids.stored.length ≤ 11 * (4 * tables.ids.values.size) := by
    rw [hlayout.ids_eq]
    exact length_stored_holding_le length_word32 codec _ _ tables.ids.values.toList
  have hfragments :
      layout.fragments.stored.length ≤ 11 * (16 * plan.contents.area.fragments.size) := by
    rw [hlayout.fragments_eq]
    exact length_stored_holding_le length_encode_fragment codec _ _
      plan.contents.area.fragments.toList
  have hexports : layout.exportBytes.length ≤ 11 * (8 * plan.numbering.count) := by
    unfold Layout.exportBytes
    split
    · rename_i exports hsome
      rw [(hlayout.of_exports hsome).2]
      exact length_stored_holding_le (fun _ => length_word64 _) codec _ _ plan.numbering.order
    · exact Nat.zero_le _
  have hinodeTable : layout.inodeTable.length ≤ 3 * inodes.length := by
    rw [hinodes.eq_of_finish hlayout.inodes]
    exact length_storedTable_le ..
  have hdirectoryTable : layout.directoryTable.length ≤ 3 * listings.length := by
    rw [hlistings.eq_of_finish hlayout.directories]
    exact length_storedTable_le ..
  have hstart := hmade.inodeTableStart_eq hdata
  have hfragmentsStart := hchained.fragments_start
  have hfragmentsStop := layout.fragments.stop_eq
  have hidsStart := hchained.ids_start
  have hused : layout.bytesUsed = _ := layout.ids.stop_eq
  have hdirectories : layout.directoryTableStart =
    layout.inodeTableStart + layout.inodeTable.length := rfl
  unfold imageAlignment at haligned ⊢
  omega

theorem tiles (hlt : (hmade.parts time).bytes.length < addressSpace) :
    (hmade.parts time).Tiles := by
  obtain ⟨htotal, haligned⟩ := hmade.length_bytes hdata time
  have hchained := hmade.isMadeOf.isChained
  have hstart := hmade.inodeTableStart_eq hdata
  -- the superblock records the positions of the layout because all of them fit 64 bits
  obtain ⟨hinodes, hdirectories, hfragments, hexports, hnone, hids, hused⟩ :=
    superblock_positions codec blockSize time plan tables hchained (by omega)
  have hdirectoryStart : layout.directoryTableStart =
    layout.inodeTableStart + layout.inodeTable.length := rfl
  have hfragmentsStart := hchained.fragments_start
  have hfragmentsIndex : layout.fragments.indexStart =
    layout.fragments.start + layout.fragments.blocks.flatten.length := rfl
  have hfragmentsStop : layout.fragments.stop =
    layout.fragments.indexStart + layout.fragments.index.length := rfl
  have hidsStart := hchained.ids_start
  have hidsIndex : layout.ids.indexStart =
    layout.ids.start + layout.ids.blocks.flatten.length := rfl
  have hidsStop : layout.bytesUsed = layout.ids.indexStart + layout.ids.index.length := rfl
  constructor
  case exports =>
    intro exports hsome
    have hexportsIndex : exports.indexStart =
      exports.start + exports.blocks.flatten.length := rfl
    have hexportsStart := hchained.exports_start exports hsome
    have hrecorded := hexports exports hsome
    dsimp only [parts]
    omega
  case noExports => exact hnone
  case padding =>
    rw [htotal]
    dsimp only [parts]
    rw [hused, Nat.add_sub_cancel_left]
    exact (List.eq_replicate_iff.mpr ⟨rfl, fun b hmem => List.eq_of_mem_replicate hmem⟩)
  case length_bytes =>
    rw [haligned]
    dsimp only [parts]
    rw [hused]
  all_goals
    dsimp only [parts]
    omega

theorem lays (time : UInt32) : Region.Lays superblockSize
    (plan.contents.area.stored.toList ++ layout.writes) (hmade.parts time).body := by
  have hlays := Layout.lays_writes hmade.isMadeOf.isChained
  rw [hmade.inodeTableStart_eq hdata] at hlays
  exact hdata.lays.append hlays

theorem streamOf_script (time : UInt32) (start : Nat) :
    Region.streamOf start (imageScript codec blockSize time tree options).writes =
      publishing start (hmade.parts time).bytes := by
  rw [hmade.imageScript_eq, Parts.publishing_bytes, ← (hmade.lays hdata time).streamOf_eq]
  simp [Region.streamOf, parts]

end IsMade

section Runs

variable {codec : Codec} {blockSize time : UInt32} {tree : Tree} {options : Options}
  {plan : Plan} {tables : Tables} {layout : Layout} {storing : Storing} {region last : Region}
  (hmade : IsMade codec blockSize tree options plan tables layout)
  (hdata : DataArea.Consistent storing plan.contents.area)
include hmade hdata

/-- Writing an image puts its stream down, or as much of it as the storage accepts before a write
that fails. -/
theorem IsMade.run_cases (hmoves : region.storage.Moves)
    (hend : region.start + (hmade.parts time).bytes.length < addressSpace) :
    ∃ count last,
      region.Deposits last ((publishing region.start (hmade.parts time).bytes).take count) ∧
      ((imageScript codec blockSize time tree options).run region = (.ok (), last) ∧
          count = (hmade.parts time).bytes.length ∧ region.Fits (0, (hmade.parts time).bytes) ∨
        (∃ error, (imageScript codec blockSize time tree options).run region =
          (.error (.io error), last)) ∧ count < (hmade.parts time).bytes.length ∧
          (¬region.Fits (0, (hmade.parts time).bytes) ∨
            region.storage.budget = some count)) := by
  have hscript := hmade.imageScript_eq time
  have hlays := hmade.lays hdata time
  generalize hmade.parts time = parts at *
  have hlength := parts.length_bytes
  have hheaderLength := parts.header.length_toBytes
  have hsize : superblockSize = 96 := rfl
  have hfits : region.Fits (superblockSize, parts.body) ↔ region.Fits (0, parts.bytes) := by
    refine forall_congr' fun size => imp_congr_right fun _ => ?_
    dsimp only
    omega
  rw [hscript]
  obtain ⟨count, middle, hcount, hbody, hresult⟩ :=
    hlays.write_cases (by simp [Layout.writes, Layout.tableWrites]) hmoves fun _ => by omega
  rcases hresult with ⟨hrun, rfl, hinside⟩ | ⟨⟨error, hrun⟩, hreason⟩
  · -- the body is in place, and the superblock lies in front of it
    rw [← length_addressed (region.start + superblockSize) parts.body, List.take_length] at hbody
    have hheaderEnd : parts.header.toBytes ≠ [] →
        middle.start + 0 + parts.header.toBytes.length < addressSpace := by
      intro _
      rw [hbody.start_eq]
      omega
    obtain ⟨further, last, hfurther, hheader, hresult⟩ :=
      Region.write_cases (hbody.moves hmoves) hheaderEnd
    have hboth := hbody.trans hheader
    rw [hbody.start_eq, Nat.add_zero, ← List.take_length_add_append, length_addressed,
      ← Parts.publishing_bytes] at hboth
    refine ⟨parts.body.length + further, last, hboth, ?_⟩
    rcases hresult with ⟨hwrite, hwhole, -⟩ | ⟨⟨error, hwrite⟩, hreason⟩
    · refine .inl ⟨Script.run_of_ok ?_, by omega, hfits.mp hinside⟩
      rw [Action.run_forM_append_of_ok hrun, List.forM, Action.run_bind_of_ok hwrite]
      rfl
    · refine .inr ⟨⟨error, Script.run_of_error ?_⟩, by omega, ?_⟩
      · rw [Action.run_forM_append_of_ok hrun, List.forM, Action.run_bind_of_error hwrite]
      · rcases hreason with ⟨hout, -⟩ | ⟨hbudget, -⟩
        · refine absurd ((hbody.fits_iff _).mpr ?_) hout
          intro size hdeclared
          have hle : 0 + parts.bytes.length ≤ size := hfits.mp hinside size hdeclared
          dsimp only
          omega
        · rw [hbody.budget_eq_of_left hbudget, length_addressed]
          exact .inr rfl
  · refine ⟨count, middle, ?_, .inr ⟨⟨error,
      Script.run_of_error (Action.run_forM_append_of_error hrun _)⟩, by omega, ?_⟩⟩
    · rw [Parts.publishing_bytes,
        List.take_append_of_le_length (by rw [length_addressed]; exact hcount)]
      exact hbody
    · exact hreason.imp (fun hout hinside => hout (hfits.mpr hinside)) And.left

theorem IsMade.end_lt_of_run
    (hrun : (imageScript codec blockSize time tree options).run region = (.ok (), last)) :
    region.start + (hmade.parts time).bytes.length < addressSpace := by
  obtain ⟨-, haligned⟩ := hmade.length_bytes hdata time
  rw [hmade.imageScript_eq] at hrun
  obtain ⟨-, hwrites⟩ := Script.run_eq_ok.mp hrun
  obtain ⟨middle, hbody, -⟩ := Action.run_forM_append hwrites
  obtain ⟨-, hinside⟩ := (hmade.lays hdata time).lt_of_writes hbody
  rw [(hmade.parts time).length_bytes] at haligned ⊢
  -- the superblock alone would not end at the alignment
  have hne : (hmade.parts time).body ≠ [] := by
    intro hnil
    rw [hnil, List.length_nil] at haligned
    unfold superblockSize imageAlignment at haligned
    omega
  have hlt := hinside hne
  omega

end Runs

end TreeImage.Build
