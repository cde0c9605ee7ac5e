import TreeImage.Build.Script
import TreeImage.Proofs.Build.Contents
import TreeImage.Proofs.Build.Tables
import TreeImage.Proofs.Storage.Stream
import TreeImage.Proofs.Table.Lookup

namespace TreeImage.Build

open Format Table

namespace Layout

variable {layout : Layout} {region : Region}

def exportBytes (layout : Layout) : Bytes :=
  match layout.exports with
  | some exports => exports.stored
  | none => []

def bytes (layout : Layout) : Bytes :=
  layout.inodeTable ++ (layout.directoryTable ++ (layout.fragments.stored ++
    (layout.exportBytes ++ (layout.ids.stored ++ layout.padding))))

/-- Whether every table starts where the one before it ends. -/
structure IsChained (layout : Layout) : Prop where
  fragments_start :
    layout.fragments.start = layout.directoryTableStart + layout.directoryTable.length
  exports_start : ∀ exports, layout.exports = some exports →
    exports.start = layout.fragments.stop
  ids_start : layout.ids.start = layout.fragments.stop + layout.exportBytes.length

/-- Whether a layout consists of the finished tables of a plan. -/
structure IsMadeOf (codec : Codec) (plan : Plan) (tables : Tables) (layout : Layout) : Prop where
  start_eq : layout.inodeTableStart = plan.contents.area.position
  inodes : tables.inodes.finish = .ok layout.inodeTable
  directories : tables.directories.finish = .ok layout.directoryTable
  fragments_eq : layout.fragments = Lookup.holding codec (!plan.options.rawInodes)
    (layout.directoryTableStart + layout.directoryTable.length)
    (plan.contents.area.fragments.toList.flatMap FragmentEntry.encode)
  exports_eq : layout.exports =
    if plan.options.exportTable then
      some (Lookup.holding codec (!plan.options.rawInodes) layout.fragments.stop
        (plan.numbering.order.flatMap fun id => word64 (Tables.ref tables.refs id).toUInt64))
    else none
  ids_eq : layout.ids = Lookup.holding codec (!plan.options.rawInodes)
    (layout.fragments.stop + layout.exportBytes.length) tables.ids.encode

variable {codec : Codec} {plan : Plan} {tables : Tables} {written : List (Nat × Bytes)}

theorem IsMadeOf.of_exports (hmade : layout.IsMadeOf codec plan tables) {exports : Lookup}
    (hexports : layout.exports = some exports) :
    plan.options.exportTable = true ∧
      exports = Lookup.holding codec (!plan.options.rawInodes) layout.fragments.stop
        (plan.numbering.order.flatMap fun id => word64 (Tables.ref tables.refs id).toUInt64) := by
  have hsome := hmade.exports_eq
  rw [hexports] at hsome
  split at hsome
  · exact ⟨by assumption, Option.some.inj hsome⟩
  · cases hsome

theorem IsMadeOf.isChained (hmade : layout.IsMadeOf codec plan tables) : layout.IsChained := by
  refine ⟨congrArg Lookup.start hmade.fragments_eq, ?_, congrArg Lookup.start hmade.ids_eq⟩
  intro exports hexports
  exact congrArg Lookup.start (hmade.of_exports hexports).2

def tableWrites (layout : Layout) : List (Nat × Bytes) :=
  (layout.inodeTableStart, layout.inodeTable) ::
    (layout.directoryTableStart, layout.directoryTable) ::
    (layout.fragments.writes ++
      ((match layout.exports with
        | some exports => exports.writes
        | none => []) ++ layout.ids.writes))

def writes (layout : Layout) : List (Nat × Bytes) := layout.tableWrites ++ layout.pad.writes

/-- Tables that are written make up the layout that is returned. -/
theorem isMadeOf_of_ofTables (hlayout : ofTables codec plan tables = ⟨written, .ok layout⟩) :
    layout.IsMadeOf codec plan tables ∧ written = layout.tableWrites := by
  obtain ⟨_, inodeTable, _, hlift, hafterInodes, rfl⟩ := Script.bind_eq_ok.mp hlayout
  obtain ⟨hinodes, rfl⟩ := Script.lift_eq_ok.mp hlift
  obtain ⟨_, directoryTable, _, hlift, hafterDirectories, rfl⟩ :=
    Script.bind_eq_ok.mp hafterInodes
  obtain ⟨hdirectories, rfl⟩ := Script.lift_eq_ok.mp hlift
  obtain ⟨_, hwritten, rfl⟩ := Script.write_bind_eq_ok.mp hafterDirectories
  obtain ⟨_, hlookups, rfl⟩ := Script.write_bind_eq_ok.mp hwritten
  obtain ⟨_, fragments, _, hwriteFragments, hafterFragments, rfl⟩ := Script.bind_eq_ok.mp hlookups
  obtain ⟨hfragments, rfl⟩ := Lookup.eq_of_ofEntries hwriteFragments
  obtain ⟨_, exports, _, hwriteExports, hafterExports, rfl⟩ := Script.bind_eq_ok.mp hafterFragments
  obtain ⟨_, ids, _, hwriteIds, hreturn, rfl⟩ := Script.bind_eq_ok.mp hafterExports
  obtain ⟨hids, rfl⟩ := Lookup.eq_of_ofEntries hwriteIds
  cases hreturn
  unfold writeExports at hwriteExports
  cases hoption : plan.options.exportTable with
  | true =>
      rw [if_pos hoption] at hwriteExports
      obtain ⟨_, table, _, hwriteTable, hsome, rfl⟩ := Script.bind_eq_ok.mp hwriteExports
      obtain ⟨htable, rfl⟩ := Lookup.eq_of_ofEntries hwriteTable
      cases hsome
      refine ⟨⟨rfl, hinodes, hdirectories, hfragments, ?_, ?_⟩,
        by simp [tableWrites, directoryTableStart]⟩
      · rw [if_pos hoption, htable]
      · rw [hids]
        dsimp only [exportBytes]
        rw [Lookup.stop_eq, htable]
        rfl
  | false =>
      have hfalse : ¬plan.options.exportTable = true := by simp [hoption]
      rw [if_neg hfalse] at hwriteExports
      cases hwriteExports
      refine ⟨⟨rfl, hinodes, hdirectories, hfragments, ?_, hids⟩,
        by simp [tableWrites, directoryTableStart]⟩
      rw [if_neg hfalse]

theorem exists_ofTables (hcodec : (!plan.options.rawInodes) = true → codec.Compresses)
    {inodes listings : Bytes} (hinodes : tables.inodes.Wrote codec (!plan.options.rawInodes) inodes)
    (hlistings : tables.directories.Wrote codec (!plan.options.rawInodes) listings) :
    ∃ layout, ofTables codec plan tables = ⟨layout.tableWrites, .ok layout⟩ := by
  have hlookup : ∀ start entries, ∃ lookup,
      (Lookup.ofEntries codec (!plan.options.rawInodes) start entries).outcome = .ok lookup :=
    fun start entries => ⟨_, congrArg Script.outcome (Lookup.ofEntries_eq hcodec start entries)⟩
  have houtcome : ∃ layout, (ofTables codec plan tables).outcome = .ok layout := by
    refine Script.exists_outcome_bind ⟨_, hinodes.finish hcodec⟩ fun inodeTable => ?_
    refine Script.exists_outcome_bind ⟨_, hlistings.finish hcodec⟩ fun directoryTable => ?_
    refine Script.exists_outcome_bind ⟨(), rfl⟩ fun _ => ?_
    refine Script.exists_outcome_bind ⟨(), rfl⟩ fun _ => ?_
    refine Script.exists_outcome_bind (hlookup _ _) fun fragments => ?_
    refine Script.exists_outcome_bind ?_ fun exports => ?_
    · unfold writeExports
      split
      · exact Script.exists_outcome_bind (hlookup _ _) fun table => ⟨some table, rfl⟩
      · exact ⟨none, rfl⟩
    · exact Script.exists_outcome_bind (hlookup _ _) fun ids => ⟨_, rfl⟩
  obtain ⟨layout, houtcome⟩ := houtcome
  have hlayout := Script.eq_of_outcome houtcome
  rw [(isMadeOf_of_ofTables hlayout).2] at hlayout
  exact ⟨layout, hlayout⟩

theorem pad_eq (layout : Layout) : layout.pad = ⟨layout.pad.writes, .ok ()⟩ := by
  unfold pad
  split
  · rfl
  · rfl

theorem lays_writes (hchained : layout.IsChained) :
    Region.Lays layout.inodeTableStart layout.writes layout.bytes := by
  have hpadding : Region.Lays layout.bytesUsed layout.pad.writes layout.padding := by
    unfold pad
    by_cases hnil : layout.padding = []
    · rw [if_pos hnil, hnil]
      exact Region.lays_nil _
    · rw [if_neg hnil]
      exact Region.lays_singleton _ _
  have hexports : Region.Lays layout.fragments.stop
      (match layout.exports with | some exports => exports.writes | none => [])
      layout.exportBytes := by
    unfold exportBytes
    split
    · rename_i exports hexports
      rw [← hchained.exports_start exports hexports]
      exact exports.lays_writes
    · exact Region.lays_nil _
  unfold writes tableWrites bytes
  simp only [List.cons_append, List.append_assoc]
  refine (Region.lays_singleton layout.inodeTableStart layout.inodeTable).append ?_
  refine (Region.lays_singleton layout.directoryTableStart layout.directoryTable).append ?_
  rw [← hchained.fragments_start]
  refine layout.fragments.lays_writes.append ?_
  rw [← Lookup.stop_eq]
  refine hexports.append ?_
  rw [← hchained.ids_start]
  refine layout.ids.lays_writes.append ?_
  rw [← Lookup.stop_eq]
  exact hpadding

theorem IsChained.le (hchained : layout.IsChained) :
    layout.fragments.start ≤ layout.fragments.indexStart ∧
      layout.fragments.indexStart ≤ layout.fragments.stop ∧
      layout.fragments.stop ≤ layout.ids.start ∧ layout.ids.start ≤ layout.ids.indexStart ∧
      layout.ids.indexStart + layout.ids.index.length = layout.ids.stop ∧
      ∀ exports, layout.exports = some exports → layout.fragments.stop = exports.start ∧
        exports.start ≤ exports.indexStart ∧ exports.indexStart ≤ exports.stop ∧
        exports.stop = layout.ids.start := by
  have hids := hchained.ids_start
  refine ⟨Nat.le_add_right _ _, Nat.le_add_right _ _, by omega, Nat.le_add_right _ _, rfl, ?_⟩
  intro exports hexports
  have hstart := hchained.exports_start exports hexports
  have hstop := exports.stop_eq
  rw [exportBytes, hexports] at hids
  dsimp only at hids
  exact ⟨hstart.symm, Nat.le_add_right _ _, Nat.le_add_right _ _, by omega⟩

structure IsStored (layout : Layout) (region : Region) : Prop where
  inodes : region.Stores layout.inodeTableStart layout.inodeTable
  directories : region.Stores layout.directoryTableStart layout.directoryTable
  fragments : region.Stores layout.fragments.start layout.fragments.stored
  exports : ∀ exports, layout.exports = some exports → region.Stores exports.start exports.stored
  ids : region.Stores layout.ids.start layout.ids.stored

theorem isStored_of_stores (hchained : layout.IsChained)
    (hstores : region.Stores layout.inodeTableStart layout.bytes) : layout.IsStored region := by
  have hdirectories := hstores.right
  have hfragments := hdirectories.right
  have hexports := hfragments.right
  have hids := hexports.right
  change region.Stores (layout.directoryTableStart + layout.directoryTable.length) _ at hfragments
  rw [← hchained.fragments_start] at hfragments
  change region.Stores (layout.directoryTableStart + layout.directoryTable.length + _) _ at hexports
  rw [← hchained.fragments_start, ← Lookup.stop_eq] at hexports
  change region.Stores (layout.directoryTableStart + layout.directoryTable.length + _ + _) _ at hids
  rw [← hchained.fragments_start, ← Lookup.stop_eq, ← hchained.ids_start] at hids
  refine ⟨hstores.left, hdirectories.left, hfragments.left, ?_, hids.left⟩
  intro exports hsome
  have hleft := hexports.left
  rw [exportBytes, hsome] at hleft
  rwa [hchained.exports_start exports hsome]

end Layout

variable {region last : Region} {codec : Codec} {blockSize time : UInt32} {tree : Staging.Tree}
  {options : Options} {plan : Plan} {tables : Tables} {layout : Layout}
  {written : List (Nat × Bytes)}

theorem Plan.ofTree_eq_ok : ofTree codec blockSize tree options = ⟨written, .ok plan⟩ ↔
    (Contents.addAll ⟨codec, blockSize.toNat, options⟩ tree (postOrder tree)).run
        (Contents.empty tree.size) = (.ok (), plan.contents) ∧
      plan = ⟨tree, Numbering.ofTree tree, plan.contents, options⟩ ∧
      written = plan.contents.area.stored.toList := by
  constructor
  · intro hplan
    obtain ⟨_, contents, _, hcontents, hreturn, rfl⟩ := Script.bind_eq_ok.mp hplan
    cases hreturn
    obtain ⟨hadd, rfl⟩ := Contents.ofTree_eq_ok.mp hcontents
    exact ⟨hadd, rfl, List.append_nil _⟩
  · rintro ⟨hadd, hplan, rfl⟩
    refine Script.bind_eq_ok.mpr ⟨_, plan.contents, [], Contents.ofTree_eq_ok.mpr ⟨hadd, rfl⟩, ?_,
      (List.append_nil _).symm⟩
    exact congrArg (fun plan => (⟨[], .ok plan⟩ : Script Plan)) hplan.symm

theorem Plan.writeTables_eq_ok : plan.writeTables codec = ⟨written, .ok (tables, layout)⟩ ↔
    Tables.ofPlan codec plan = .ok tables ∧
      Layout.ofTables codec plan tables = ⟨written, .ok layout⟩ := by
  constructor
  · intro hbuilt
    obtain ⟨_, found, _, hlift, hrest, rfl⟩ := Script.bind_eq_ok.mp hbuilt
    obtain ⟨htables, rfl⟩ := Script.lift_eq_ok.mp hlift
    obtain ⟨_, made, _, hlayout, hreturn, rfl⟩ := Script.bind_eq_ok.mp hrest
    cases hreturn
    rw [List.append_nil]
    exact ⟨htables, hlayout⟩
  · rintro ⟨htables, hlayout⟩
    refine Script.bind_eq_ok.mpr
      ⟨[], tables, written, Script.lift_eq_ok.mpr ⟨htables, rfl⟩, ?_, rfl⟩
    exact Script.bind_eq_ok.mpr ⟨written, layout, [], hlayout, rfl, (List.append_nil _).symm⟩

theorem Plan.writeSuperblock_eq_ok :
    plan.writeSuperblock codec blockSize time (tables, layout) = ⟨written, .ok ()⟩ ↔
      tables.ids.check = .ok () ∧ written = layout.pad.writes ++
        [(0, (superblock codec blockSize time plan tables layout).toBytes)] := by
  constructor
  · intro hwrite
    obtain ⟨_, ⟨⟩, _, hpad, hrest, rfl⟩ := Script.bind_eq_ok.mp hwrite
    obtain ⟨_, ⟨⟩, _, hlift, hlast, rfl⟩ := Script.bind_eq_ok.mp hrest
    obtain ⟨hcheck, rfl⟩ := Script.lift_eq_ok.mp hlift
    cases hlast
    rw [hpad]
    exact ⟨hcheck, rfl⟩
  · rintro ⟨hcheck, rfl⟩
    refine Script.bind_eq_ok.mpr ⟨_, (), _, layout.pad_eq, ?_, rfl⟩
    exact Script.bind_eq_ok.mpr ⟨[], (), _, Script.lift_eq_ok.mpr ⟨hcheck, rfl⟩, rfl, rfl⟩

/-- All that is written for an image. -/
def imageScript (codec : Codec) (blockSize time : UInt32) (tree : Staging.Tree)
    (options : Options) : Script Unit := do
  let plan ← Plan.ofTree codec blockSize tree options
  let built ← plan.writeTables codec
  plan.writeSuperblock codec blockSize time built

/-- Whether the image of a tree is made from a plan, tables and a layout. -/
structure IsMade (codec : Codec) (blockSize : UInt32) (tree : Staging.Tree) (options : Options)
    (plan : Plan) (tables : Tables) (layout : Layout) : Prop where
  plan_eq : Plan.ofTree codec blockSize tree options =
    ⟨plan.contents.area.stored.toList, .ok plan⟩
  tables_eq : Tables.ofPlan codec plan = .ok tables
  layout_eq : Layout.ofTables codec plan tables = ⟨layout.tableWrites, .ok layout⟩
  check_eq : tables.ids.check = .ok ()

namespace IsMade

variable (hmade : IsMade codec blockSize tree options plan tables layout)
include hmade

theorem plan_made : plan = ⟨tree, Numbering.ofTree tree, plan.contents, options⟩ :=
  (Plan.ofTree_eq_ok.mp hmade.plan_eq).2.1

theorem tree_eq : plan.tree = tree ∧ plan.options = options := by
  rw [hmade.plan_made]
  exact ⟨rfl, rfl⟩

theorem numbering_eq : plan.numbering = Numbering.ofTree plan.tree := by
  rw [hmade.tree_eq.1]
  exact congrArg Plan.numbering hmade.plan_made

theorem unique {otherPlan : Plan} {otherTables : Tables} {otherLayout : Layout}
    (hother : IsMade codec blockSize tree options otherPlan otherTables otherLayout) :
    plan = otherPlan ∧ tables = otherTables ∧ layout = otherLayout := by
  obtain rfl : plan = otherPlan :=
    Except.ok.inj (Script.mk.inj (hmade.plan_eq.symm.trans hother.plan_eq)).2
  obtain rfl : tables = otherTables := Except.ok.inj (hmade.tables_eq.symm.trans hother.tables_eq)
  exact ⟨rfl, rfl, Except.ok.inj (Script.mk.inj (hmade.layout_eq.symm.trans hother.layout_eq)).2⟩

theorem isMadeOf : layout.IsMadeOf codec plan tables :=
  (Layout.isMadeOf_of_ofTables hmade.layout_eq).1

theorem holds (hsized : Storing.IsSized ⟨codec, blockSize.toNat, options⟩) :
    Contents.Holds ⟨codec, blockSize.toNat, options⟩ tree (postOrder tree) plan.contents ∧
      plan.contents.area.tails = #[] :=
  Contents.holds_addAll hsized (Plan.ofTree_eq_ok.mp hmade.plan_eq).1

end IsMade

theorem Plan.exists_ofTree (hcodec : codec.Compresses) (blockSize : UInt32) (tree : Staging.Tree)
    (options : Options) : ∃ plan, ofTree codec blockSize tree options =
      ⟨plan.contents.area.stored.toList, .ok plan⟩ := by
  obtain ⟨⟨⟩, contents, hadd⟩ := Contents.succeeds_addAll
    (show Codec.Compresses (Storing.codec ⟨codec, blockSize.toNat, options⟩) from hcodec) tree
    (postOrder tree) (Contents.empty tree.size)
  exact ⟨⟨tree, Numbering.ofTree tree, contents, options⟩,
    Plan.ofTree_eq_ok.mpr ⟨hadd, rfl, rfl⟩⟩

theorem exists_isMade (hcodec : codec.Compresses) (htree : tree.WellFormed)
    (hplan : Plan.ofTree codec blockSize tree options =
      ⟨plan.contents.area.stored.toList, .ok plan⟩)
    (htables : Tables.ofPlan codec plan = .ok tables) :
    ∃ layout, IsMade codec blockSize tree options plan tables layout := by
  have hmade := (Plan.ofTree_eq_ok.mp hplan).2.1
  have hplanTree : plan.tree.WellFormed := by rwa [hmade]
  have hnumbering : plan.numbering = Numbering.ofTree plan.tree := by rw [hmade]
  obtain ⟨inodes, listings, hholds⟩ :=
    Tables.exists_holds_of_ofPlan hplanTree hnumbering htables
  obtain ⟨layout, hlayout⟩ :=
    Layout.exists_ofTables (fun _ => hcodec) hholds.wrote_inodes hholds.wrote_listings
  exact ⟨layout, hplan, htables, hlayout, IdTable.check_eq_ok.mpr hholds.ids_valid.size_le⟩

theorem imageScript_eq_ok :
    imageScript codec blockSize time tree options = ⟨written, .ok ()⟩ ↔
      ∃ plan tables layout, IsMade codec blockSize tree options plan tables layout ∧
        written = plan.contents.area.stored.toList ++ layout.writes ++
          [(0, (superblock codec blockSize time plan tables layout).toBytes)] := by
  constructor
  · intro hscript
    obtain ⟨_, plan, _, hplan, hrest, rfl⟩ := Script.bind_eq_ok.mp hscript
    obtain ⟨_, ⟨tables, layout⟩, _, hbuilt, hlast, rfl⟩ := Script.bind_eq_ok.mp hrest
    obtain ⟨htables, hlayout⟩ := Plan.writeTables_eq_ok.mp hbuilt
    obtain ⟨hcheck, rfl⟩ := Plan.writeSuperblock_eq_ok.mp hlast
    obtain ⟨-, -, rfl⟩ := Plan.ofTree_eq_ok.mp hplan
    obtain ⟨-, rfl⟩ := Layout.isMadeOf_of_ofTables hlayout
    exact ⟨plan, tables, layout, ⟨hplan, htables, hlayout, hcheck⟩, by simp [Layout.writes]⟩
  · rintro ⟨plan, tables, layout, ⟨hplan, htables, hlayout, hcheck⟩, rfl⟩
    refine Script.bind_eq_ok.mpr ⟨_, plan, _, hplan, ?_, List.append_assoc ..⟩
    refine Script.bind_eq_ok.mpr ⟨_, (tables, layout), _,
      Plan.writeTables_eq_ok.mpr ⟨htables, hlayout⟩, Plan.writeSuperblock_eq_ok.mpr ⟨hcheck, rfl⟩,
      by simp [Layout.writes]⟩

/-- What a region holds once an image is written: the data, the tables and the superblock. -/
structure IsWritten (codec : Codec) (blockSize time : UInt32) (plan : Plan) (tables : Tables)
    (layout : Layout) (region : Region) : Prop where
  data : region.Stores superblockSize plan.contents.area.bytes
  stored : layout.IsStored region
  superblock : region.Stores 0 (superblock codec blockSize time plan tables layout).toBytes

theorem exists_isWritten_of_run (hsized : Storing.IsSized ⟨codec, blockSize.toNat, options⟩)
    (hmoves : region.storage.Moves)
    (hrun : (imageScript codec blockSize time tree options).run region = (.ok (), last)) :
    last.storage.grant = region.storage.grant ∧ last.start = region.start ∧
      ∃ plan tables layout, IsMade codec blockSize tree options plan tables layout ∧
        IsWritten codec blockSize time plan tables layout last := by
  obtain ⟨houtcome, hwrites⟩ := Script.run_eq_ok.mp hrun
  obtain ⟨plan, tables, layout, hmade, hscript⟩ :=
    imageScript_eq_ok.mp (Script.eq_of_outcome houtcome)
  have hdata := (hmade.holds hsized).1.consistent
  have hchained := hmade.isMadeOf.isChained
  have htablesLays := Layout.lays_writes hchained
  rw [hmade.isMadeOf.start_eq, hdata.position_eq] at htablesLays
  have hlays := hdata.lays.append htablesLays
  rw [hscript] at hwrites
  obtain ⟨middle, hbody, hheader⟩ := Action.run_forM_append hwrites
  obtain ⟨-, hput, hbytes⟩ :=
    hlays.stores_of_run (by simp [Layout.writes, Layout.tableWrites]) hmoves hbody
  obtain ⟨-, hheaderPut, hheaderBytes⟩ := (Region.lays_singleton 0 _).stores_of_run
    (List.cons_ne_nil _ _) (hput.moves hmoves) hheader
  have hall := hheaderPut.keeps hbytes (Or.inr (by simp))
  have htablesBytes := hall.right
  rw [← hdata.position_eq, ← hmade.isMadeOf.start_eq] at htablesBytes
  exact ⟨hheaderPut.grant_eq.trans hput.grant_eq, hheaderPut.start_eq.trans hput.start_eq,
    plan, tables, layout, hmade, hall.left, Layout.isStored_of_stores hchained htablesBytes,
    hheaderBytes⟩

end TreeImage.Build
