import TreeImage.Proofs.Build.Footprint
import TreeImage.Proofs.Build.InodeNumbers

namespace TreeImage

open Build Format Staging

theorem TableWriter.le_of_append {writer next : TableWriter} {record : Bytes}
    {place : Format.RecordRef} (happend : writer.append record = .ok (place, next)) :
    writer.output.size ≤ maxOutput := by
  unfold append at happend
  split at happend
  · cases happend
  · rename_i hsmall
    exact Nat.le_of_not_lt hsmall

namespace Build

def Options.ownersOf (options : Options) (node : Node) : List UInt32 :=
  [options.forceUid.getD node.attributes.uid, options.forceGid.getD node.attributes.gid]

/-- The owners and groups that are recorded for the nodes of a tree, in any order and however often
each of them comes. -/
def Options.owners (options : Options) (tree : Tree) : List UInt32 :=
  tree.nodes.toList.flatMap options.ownersOf

/-- The owner and the group that are recorded for the node with a number. -/
def Plan.ownersAt (plan : Plan) (id : NodeId) : List UInt32 :=
  (plan.tree.node? id).elim [] plan.options.ownersOf

/-- Whether the records of a node can be appended to the tables. -/
structure Tables.HasRoom (plan : Plan) (tables : Tables) (id : NodeId) : Prop where
  inodes : tables.inodes.output.size ≤ TableWriter.maxOutput
  directories : plan.tree.isDirectory id = true →
    tables.directories.output.size ≤ TableWriter.maxOutput

/-- Whether nodes of an order can be appended, each after those before it. -/
def Tables.HasRoomFor (plan : Plan) (tables : Tables) (order : List NodeId) : Prop :=
  ∀ front id back, order = front ++ id :: back →
    ∀ last, front.foldlM (addNode plan) tables = .ok last → last.HasRoom plan id

/-- Whether no record is appended to a table that has grown too large. -/
def Plan.TablesFit (codec : Codec) (plan : Plan) : Prop :=
  (Tables.empty codec (!plan.options.rawInodes) plan.tree.size).HasRoomFor plan
    plan.numbering.order

/-- Whether the records of a tree can be appended to the tables of its image. -/
def TablesFit (codec : Codec) (blockSize : UInt32) (tree : Tree) (options : Options) : Prop :=
  ∀ plan, (Plan.ofTree codec blockSize tree options).outcome = .ok plan → plan.TablesFit codec

variable {plan : Plan} {codec : Codec} {compress : Bool}

theorem card_toFinset_append_le (front back : List UInt32) :
    front.toFinset.card ≤ (front ++ back).toFinset.card := by
  refine Finset.card_le_card fun value hmem => ?_
  rw [List.mem_toFinset] at hmem ⊢
  exact List.mem_append_left _ hmem

theorem toFinset_owners (htree : plan.tree.WellFormed)
    (hnumbering : plan.numbering = Numbering.ofTree plan.tree) :
    (plan.numbering.order.flatMap plan.ownersAt).toFinset =
      (plan.options.owners plan.tree).toFinset := by
  ext value
  rw [List.mem_toFinset, List.mem_toFinset, List.mem_flatMap, Options.owners, List.mem_flatMap]
  constructor
  · rintro ⟨id, -, hvalue⟩
    rw [Plan.ownersAt] at hvalue
    cases hnode : plan.tree.node? id with
    | none =>
        rw [hnode] at hvalue
        cases hvalue
    | some node =>
        rw [hnode] at hvalue
        exact ⟨node, Array.mem_toList_iff.mpr (Array.mem_of_getElem? hnode), hvalue⟩
  · rintro ⟨node, hmem, hvalue⟩
    obtain ⟨id, hnode⟩ := Array.mem_iff_getElem?.mp (Array.mem_toList_iff.mp hmem)
    refine ⟨id, ?_, ?_⟩
    · rw [hnumbering]
      exact (mem_postOrder_iff htree).mpr (Tree.lt_size_of_node? hnode)
    · rw [Plan.ownersAt, show plan.tree.node? id = some node from hnode]
      exact hvalue

namespace Tables

variable {tables : Tables} {owners : List UInt32} {id : NodeId}

/-- Whether the tables have given places to some owners, and have got records in both streams. -/
structure Recording (codec : Codec) (compress : Bool) (tables : Tables) (owners : List UInt32) :
    Prop where
  holding : tables.ids.Holding owners
  inodes : ∃ stream, tables.inodes.Wrote codec compress stream
  directories : ∃ stream, tables.directories.Wrote codec compress stream

section Compresses

variable (hcodec : codec.Compresses)
include hcodec

theorem exists_addBody {node : Node} (hnode : plan.tree.node? id = some node) {stream : Bytes}
    (hwrote : tables.directories.Wrote codec compress stream)
    (hroom : plan.tree.isDirectory id = true →
      tables.directories.output.size ≤ TableWriter.maxOutput) :
    ∃ body directories written,
      addBody plan tables.refs id node tables.directories = .ok (body, directories) ∧
        directories.Wrote codec compress written := by
  obtain ⟨content, attributes⟩ := node
  cases content with
  | directory entries =>
      obtain ⟨body, directories, hbody, hwritten⟩ := exists_addBody_directory (fun _ => hcodec)
        plan tables.refs id entries attributes hwrote
        (hroom (Tree.isDirectory_iff.mpr ⟨entries, attributes, hnode⟩))
      exact ⟨_, directories, _, hbody, hwritten⟩
  | file data => exact ⟨_, _, stream, rfl, hwrote⟩
  | symlink target => exact ⟨_, _, stream, rfl, hwrote⟩

/-- A node is written, unless its owner or its group is one too many. -/
theorem addNode_cases (hrecords : tables.Recording codec compress owners)
    (hroom : tables.HasRoom plan id) :
    (∃ next, addNode plan tables id = .ok next ∧
        next.Recording codec compress (owners ++ plan.ownersAt id)) ∨
      (addNode plan tables id = .error (.unsupported (.distinctIds IdTable.maxSize)) ∧
        IdTable.maxSize < (owners ++ plan.ownersAt id).toFinset.card) := by
  have hholding := hrecords.holding
  obtain ⟨stream, hinodes⟩ := hrecords.inodes
  obtain ⟨listings, hlistings⟩ := hrecords.directories
  unfold Plan.ownersAt
  cases hnode : plan.tree.node? id with
  | none =>
      obtain ⟨ids, inodes, directories, refs⟩ := tables
      rw [Option.elim_none, List.append_nil]
      refine .inl ⟨_, ?_, hrecords⟩
      simp only [addNode, hnode]
  | some node =>
      obtain ⟨body, writer, written, hbody, hwritten⟩ :=
        exists_addBody hcodec hnode hlistings hroom.directories
      rw [Option.elim_some, Options.ownersOf, ← List.singleton_append, ← List.append_assoc]
      rcases hholding.place_cases (plan.options.forceUid.getD node.attributes.uid) with
        ⟨uidIndex, uidIds, huid, hmiddle⟩ | ⟨huid, hmany⟩
      · rcases hmiddle.place_cases (plan.options.forceGid.getD node.attributes.gid) with
          ⟨gidIndex, gidIds, hgid, hlast⟩ | ⟨hgid, hmany⟩
        · obtain ⟨inode, last, -, hinodesWritten, hadd⟩ :=
            exists_addNode_eq (fun _ => hcodec) hnode hbody huid hgid hinodes hroom.inodes
          exact .inl ⟨_, hadd, hlast, ⟨_, hinodesWritten⟩, written, hwritten⟩
        · obtain ⟨ids, inodes, directories, refs⟩ := tables
          dsimp only at hbody huid
          refine .inr ⟨?_, hmany⟩
          simp only [addNode, hnode, hbody, huid, hgid, Except.ok_bind]
          rfl
      · obtain ⟨ids, inodes, directories, refs⟩ := tables
        dsimp only at hbody huid
        refine .inr ⟨?_, Nat.lt_of_lt_of_le hmany (card_toFinset_append_le _ _)⟩
        simp only [addNode, hnode, hbody, huid, Except.ok_bind]
        rfl

omit hcodec in
theorem HasRoomFor.tail {next : Tables} {order : List NodeId}
    (hroom : tables.HasRoomFor plan (id :: order)) (hadd : addNode plan tables id = .ok next) :
    next.HasRoomFor plan order := by
  intro front other back horder last hfold
  refine hroom (id :: front) other back (congrArg (id :: ·) horder) last ?_
  rw [List.foldlM_cons, hadd]
  exact hfold

theorem foldlM_cases {order : List NodeId} (hrecords : tables.Recording codec compress owners)
    (hroom : tables.HasRoomFor plan order) :
    (∃ last, order.foldlM (addNode plan) tables = .ok last ∧
        last.Recording codec compress (owners ++ order.flatMap plan.ownersAt)) ∨
      (order.foldlM (addNode plan) tables =
          .error (.unsupported (.distinctIds IdTable.maxSize)) ∧
        IdTable.maxSize < (owners ++ order.flatMap plan.ownersAt).toFinset.card) := by
  induction order generalizing tables owners with
  | nil => exact .inl ⟨tables, rfl, by simpa using hrecords⟩
  | cons id order ih =>
      rw [List.foldlM_cons, List.flatMap_cons, ← List.append_assoc]
      rcases addNode_cases hcodec hrecords (hroom [] id order rfl tables rfl) with
        ⟨next, hadd, hnext⟩ | ⟨hadd, hmany⟩
      · rw [hadd]
        exact ih hnext (hroom.tail hadd)
      · rw [hadd]
        exact .inr ⟨rfl, Nat.lt_of_lt_of_le hmany (card_toFinset_append_le _ _)⟩

theorem ofPlan_cases (htree : plan.tree.WellFormed)
    (hnumbering : plan.numbering = Numbering.ofTree plan.tree) (hfit : plan.TablesFit codec) :
    (∃ last, ofPlan codec plan = .ok last ∧ last.ids.values.size ≤ IdTable.maxSize ∧
        last.ids.values.size = (plan.options.owners plan.tree).toFinset.card) ∨
      (ofPlan codec plan = .error (.unsupported (.distinctIds IdTable.maxSize)) ∧
        IdTable.maxSize < (plan.options.owners plan.tree).toFinset.card) := by
  rw [← toFinset_owners htree hnumbering]
  have hempty : (empty codec (!plan.options.rawInodes) plan.tree.size).Recording codec
      (!plan.options.rawInodes) [] :=
    ⟨IdTable.holding_empty, ⟨[], TableWriter.wrote_empty _ _⟩, [], TableWriter.wrote_empty _ _⟩
  rcases foldlM_cases hcodec hempty hfit with ⟨last, hfold, hlast⟩ | ⟨hfold, hmany⟩
  · exact .inl ⟨last, hfold, hlast.holding.valid.size_le, hlast.holding.card_eq.symm⟩
  · exact .inr ⟨hfold, hmany⟩

end Compresses

theorem tablesFit_of_ofPlan (htree : plan.tree.WellFormed)
    (hnumbering : plan.numbering = Numbering.ofTree plan.tree) {last : Tables}
    (hbuilt : ofPlan codec plan = .ok last) : plan.TablesFit codec := by
  intro front id back horder tables hfold
  have hid : id < plan.tree.size := by
    refine (mem_postOrder_iff htree).mp ?_
    have hmem : id ∈ plan.numbering.order := by simp [horder]
    rwa [hnumbering] at hmem
  have hnode : plan.tree.node? id = some plan.tree.nodes[id] := Array.getElem?_eq_getElem hid
  rw [ofPlan, horder, List.foldlM_append, hfold, Except.ok_bind, List.foldlM_cons] at hbuilt
  obtain ⟨next, hadd, -⟩ := Except.bind_eq_ok.mp hbuilt
  obtain ⟨body, _, _, _, _, _, _, _, hbody, -, -, happend, -⟩ := addNode_eq_ok hnode hadd
  refine ⟨TableWriter.le_of_append happend, fun hdirectory => ?_⟩
  obtain ⟨entries, attributes, hcontent⟩ := Tree.isDirectory_iff.mp hdirectory
  rw [Option.some.inj (hnode.symm.trans hcontent)] at hbody
  obtain ⟨⟨directory, writer⟩, hlisting, -⟩ := Except.bind_eq_ok.mp hbody
  obtain ⟨⟨place, writer⟩, happend, -⟩ := Except.bind_eq_ok.mp hlisting
  exact TableWriter.le_of_append happend

/-- How the inodes of an image name the owners and the groups of the nodes. -/
structure NamesOwners (codec : Codec) (header : Superblock) (plan : Plan) (tables : Tables) :
    Prop where
  nodup : tables.ids.values.toList.Nodup
  idCount : header.idCount.toNat = tables.ids.values.size
  inodes : ∃ stream, tables.inodes.Wrote codec (!plan.options.rawInodes) stream ∧
    ∀ id node, plan.tree.node? id = some node → ∃ inode : Inode,
      Table.HasRecord codec (!plan.options.rawInodes) stream (ref tables.refs id) inode.encode ∧
      inode.uidIndex.toNat < header.idCount.toNat ∧
      inode.gidIndex.toNat < header.idCount.toNat ∧
      tables.ids.values[inode.uidIndex.toNat]? =
        some (plan.options.forceUid.getD node.attributes.uid) ∧
      tables.ids.values[inode.gidIndex.toNat]? =
        some (plan.options.forceGid.getD node.attributes.gid)

theorem namesOwners_of_ofPlan (htree : plan.tree.WellFormed)
    (hnumbering : plan.numbering = Numbering.ofTree plan.tree)
    (hbuilt : ofPlan codec plan = .ok tables) (blockSize time : UInt32) (layout : Layout) :
    tables.NamesOwners codec (superblock codec blockSize time plan tables layout) plan := by
  obtain ⟨inodes, listings, hholds⟩ := exists_holds_of_ofPlan htree hnumbering hbuilt
  have hcount : (superblock codec blockSize time plan tables layout).idCount.toNat =
      tables.ids.values.size := IdTable.toNat_ofNat_of_le hholds.ids_valid.size_le
  refine ⟨hholds.ids_valid.nodup, hcount, inodes, hholds.wrote_inodes, fun id node hnode => ?_⟩
  have hmem := (mem_postOrder_iff htree).mpr (Tree.lt_size_of_node? hnode)
  obtain ⟨inode, hdescribes, hrecord⟩ := hholds.described id hmem node hnode
  rw [hcount]
  exact ⟨inode, hrecord, (Array.getElem?_eq_some_iff.mp hdescribes.uid).1,
    (Array.getElem?_eq_some_iff.mp hdescribes.gid).1, hdescribes.uid, hdescribes.gid⟩

end Tables

theorem IsMade.tablesFit {blockSize : UInt32} {tree : Tree} {options : Options} {tables : Tables}
    {layout : Layout} (hmade : IsMade codec blockSize tree options plan tables layout)
    (htree : tree.WellFormed) : TablesFit codec blockSize tree options := by
  intro found hfound
  obtain rfl : plan = found :=
    Except.ok.inj ((congrArg Script.outcome hmade.plan_eq).symm.trans hfound)
  rw [← hmade.tree_eq.1] at htree
  exact Tables.tablesFit_of_ofPlan htree hmade.numbering_eq hmade.tables_eq

theorem imageScript_cases {blockSize : UInt32} {tree : Tree} {options : Options}
    (hcodec : codec.Compresses) (htree : tree.WellFormed)
    (hfit : TablesFit codec blockSize tree options) (time : UInt32) :
    (∃ plan tables layout, IsMade codec blockSize tree options plan tables layout ∧
        tables.ids.values.size = (options.owners tree).toFinset.card ∧
        (imageScript codec blockSize time tree options).outcome = .ok () ∧
        (options.owners tree).toFinset.card ≤ IdTable.maxSize) ∨
      ((imageScript codec blockSize time tree options).outcome =
          .error (.unsupported (.distinctIds IdTable.maxSize)) ∧
        IdTable.maxSize < (options.owners tree).toFinset.card) := by
  obtain ⟨plan, hplan⟩ := Plan.exists_ofTree hcodec blockSize tree options
  have hmade := (Plan.ofTree_eq_ok.mp hplan).2.1
  obtain ⟨rfl, rfl⟩ : plan.tree = tree ∧ plan.options = options := by
    rw [hmade]
    exact ⟨rfl, rfl⟩
  have hnumbering : plan.numbering = Numbering.ofTree plan.tree := congrArg Plan.numbering hmade
  have hplanFit := hfit plan (congrArg Script.outcome hplan)
  rcases Tables.ofPlan_cases hcodec htree hnumbering hplanFit with
    ⟨tables, htables, hle, hcount⟩ | ⟨htables, hmany⟩
  · obtain ⟨layout, hlayout⟩ := exists_isMade hcodec htree hplan htables
    rw [hcount] at hle
    exact .inl ⟨plan, tables, layout, hlayout, hcount,
      congrArg Script.outcome (hlayout.imageScript_eq time), hle⟩
  · refine .inr ⟨?_, hmany⟩
    rw [imageScript, Script.bind_eq_of_ok hplan, Plan.writeTables, htables]
    rfl

end Build

/-- Whether a buffer can hold all that a script writes to a window of it. -/
def Script.FitsBuffer {α : Type} (start : Nat) (script : Script α) : Prop :=
  ∀ write ∈ script.writes, write.2 ≠ [] → start + write.1 + write.2.length ≤ Codec.maxCapacity

theorem Script.FitsBuffer.hasAddresses {α : Type} {start : Nat} {script : Script α}
    (hfits : script.FitsBuffer start) : script.HasAddresses start := by
  intro write hmem hne
  have hle := hfits write hmem hne
  unfold Codec.maxCapacity at hle
  unfold addressSpace
  omega

namespace Builder

variable {codecs : Codecs} {prior : Bytes} {start : Nat} {blockSize time : UInt32}
  {clock : NodeId → UInt32} {builder : Builder} {options : Options} {codec : Codec}

theorem exists_finalize_eq_outcome {region : Region} (hstages : builder.Stages region blockSize)
    (hcodec : options.algorithm.codec codecs = .ok codec) (hmoves : region.storage.Moves)
    (hdeclared : region.declared = none) (hbudget : region.storage.budget = none)
    (haddresses : (imageScript codec blockSize time builder.tree options).HasAddresses
      region.start) :
    ∃ last, (finalize codecs time options).run builder =
        ((imageScript codec blockSize time builder.tree options).outcome, last) ∧
      (imageScript codec blockSize time builder.tree options).run region =
        ((imageScript codec blockSize time builder.tree options).outcome, last.region) := by
  obtain ⟨written, hrun⟩ := Script.exists_run_eq hmoves hdeclared hbudget haddresses
  obtain ⟨rfl, rfl, hstage, -⟩ := hstages
  obtain ⟨reached, -, hfinalize⟩ := exists_finalize_eq hstage hcodec hrun
  exact ⟨_, hfinalize, hrun⟩

/-- The table of owners and groups answers as a dictionary of at most 65535 values.  A codec that is
not built in is unsupported, whatever is staged.  With any other, if every block can be compressed,
finalizing to a buffer that can hold all that is written is unsupported exactly if more than 65535
distinct values are recorded as owners and groups; if they are not more, an image is written, and
all inodes name their owners and groups by places below the number in its superblock. -/
theorem unsupported_iff_of_finalize (hcodecs : codecs.All Codec.Compresses)
    (hcreate : create (Storage.ofBytes prior) start 0 blockSize clock = .ok builder)
    (edits : List Edit) (time : UInt32) (options : Options) :
    (∀ before id, IdTable.Answers before id) ∧
    let staged := builder.editAll edits
    let count := (options.owners staged.tree).toFinset.card
    ((∀ codec, options.algorithm.codec codecs ≠ .ok codec) →
      (finalize codecs time options).run staged =
        (.error (.unsupported (.codec options.algorithm.name)), staged)) ∧
    ∀ codec, options.algorithm.codec codecs = .ok codec →
      TablesFit codec blockSize staged.tree options →
      (imageScript codec blockSize time staged.tree options).FitsBuffer start →
        ((∃ limitation last,
            (finalize codecs time options).run staged = (.error (.unsupported limitation), last)) ↔
          65535 < count) ∧
        (count ≤ 65535 → ∃ last plan tables layout,
          (finalize codecs time options).run staged = (.ok (), last) ∧
          IsMade codec blockSize staged.tree options plan tables layout ∧
          IsWritten codec blockSize time plan tables layout last.region ∧
          tables.ids.values.size = count ∧
          tables.NamesOwners codec (superblock codec blockSize time plan tables layout) plan) := by
  obtain ⟨hblockSize, hstages⟩ := stages_of_create hcreate edits
  refine ⟨IdTable.answers, finalize_eq_of_not_codec hstages.stage_eq time, ?_⟩
  intro codec hcodec hfit hbuffer
  have hmoves : (Storage.ofBytes prior).Moves := fun _ _ hpositive => hpositive
  obtain ⟨last, hfinalize, hrun⟩ :=
    exists_finalize_eq_outcome hstages hcodec hmoves rfl rfl hbuffer.hasAddresses
  rcases imageScript_cases (hcodecs _ _ hcodec) hstages.wellFormed hfit time with
    ⟨plan, tables, layout, hmade, hcount, houtcome, hle⟩ | ⟨houtcome, hmany⟩
  · rw [houtcome] at hfinalize hrun
    refine ⟨⟨?_, fun hmany => absurd hmany (Nat.not_lt_of_le hle)⟩, fun _ => ?_⟩
    · rintro ⟨limitation, failed, hfailed⟩
      cases hfinalize.symm.trans hfailed
    · obtain ⟨-, -, found, foundTables, foundLayout, hfound, hwritten⟩ := exists_isWritten_of_run
        (isSized_of_isBlockSize hblockSize codec options) hmoves hrun
      obtain ⟨rfl, rfl, rfl⟩ := hmade.unique hfound
      have htree := hstages.wellFormed
      rw [← hmade.tree_eq.1] at htree
      exact ⟨last, plan, tables, layout, hfinalize, hmade, hwritten, hcount,
        Tables.namesOwners_of_ofPlan htree hmade.numbering_eq hmade.tables_eq ..⟩
  · rw [houtcome] at hfinalize
    exact ⟨⟨fun _ => hmany, fun _ => ⟨_, last, hfinalize⟩⟩,
      fun hle => absurd hmany (Nat.not_lt_of_le hle)⟩

/-- Every node of the sample tree is given to the super-user, so one owner is recorded. -/
theorem unsupported_iff_sample :
    ∃ last plan layout, ∃ tables : Tables,
      (finalize Codecs.machine 9 sampleOptions).run (sampleBuilder.editAll sampleEdits) =
          (.ok (), last) ∧
        tables.ids.values.size = 1 ∧
        tables.NamesOwners Codecs.machine.gzip
          (superblock Codecs.machine.gzip 4096 9 plan tables layout) plan := by
  have hcount : (sampleOptions.owners (sampleBuilder.editAll sampleEdits).tree).toFinset.card =
      1 := by
    decide +kernel
  obtain ⟨last, hrun⟩ := finalize_sample
  have hstages := (stages_of_create create_sample sampleEdits).2
  obtain ⟨codec, hcodec, hscript⟩ := hstages.finalize_eq_ok hrun
  obtain rfl : Codecs.machine.gzip = codec := Except.ok.inj hcodec
  obtain ⟨houtcome, -⟩ := Script.run_eq_ok.mp hscript
  obtain ⟨plan, tables, layout, hmade, -⟩ := imageScript_eq_ok.mp (Script.eq_of_outcome houtcome)
  have hbuffer : Script.FitsBuffer 5 (imageScript Codecs.machine.gzip 4096 9
      (sampleBuilder.editAll sampleEdits).tree sampleOptions) := by
    have hends : ∀ write ∈ (imageScript Codecs.machine.gzip 4096 9
        (sampleBuilder.editAll sampleEdits).tree sampleOptions).writes,
        5 + write.1 + write.2.length ≤ Codec.maxCapacity := by
      decide +kernel
    exact fun write hmem _ => hends write hmem
  obtain ⟨-, -, hcases⟩ := unsupported_iff_of_finalize
    (fun algorithm codec hcodec => (Codec.isFaithful_machine algorithm codec hcodec).compresses)
    create_sample sampleEdits 9 sampleOptions
  obtain ⟨-, hwritten⟩ := hcases _ rfl (hmade.tablesFit hstages.wellFormed) hbuffer
  obtain ⟨last, plan, tables, layout, hfinalize, -, -, hsize, hnames⟩ :=
    hwritten (by rw [hcount]; decide)
  exact ⟨last, plan, layout, tables, hfinalize, hsize.trans hcount, hnames⟩

/-- A codec that is not built in is unsupported for a tree whose nodes have one owner. -/
theorem unsupported_of_one_owner :
    (finalize Codecs.machine 9 { algorithm := .xz }).run sampleBuilder =
        (.error (.unsupported (.codec "xz")), sampleBuilder) ∧
      (({ algorithm := .xz } : Options).owners sampleBuilder.tree).toFinset.card = 1 ∧
      ¬65535 < (({ algorithm := .xz } : Options).owners sampleBuilder.tree).toFinset.card := by
  have hone : (({ algorithm := .xz } : Options).owners sampleBuilder.tree).toFinset.card = 1 := by
    decide +kernel
  exact ⟨rfl, hone, by rw [hone]; decide⟩

end Builder

end TreeImage
