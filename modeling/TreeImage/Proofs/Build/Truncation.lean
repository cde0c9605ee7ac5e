import TreeImage.Proofs.Build.Exactness
import TreeImage.Proofs.Build.LifeCycle
import TreeImage.Proofs.Staging.FlatTree

namespace TreeImage

open Build Format Staging

namespace Build

namespace IdTable

/-- Whether a table takes a value without running out of places: it has it, or has none yet. -/
def Takes (table : IdTable) (id : UInt32) : Prop :=
  table.values.size = 0 ∨ ∃ place, table.places[id]? = some place

theorem Takes.place {table : IdTable} {id : UInt32} (htakes : table.Takes id) :
    ∃ index next, table.place id = .ok (index, next) ∧ next.Takes id := by
  cases hplace : table.places[id]? with
  | some place =>
      exact ⟨place, table, place_eq_ok.mpr (run_index_of_some hplace), .inr ⟨place, hplace⟩⟩
  | none =>
      have hempty : table.values.size = 0 := by
        rcases htakes with hempty | ⟨place, hsome⟩
        · exact hempty
        · exact nomatch hplace.symm.trans hsome
      have hroom : table.values.size < maxSize := by
        rw [hempty]
        decide
      exact ⟨_, _, place_eq_ok.mpr (run_index_of_room hplace hroom),
        .inr ⟨_, Std.HashMap.getElem?_insert_self⟩⟩

end IdTable

namespace Tables

variable {plan : Plan} {codec : Codec} {compress : Bool} {tables : Tables} {id : NodeId}
  {node : Node} {owner : UInt32}

theorem exists_addNode (hcodec : codec.Compresses) (hnode : plan.tree.node? id = some node)
    {body : InodeBody} {directories : TableWriter}
    (hbody : addBody plan tables.refs id node tables.directories = .ok (body, directories))
    (huid : plan.options.forceUid.getD node.attributes.uid = owner)
    (hgid : plan.options.forceGid.getD node.attributes.gid = owner)
    (htakes : tables.ids.Takes owner) {stream : Bytes}
    (hwrote : tables.inodes.Wrote codec compress stream)
    (hroom : tables.inodes.output.size ≤ TableWriter.maxOutput) :
    ∃ next, addNode plan tables id = .ok next ∧ next.ids.Takes owner ∧
      next.directories = directories ∧ ∃ inode : Inode, inode.body = body ∧
        next.inodes.Wrote codec compress (stream ++ inode.encode) := by
  obtain ⟨uidIndex, uidIds, huidPlace, huidTakes⟩ := htakes.place
  obtain ⟨gidIndex, gidIds, hgidPlace, hgidTakes⟩ := huidTakes.place
  rw [← huid] at huidPlace
  rw [← hgid] at hgidPlace
  obtain ⟨inode, last, hinode, hlast, hadd⟩ :=
    exists_addNode_eq (fun _ => hcodec) hnode hbody huidPlace hgidPlace hwrote hroom
  exact ⟨_, hadd, hgidTakes, rfl, inode, hinode, hlast⟩

theorem length_encode_symlink {inode : Inode} {link : SymlinkBody}
    (hbody : inode.body = .symlink link) : inode.encode.length ≤ 28 + link.target.length := by
  simp only [Inode.encode, InodeBody.encode, hbody, List.length_append, length_littleEndian,
    length_word16, length_word32]
  split
  · rw [length_word32]
    omega
  · rw [List.length_nil]
    omega

theorem length_encode_directory {inode : Inode} {directory : DirectoryBody}
    (hbody : inode.body = .directory directory) : inode.encode.length ≤ 40 := by
  simp only [Inode.encode, InodeBody.encode, hbody, List.length_append, length_littleEndian,
    length_word16, length_word32]
  split
  all_goals
    simp only [List.length_append, length_word16, length_word32]
    omega

/-- What holds of the tables while links are written: there is nothing in the directory table, and
no more in the inode table than a bound for each link. -/
structure Filling (codec : Codec) (compress : Bool) (owner : UInt32) (tables : Tables)
    (written : Nat) : Prop where
  takes : tables.ids.Takes owner
  directories : tables.directories = TableWriter.empty codec compress
  inodes : ∃ stream, tables.inodes.Wrote codec compress stream ∧ stream.length ≤ written

variable {target : String} {written : Nat}

theorem Filling.addNode (hcodec : codec.Compresses) {attributes : Attributes}
    (hfilling : Filling codec compress owner tables written)
    (hnode : plan.tree.node? id = some ⟨.symlink target, attributes⟩)
    (huid : plan.options.forceUid.getD attributes.uid = owner)
    (hgid : plan.options.forceGid.getD attributes.gid = owner)
    (hroom : 3 * written ≤ TableWriter.maxOutput) :
    ∃ next, Tables.addNode plan tables id = .ok next ∧
      Filling codec compress owner next (written + (28 + target.utf8ByteSize)) := by
  obtain ⟨htakes, hdirectories, stream, hwrote, hlength⟩ := hfilling
  have hsize := hwrote.size_output_le
  have hbody : addBody plan tables.refs id ⟨.symlink target, attributes⟩ tables.directories =
    .ok (.symlink ⟨1, Text.utf8 target, noXattr⟩, tables.directories) := rfl
  obtain ⟨next, hadd, hnext, hempty, inode, hinode, hinodes⟩ :=
    exists_addNode hcodec hnode hbody huid hgid htakes hwrote (by omega)
  have hrecord : inode.encode.length ≤ 28 + target.utf8ByteSize := length_encode_symlink hinode
  refine ⟨next, hadd, hnext, hempty.trans hdirectories, _, hinodes, ?_⟩
  rw [List.length_append]
  omega

theorem Filling.foldlM (hcodec : codec.Compresses) {links : List NodeId}
    (hlinks : ∀ id ∈ links, ∃ attributes,
      plan.tree.node? id = some ⟨.symlink target, attributes⟩ ∧
        plan.options.forceUid.getD attributes.uid = owner ∧
        plan.options.forceGid.getD attributes.gid = owner)
    (hfilling : Filling codec compress owner tables written)
    (hroom : 3 * (written + links.length * (28 + target.utf8ByteSize)) ≤ TableWriter.maxOutput) :
    ∃ next, links.foldlM (Tables.addNode plan) tables = .ok next ∧
      Filling codec compress owner next (written + links.length * (28 + target.utf8ByteSize)) := by
  induction links generalizing tables written with
  | nil => exact ⟨tables, rfl, by simpa using hfilling⟩
  | cons id links ih =>
      obtain ⟨⟨attributes, hnode, huid, hgid⟩, hrest⟩ := List.forall_mem_cons.mp hlinks
      have hmore : written + (id :: links).length * (28 + target.utf8ByteSize) =
          written + (28 + target.utf8ByteSize) + links.length * (28 + target.utf8ByteSize) := by
        rw [List.length_cons, Nat.succ_mul]
        omega
      rw [hmore] at hroom ⊢
      obtain ⟨middle, hadd, hmiddle⟩ := hfilling.addNode hcodec hnode huid hgid (by omega)
      obtain ⟨next, hfold, hnext⟩ := ih hrest hmiddle hroom
      refine ⟨next, ?_, hnext⟩
      rw [List.foldlM_cons, hadd, Except.ok_bind, hfold]

end Tables

variable {plan : Plan} {target : String} {names : List String}

theorem length_encode_listing (htree : plan.tree.WellFormed)
    (hflat : plan.tree.IsFlat target names) (hnodup : names.Nodup) {width : Nat}
    (hwidth : ∀ name ∈ names, (Text.utf8 name).length = width) (refs : Array RecordRef) :
    names.length * (8 + width) ≤
        (Listing.encode (Tables.listing plan refs Staging.root)).length ∧
      (Listing.encode (Tables.listing plan refs Staging.root)).length ≤
        names.length * (20 + width) := by
  have hlow := Listing.le_length_encode (Tables.listing plan refs Staging.root)
  have hhigh := Listing.length_encode_le (Tables.listing plan refs Staging.root)
  rw [Tables.listing, List.map_map] at hlow hhigh
  exact ⟨Nat.le_trans (Nat.le_of_eq (hflat.sum_children htree hnodup hwidth 8).symm) hlow,
    Nat.le_trans hhigh (Nat.le_of_eq (hflat.sum_children htree hnodup hwidth 20))⟩

/-- The tables of a tree of links are built if there is room for its inodes: the inode table has a
short record for each link, and the directory table has the listing of the root alone. -/
theorem exists_tables_of_isFlat {codec : Codec} (hcodec : codec.Compresses)
    (hnumbering : plan.numbering = Numbering.ofTree plan.tree) (htree : plan.tree.WellFormed)
    (hflat : plan.tree.IsFlat target names)
    (howner : plan.options.forceUid.getD 0 = plan.options.forceGid.getD 0)
    (hroom : 3 * (names.length * (28 + target.utf8ByteSize)) ≤ TableWriter.maxOutput) :
    ∃ tables inodes refs, Tables.ofPlan codec plan = .ok tables ∧
      tables.inodes.Wrote codec (!plan.options.rawInodes) inodes ∧
      inodes.length ≤ names.length * (28 + target.utf8ByteSize) + 40 ∧
      tables.directories.Wrote codec (!plan.options.rawInodes)
        (Listing.encode (Tables.listing plan refs Staging.root)) := by
  obtain ⟨front, horder⟩ := exists_postOrder_eq htree
  have hnodup := nodup_postOrder htree
  have hlength := length_postOrder htree
  rw [horder] at hnodup hlength
  rw [List.length_append, List.length_singleton, hflat.size_eq] at hlength
  have hcount : front.length = names.length := Nat.succ.inj hlength
  have hplanOrder : plan.numbering.order = front ++ [Staging.root] := by
    rw [hnumbering, ← horder]
    rfl
  have hlinks : ∀ id ∈ front, ∃ attributes,
      plan.tree.node? id = some ⟨.symlink target, attributes⟩ ∧
        plan.options.forceUid.getD attributes.uid = plan.options.forceGid.getD 0 ∧
        plan.options.forceGid.getD attributes.gid = plan.options.forceGid.getD 0 := by
    intro id hmem
    have hid : id ∈ postOrder plan.tree := by
      rw [horder]
      exact List.mem_append_left _ hmem
    have hne : id ≠ Staging.root := fun hroot =>
      (List.nodup_append.mp hnodup).2.2 id hmem Staging.root List.mem_cons_self hroot
    exact ⟨_, hflat.link id ((mem_postOrder_iff htree).mp hid) hne, howner, rfl⟩
  have hstart : Tables.Filling codec (!plan.options.rawInodes) (plan.options.forceGid.getD 0)
      (Tables.empty codec (!plan.options.rawInodes) plan.tree.size) 0 :=
    ⟨.inl rfl, rfl, [], TableWriter.wrote_empty _ _, Nat.le_refl 0⟩
  obtain ⟨middle, hfold, htakes, hdirectories, stream, hwrote, hstream⟩ :=
    hstart.foldlM hcodec hlinks (by rw [Nat.zero_add, hcount]; exact hroom)
  rw [Nat.zero_add, hcount] at hstream
  -- the root comes last, when there is nothing in the directory table yet
  obtain ⟨entries, hroot⟩ := hflat.root
  have hempty : middle.directories.output.size ≤ TableWriter.maxOutput := by
    rw [hdirectories]
    exact Nat.zero_le _
  have hnothing := TableWriter.wrote_empty codec (!plan.options.rawInodes)
  rw [← hdirectories] at hnothing
  obtain ⟨body, written, hbody, hwritten⟩ := Tables.exists_addBody_directory (fun _ => hcodec) plan
    middle.refs Staging.root entries
    (Node.new (.directory entries) (plan.tree.clock Staging.root)).attributes hnothing hempty
  have hsize := hwrote.size_output_le
  obtain ⟨last, hadd, -, hlast, inode, hinode, hinodes⟩ :=
    Tables.exists_addNode hcodec hroot hbody howner rfl htakes hwrote (by omega)
  have hrecord := Tables.length_encode_directory hinode
  refine ⟨last, stream ++ inode.encode, middle.refs, ?_, hinodes, ?_, ?_⟩
  · rw [Tables.ofPlan, hplanOrder, List.foldlM_append, hfold, Except.ok_bind, List.foldlM_cons,
      hadd]
    rfl
  · rw [List.length_append]
    omega
  · rw [hlast]
    exact hwritten

theorem Contents.area_of_isFlat {storing : Storing} {tree : Tree} {contents : Contents}
    {order : List NodeId} (hflat : tree.IsFlat target names)
    (hadd : (addAll storing tree order).run (empty tree.size) = (.ok (), contents)) :
    contents.area = DataArea.empty := by
  obtain ⟨⟨⟩, placed, hplaced, hfinish⟩ := Action.run_bind_eq_ok.mp hadd
  have hstep : ∀ (done : List NodeId) (id : NodeId) (contents last : Contents), id ∈ order →
      contents.area = DataArea.empty →
      (addNode storing tree id).run contents = (.ok (), last) → last.area = DataArea.empty := by
    intro done id contents last _ harea hnode
    rcases addNode_eq_ok hnode with ⟨data, attributes, _, _, hfile, -⟩ | ⟨-, rfl⟩
    · exact absurd hfile (hflat.node?_ne_file id data attributes)
    · exact harea
  have hempty : placed.area = DataArea.empty :=
    @Action.run_forM_invariant _ _ _ _ _ (fun _ contents => contents.area = DataArea.empty) order
      hstep [] rfl hplaced
  obtain ⟨hflush, -⟩ := finish_eq_ok.mp hfinish
  rw [hempty] at hflush
  exact (Prod.mk.inj hflush).2.symm

end Build

namespace Builder

variable {region : Region} {blockSize : UInt32} {tree : Tree} {target : String}
  {names : List String} {options : Options}

theorem run_edit {α : Type} (action : Action Tree α) :
    (edit action).run ⟨region, blockSize, tree, .staging⟩ =
      ((action.run tree).1, ⟨region, blockSize, (action.run tree).2, .staging⟩) := rfl

theorem editAll_links {done : List String} (hflat : tree.IsFlat target done)
    (hnodup : (done ++ names).Nodup) (hnames : ∀ name ∈ names, IsEntryName name)
    (htarget : 0 < target.utf8ByteSize ∧ target.utf8ByteSize ≤ maxLinkTarget) :
    ∃ later, editAll (names.map (Edit.symlink target)) ⟨region, blockSize, tree, .staging⟩ =
        ⟨region, blockSize, later, .staging⟩ ∧ later.IsFlat target (done ++ names) := by
  induction names generalizing tree done with
  | nil => exact ⟨tree, rfl, by rwa [List.append_nil]⟩
  | cons name names ih =>
      obtain ⟨hname, hrest⟩ := List.forall_mem_cons.mp hnames
      have hnew : name ∉ done := fun hmem =>
        (List.nodup_append.mp hnodup).2.2 name hmem name List.mem_cons_self rfl
      have hrun := hflat.run_symlink hnew hname htarget
      rw [← List.singleton_append, ← List.append_assoc] at hnodup
      obtain ⟨later, hlater, hlast⟩ := ih (hflat.insert hnew) hnodup hrest
      rw [List.append_assoc, List.singleton_append] at hlast
      refine ⟨later, ?_, hlast⟩
      rw [← hlater, List.map_cons]
      change editAll _ ((Builder.symlink target name).run ⟨region, blockSize, tree, .staging⟩).2 = _
      have hedit : (edit (Tree.symlink target name)).run ⟨region, blockSize, tree, .staging⟩ =
          (.ok tree.size, ⟨region, blockSize,
            (tree.insert Staging.root name (.symlink target)).2, .staging⟩) := by
        rw [run_edit, hrun]
      rw [Builder.symlink, Action.run_bind_of_ok hedit]
      rfl

theorem finalize_of_isFlat {codecs : Codecs} {codec : Codec} (hcodec : codec.Compresses)
    (hbuiltIn : options.algorithm.codec codecs = .ok codec) (htree : tree.WellFormed)
    (hflat : tree.IsFlat target names) (hnodup : names.Nodup) {width : Nat}
    (hwidth : ∀ name ∈ names, (Text.utf8 name).length = width)
    (howner : options.forceUid.getD 0 = options.forceGid.getD 0)
    (hblockSize : isBlockSize blockSize.toNat = true)
    (hroom : 3 * (names.length * (28 + target.utf8ByteSize)) ≤ TableWriter.maxOutput)
    (hlength : names.length * (20 + width) < 2 ^ 48) (time : UInt32) :
    ∃ last plan tables layout, ∃ hmade : IsMade codec blockSize tree options plan tables layout,
      (finalize codecs time options).run
          ⟨Region.ofStorage (Storage.ofBytes []) 0 0, blockSize, tree, .staging⟩ =
        (.ok (), last) ∧
      (hmade.parts time).bytes.length < addressSpace ∧
      names.length * (8 + width) ≤
        (listingBytes codec blockSize tree options Staging.root).length := by
  obtain ⟨plan, hplan⟩ := Plan.exists_ofTree hcodec blockSize tree options
  obtain ⟨hadd, hmadePlan, -⟩ := Plan.ofTree_eq_ok.mp hplan
  obtain ⟨rfl, rfl⟩ : plan.tree = tree ∧ plan.options = options := by
    rw [hmadePlan]
    exact ⟨rfl, rfl⟩
  have hnumbering : plan.numbering = Numbering.ofTree plan.tree := congrArg Plan.numbering hmadePlan
  obtain ⟨tables, inodes, refs, htables, hinodes, hinodesLength, hlistings⟩ :=
    exists_tables_of_isFlat hcodec hnumbering htree hflat howner hroom
  obtain ⟨layout, hmade⟩ := exists_isMade hcodec htree hplan htables
  have hlisting := length_encode_listing htree hflat hnodup hwidth
  have hdata := (hmade.holds (isSized_of_isBlockSize hblockSize codec plan.options)).1.consistent
  have harea : plan.contents.area = DataArea.empty := Contents.area_of_isFlat hflat hadd
  have hend : 0 + (hmade.parts time).bytes.length < addressSpace := by
    obtain ⟨_, _, hholds⟩ := Tables.exists_holds_of_ofPlan htree hnumbering htables
    have hle := hmade.length_bytes_le hdata time hinodes hlistings
    have hids := hholds.ids_valid.size_le
    have hnodes : plan.numbering.count = names.length + 1 := by
      rw [hnumbering]
      exact (length_postOrder htree).trans hflat.size_eq
    have hhigh := (hlisting refs).2
    have hcount := Nat.le_mul_of_pos_right names.length (show 0 < 20 + width by omega)
    have hbytes : DataArea.empty.bytes.length = 0 := rfl
    have hfragments : DataArea.empty.fragments.size = 0 := rfl
    rw [harea, hnodes, hbytes, hfragments] at hle
    unfold superblockSize imageAlignment at hle
    unfold TableWriter.maxOutput metadataBlockSize at hroom
    unfold IdTable.maxSize at hids
    unfold addressSpace
    omega
  have hmoves : (Storage.ofBytes []).Moves := fun _ _ hpositive => hpositive
  obtain ⟨result, written, hrun, hpublishes⟩ := publishes_of_isMade 0 hmade hdata hmoves hend
  obtain rfl : result = .ok () := hpublishes.ok_iff.mpr ⟨.inl rfl, nofun⟩
  let builder : Builder :=
    ⟨Region.ofStorage (Storage.ofBytes []) 0 0, blockSize, plan.tree, .staging⟩
  obtain ⟨reached, -, hfinalize⟩ :=
    exists_finalize_eq (show builder.stage = .staging from rfl) hbuiltIn hrun
  refine ⟨_, plan, tables, layout, hmade, hfinalize, ?_, ?_⟩
  · rwa [Nat.zero_add] at hend
  · rw [hmade.listingBytes_eq]
    exact (hlisting tables.refs).1

/-- All links that names of the greatest length allow for, up to a number. -/
def wideEdits (count : Nat) : List Edit :=
  (numberedNames maxNameLength count).map (Edit.symlink "x")

theorem finalize_wideEdits {count : Nat} (hlow : 2 ^ 32 ≤ count * (8 + maxNameLength))
    (hroom : 3 * (count * 29) ≤ TableWriter.maxOutput) :
    ∃ builder last plan tables parts,
      create (Storage.ofBytes []) 0 0 4096 UInt32.ofNat = .ok builder ∧
      (finalize Codecs.machine 0 rawOptions).run (builder.editAll (wideEdits count)) =
        (.ok (), last) ∧
      let tree := (builder.editAll (wideEdits count)).tree
      (Plan.ofTree Codecs.machine.gzip 4096 tree rawOptions).outcome = .ok plan ∧
      Tables.ofPlan Codecs.machine.gzip plan = .ok tables ∧
      Parts.ofTree Codecs.machine.gzip 4096 0 tree rawOptions = .ok parts ∧
      2 ^ 32 ≤ (listingBytes Codecs.machine.gzip 4096 tree rawOptions Staging.root).length ∧
      ¬∃ inodes listings,
        Build.Exact Codecs.machine.gzip 4096 plan tables parts inodes listings := by
  unfold TableWriter.maxOutput metadataBlockSize at hroom
  have hcount : count ≤ 10 ^ maxNameLength :=
    Nat.le_trans (show count ≤ 10 ^ 10 by omega) (Nat.pow_le_pow_right (by decide) (by decide))
  have hlength := length_numberedNames maxNameLength count
  have hnodup := nodup_numberedNames hcount
  let builder : Builder :=
    ⟨Region.ofStorage (Storage.ofBytes []) 0 0, 4096, Tree.new UInt32.ofNat, .staging⟩
  have hcreate : create (Storage.ofBytes []) 0 0 4096 UInt32.ofNat = .ok builder := rfl
  obtain ⟨tree, hedits, hflat⟩ : ∃ tree, builder.editAll (wideEdits count) =
      ⟨Region.ofStorage (Storage.ofBytes []) 0 0, 4096, tree, .staging⟩ ∧
        tree.IsFlat "x" (numberedNames maxNameLength count) :=
    editAll_links (Tree.isFlat_new UInt32.ofNat "x") hnodup
      (fun name hmem => isEntryName_of_mem_numberedNames (by decide) (Nat.le_refl _) hmem)
      (by decide)
  obtain ⟨hblockSize, hstages⟩ := stages_of_create hcreate (wideEdits count)
  have htree := hstages.wellFormed
  rw [hedits] at htree
  have htarget : 28 + "x".utf8ByteSize = 29 := rfl
  obtain ⟨last, plan, tables, layout, hmade, hfinalize, hend, hlisting⟩ :=
    finalize_of_isFlat (Codec.isFaithful_machine .gzip _ rfl).compresses
      (show rawOptions.algorithm.codec Codecs.machine = .ok Codecs.machine.gzip from rfl) htree
      hflat hnodup (fun name hmem => length_of_mem_numberedNames hmem) rfl hblockSize
      (by rw [hlength, htarget]; unfold TableWriter.maxOutput metadataBlockSize; exact hroom)
      (by rw [hlength]; unfold maxNameLength; omega) 0
  rw [hlength] at hlisting
  have hwide := Nat.le_trans hlow hlisting
  refine ⟨builder, last, plan, tables, hmade.parts 0, hcreate, by rw [hedits]; exact hfinalize, ?_⟩
  rw [hedits]
  refine ⟨congrArg Script.outcome hmade.plan_eq, hmade.tables_eq, hmade.ofTree_eq 0, hwide, ?_⟩
  rintro ⟨inodes, listings, hexact⟩
  have hfits := (hmade.fits_of_exact htree hexact).listings Staging.root htree.root_lt
  omega

/-- Not every image that is finalized is exact: a root with two to the twenty-fourth links, whose
listing takes four gibibytes and more, is a counterexample. -/
theorem not_every_finalize_exact :
    ¬∀ (edits : List Edit) (options : Options) (builder last : Builder) (codec : Codec)
        (plan : Plan) (tables : Tables) (parts : Parts),
      create (Storage.ofBytes []) 0 0 4096 UInt32.ofNat = .ok builder →
      (finalize Codecs.machine 0 options).run (builder.editAll edits) = (.ok (), last) →
      options.algorithm.codec Codecs.machine = .ok codec →
      (Plan.ofTree codec 4096 (builder.editAll edits).tree options).outcome = .ok plan →
      Tables.ofPlan codec plan = .ok tables →
      Parts.ofTree codec 4096 0 (builder.editAll edits).tree options = .ok parts →
      ∃ inodes listings, Build.Exact codec 4096 plan tables parts inodes listings := by
  intro hexact
  have hlow : 2 ^ 32 ≤ 16777216 * (8 + maxNameLength) := by decide
  have hroom : 3 * (16777216 * 29) ≤ TableWriter.maxOutput := by decide
  obtain ⟨builder, last, plan, tables, parts, hcreate, hfinalize, hplan, htables, hparts, -,
    hinexact⟩ := finalize_wideEdits hlow hroom
  exact hinexact (hexact _ _ _ _ _ _ _ _ hcreate hfinalize rfl hplan htables hparts)

end Builder

end TreeImage
