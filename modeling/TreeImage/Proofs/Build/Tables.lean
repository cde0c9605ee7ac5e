import TreeImage.Build.Tables
import TreeImage.Proofs.Build.IdTable
import TreeImage.Proofs.Build.Numbering
import TreeImage.Proofs.Format.Record
import TreeImage.Proofs.Table.RecordStream

namespace TreeImage.Build

open Format
open Staging (NodeId Node Tree)

namespace Tables

variable {plan : Plan} {codec : Codec} {compress : Bool} {tables next : Tables}

/-- Whether an inode describes a node: it has the number and the attributes of the node, and the
body that its kind asks for.  A directory's names its parent and counts its links, and its listing
is in the directory stream. -/
structure Describes (plan : Plan) (codec : Codec) (compress : Bool) (tables : Tables)
    (listings : Bytes) (id : NodeId) (node : Node) (inode : Inode) : Prop where
  permissions : inode.permissions = node.attributes.mode
  uid : tables.ids.values[inode.uidIndex.toNat]? =
    some (plan.options.forceUid.getD node.attributes.uid)
  gid : tables.ids.values[inode.gidIndex.toNat]? =
    some (plan.options.forceGid.getD node.attributes.gid)
  mtime : inode.mtime = node.attributes.mtime
  inodeNumber : inode.inodeNumber = plan.numbering.number id
  links : ∀ body, inode.body = .directory body →
    body.linkCount = directoryLinks plan.tree id ∧
      body.parentInode = plan.numbering.parentNumber id
  directory : ∀ entries, node.content = .directory entries → ∃ body,
    inode.body = .directory body ∧
      body.fileSize = UInt32.ofNat (Listing.encode (listing plan tables.refs id)).length +
        UInt32.ofNat listingBias ∧
      Table.HasRecord codec compress listings ⟨body.startBlock, body.offset⟩
        (Listing.encode (listing plan tables.refs id))
  file : ∀ data, node.content = .file data →
    inode.body = .file (fileBody data (plan.contents.placement id))
  symlink : ∀ target, node.content = .symlink target → ∃ body,
    inode.body = .symlink body ∧ body.target = Text.utf8 target

theorem Describes.kind_eq {listings : Bytes} {id : NodeId} {node : Node} {inode : Inode}
    (hdescribes : Describes plan codec compress tables listings id node inode) :
    inode.kind = node.content.kind := by
  unfold Inode.kind
  obtain ⟨content, attributes⟩ := node
  cases content with
  | directory entries =>
      obtain ⟨body, hbody, -⟩ := hdescribes.directory entries rfl
      rw [hbody]
      rfl
  | file data =>
      rw [hdescribes.file data rfl]
      rfl
  | symlink target =>
      obtain ⟨body, hbody, -⟩ := hdescribes.symlink target rfl
      rw [hbody]
      rfl

structure Holds (plan : Plan) (codec : Codec) (compress : Bool) (done : List NodeId)
    (tables : Tables) (inodes listings : Bytes) : Prop where
  ids_valid : tables.ids.Valid
  wrote_inodes : tables.inodes.Wrote codec compress inodes
  wrote_listings : tables.directories.Wrote codec compress listings
  size_refs : tables.refs.size = plan.tree.size
  described : ∀ id ∈ done, ∀ node, plan.tree.node? id = some node → ∃ inode,
    Describes plan codec compress tables listings id node inode ∧
      Table.HasRecord codec compress inodes (ref tables.refs id) inode.encode

theorem holds_empty (plan : Plan) (codec : Codec) (compress : Bool) :
    Holds plan codec compress [] (empty codec compress plan.tree.size) [] [] :=
  ⟨IdTable.valid_empty, TableWriter.wrote_empty _ _, TableWriter.wrote_empty _ _,
    Array.size_replicate, fun _ hmem => (nomatch hmem)⟩

theorem listing_congr {refs others : Array RecordRef} {id : NodeId}
    (hsame : ∀ name child, plan.tree.child? id name = some child →
      ref others child = ref refs child) : listing plan others id = listing plan refs id := by
  unfold listing
  refine List.map_congr_left ?_
  rintro ⟨name, child⟩ hmem
  dsimp only
  rw [hsame name child (Tree.mem_children.mp hmem)]

theorem Describes.mono {listings : Bytes} {id : NodeId} {node : Node} {inode : Inode}
    (hdescribes : Describes plan codec compress tables listings id node inode)
    (hids : ∀ (i : Nat) (value : UInt32), tables.ids.values[i]? = some value →
      next.ids.values[i]? = some value)
    (hrefs : ∀ name child, plan.tree.child? id name = some child →
      ref next.refs child = ref tables.refs child) (more : Bytes) :
    Describes plan codec compress next (listings ++ more) id node inode := by
  obtain ⟨hpermissions, huid, hgid, hmtime, hnumber, hlinks, hdirectory, hfile, hsymlink⟩ :=
    hdescribes
  refine ⟨hpermissions, hids _ _ huid, hids _ _ hgid, hmtime, hnumber, hlinks, ?_, hfile,
    hsymlink⟩
  intro entries hentries
  obtain ⟨body, hbody, hsize, hrecord⟩ := hdirectory entries hentries
  rw [listing_congr hrefs]
  exact ⟨body, hbody, hsize, hrecord.append more⟩

theorem ref_setIfInBounds_of_ne {refs : Array RecordRef} {id other : NodeId} (place : RecordRef)
    (hne : id ≠ other) : ref (refs.setIfInBounds id place) other = ref refs other := by
  rw [ref, ref, Array.getElem?_setIfInBounds_ne hne]

theorem ref_setIfInBounds_self {refs : Array RecordRef} {id : NodeId} (place : RecordRef)
    (hid : id < refs.size) : ref (refs.setIfInBounds id place) id = place := by
  rw [ref, Array.getElem?_setIfInBounds_self_of_lt hid]
  rfl

theorem addBody_eq_ok {refs : Array RecordRef} {id : NodeId} {node : Node}
    {directories last : TableWriter} {body : InodeBody} {listings : Bytes}
    (hwrote : directories.Wrote codec compress listings)
    (hadd : addBody plan refs id node directories = .ok (body, last)) :
    ∃ more, last.Wrote codec compress (listings ++ more) ∧
      (∀ directory, body = .directory directory →
        directory.linkCount = directoryLinks plan.tree id ∧
          directory.parentInode = plan.numbering.parentNumber id) ∧
      (∀ entries, node.content = .directory entries → ∃ directory,
        body = .directory directory ∧
          directory.fileSize = UInt32.ofNat (Listing.encode (listing plan refs id)).length +
            UInt32.ofNat listingBias ∧
          Table.HasRecord codec compress (listings ++ more)
            ⟨directory.startBlock, directory.offset⟩ (Listing.encode (listing plan refs id))) ∧
      (∀ data, node.content = .file data →
        body = .file (fileBody data (plan.contents.placement id))) ∧
      ∀ target, node.content = .symlink target → ∃ link,
        body = .symlink link ∧ link.target = Text.utf8 target := by
  obtain ⟨content, attributes⟩ := node
  unfold addBody at hadd
  cases content with
  | directory entries =>
      obtain ⟨⟨directory, written⟩, hlisting, hadd⟩ := Except.bind_eq_ok.mp hadd
      cases hadd
      obtain ⟨⟨place, written⟩, happend, hlisting⟩ := Except.bind_eq_ok.mp hlisting
      cases hlisting
      have hwritten := (hwrote.append happend).1
      have hrecord := hwrote.hasRecord happend
      refine ⟨_, hwritten, ?_, fun _ _ => ⟨_, rfl, rfl, hrecord⟩, nofun, nofun⟩
      rintro _ ⟨⟩
      exact ⟨rfl, rfl⟩
  | file data =>
      cases hadd
      refine ⟨[], by rwa [List.append_nil], nofun, nofun, ?_, nofun⟩
      rintro other ⟨⟩
      rfl
  | symlink target =>
      cases hadd
      refine ⟨[], by rwa [List.append_nil], nofun, nofun, nofun, ?_⟩
      rintro other ⟨⟩
      exact ⟨_, rfl, rfl⟩

section Compresses

variable (hcodec : compress = true → codec.Compresses)
include hcodec

theorem exists_addBody_directory (plan : Plan) (refs : Array RecordRef) (id : NodeId)
    (entries : Std.TreeMap String NodeId) (attributes : Staging.Attributes)
    {directories : TableWriter} {listings : Bytes}
    (hwrote : directories.Wrote codec compress listings)
    (hroom : directories.output.size ≤ TableWriter.maxOutput) :
    ∃ body last, addBody plan refs id ⟨.directory entries, attributes⟩ directories =
        .ok (.directory body, last) ∧
      last.Wrote codec compress (listings ++ Listing.encode (listing plan refs id)) := by
  obtain ⟨last, happend⟩ :=
    hwrote.exists_append hcodec hroom (Listing.encode (listing plan refs id))
  unfold addBody addListing
  dsimp only
  rw [happend]
  exact ⟨_, last, rfl, (hwrote.append happend).1⟩

theorem exists_addNode_eq {id : NodeId} {node : Node} (hnode : plan.tree.node? id = some node)
    {body : InodeBody} {directories : TableWriter}
    (hbody : addBody plan tables.refs id node tables.directories = .ok (body, directories))
    {uidIndex gidIndex : UInt16} {uidIds gidIds : IdTable}
    (huid : tables.ids.place (plan.options.forceUid.getD node.attributes.uid) =
      .ok (uidIndex, uidIds))
    (hgid : uidIds.place (plan.options.forceGid.getD node.attributes.gid) =
      .ok (gidIndex, gidIds)) {inodes : Bytes}
    (hwrote : tables.inodes.Wrote codec compress inodes)
    (hroom : tables.inodes.output.size ≤ TableWriter.maxOutput) :
    ∃ (inode : Inode) (last : TableWriter), inode.body = body ∧
      last.Wrote codec compress (inodes ++ inode.encode) ∧
      addNode plan tables id = .ok ⟨gidIds, last, directories,
        tables.refs.setIfInBounds id tables.inodes.position⟩ := by
  obtain ⟨ids, writer, written, refs⟩ := tables
  dsimp only at hbody huid hwrote hroom
  let inode : Inode := ⟨node.attributes.mode, uidIndex, gidIndex, node.attributes.mtime,
    plan.numbering.number id, body⟩
  obtain ⟨last, happend⟩ := hwrote.exists_append hcodec hroom inode.encode
  refine ⟨inode, last, rfl, (hwrote.append happend).1, ?_⟩
  dsimp only [inode] at happend
  simp only [addNode, hnode, hbody, huid, hgid, Except.ok_bind, happend]
  rfl

end Compresses

theorem addNode_eq_ok {id : NodeId} {node : Node} (hnode : plan.tree.node? id = some node)
    (hadd : addNode plan tables id = .ok next) :
    ∃ body directories uidIndex uidIds gidIndex gidIds place inodes,
      addBody plan tables.refs id node tables.directories = .ok (body, directories) ∧
      tables.ids.place (plan.options.forceUid.getD node.attributes.uid) =
        .ok (uidIndex, uidIds) ∧
      uidIds.place (plan.options.forceGid.getD node.attributes.gid) = .ok (gidIndex, gidIds) ∧
      tables.inodes.append (Inode.encode ⟨node.attributes.mode, uidIndex, gidIndex,
        node.attributes.mtime, plan.numbering.number id, body⟩) = .ok (place, inodes) ∧
      next = ⟨gidIds, inodes, directories, tables.refs.setIfInBounds id place⟩ := by
  obtain ⟨ids, inodes, directories, refs⟩ := tables
  simp only [addNode, hnode] at hadd
  obtain ⟨⟨body, written⟩, hbody, hadd⟩ := Except.bind_eq_ok.mp hadd
  obtain ⟨⟨uidIndex, uidIds⟩, huid, hadd⟩ := Except.bind_eq_ok.mp hadd
  obtain ⟨⟨gidIndex, gidIds⟩, hgid, hadd⟩ := Except.bind_eq_ok.mp hadd
  obtain ⟨⟨place, writer⟩, happend, hadd⟩ := Except.bind_eq_ok.mp hadd
  cases hadd
  exact ⟨body, written, uidIndex, uidIds, gidIndex, gidIds, place, writer, hbody, huid, hgid,
    happend, rfl⟩

/-- Writing a node whose entries are written keeps what holds of the others. -/
theorem Holds.addNode {done : List NodeId} {inodes listings : Bytes} {id : NodeId}
    (hholds : Holds plan codec compress done tables inodes listings)
    (hclosed : ∀ other ∈ done, ∀ name child, plan.tree.child? other name = some child →
      child ∈ done) (hnew : id ∉ done)
    (hentries : ∀ name child, plan.tree.child? id name = some child → child ∈ done)
    (hadd : Tables.addNode plan tables id = .ok next) :
    ∃ moreInodes moreListings, Holds plan codec compress (done ++ [id]) next
      (inodes ++ moreInodes) (listings ++ moreListings) := by
  obtain ⟨hids, hinodes, hlistings, hsize, hdescribed⟩ := hholds
  cases hnode : plan.tree.node? id with
  | none =>
      obtain ⟨ids, inodeWriter, directories, refs⟩ := tables
      unfold Tables.addNode at hadd
      rw [hnode] at hadd
      cases hadd
      refine ⟨[], [], hids, by rwa [List.append_nil], by rwa [List.append_nil], hsize, ?_⟩
      rw [List.append_nil, List.append_nil]
      intro other hmem node hother
      rcases List.mem_append.mp hmem with hmem | hmem
      · exact hdescribed other hmem node hother
      · rw [List.mem_singleton.mp hmem, hnode] at hother
        cases hother
  | some node =>
      obtain ⟨body, written, uidIndex, uidIds, gidIndex, gidIds, place, writer, hbody, huid, hgid,
        happend, rfl⟩ := addNode_eq_ok hnode hadd
      obtain ⟨more, hwritten, hlinks, hdirectory, hfile, hsymlink⟩ := addBody_eq_ok hlistings hbody
      obtain ⟨huidValid, huidValue, huidKept⟩ := hids.place huid
      obtain ⟨hgidValid, hgidValue, hgidKept⟩ := huidValid.place hgid
      have hinodesWritten := (hinodes.append happend).1
      have hrecord := hinodes.hasRecord happend
      have hid : id < tables.refs.size := by
        rw [hsize]
        exact Tree.lt_size_of_node? hnode
      -- the node that is written is not among the entries of any node
      have hrefs : ∀ other ∈ done,
          ref (tables.refs.setIfInBounds id place) other = ref tables.refs other := by
        intro other hmem
        refine ref_setIfInBounds_of_ne place ?_
        rintro rfl
        exact hnew hmem
      refine ⟨_, more, hgidValid, hinodesWritten, hwritten, ?_, ?_⟩
      · rw [Array.size_setIfInBounds]
        exact hsize
      · intro other hmem otherNode hother
        rcases List.mem_append.mp hmem with hmem | hmem
        · obtain ⟨inode, hdescribes, hinode⟩ := hdescribed other hmem otherNode hother
          refine ⟨inode, hdescribes.mono ?_ ?_ more, ?_⟩
          · exact fun i value hvalue => hgidKept i value (huidKept i value hvalue)
          · exact fun name child hchild => hrefs child (hclosed other hmem name child hchild)
          · rw [hrefs other hmem]
            exact hinode.append _
        · obtain rfl := List.mem_singleton.mp hmem
          obtain rfl := Option.some.inj (hnode.symm.trans hother)
          have hlisting : listing plan (tables.refs.setIfInBounds other place) other =
              listing plan tables.refs other :=
            listing_congr fun name child hchild => hrefs child (hentries name child hchild)
          rw [ref_setIfInBounds_self place hid]
          refine ⟨_, ?_, hrecord⟩
          refine ⟨rfl, hgidKept _ _ huidValue, hgidValue, rfl, rfl, hlinks, ?_, hfile, hsymlink⟩
          rw [hlisting]
          exact hdirectory

theorem Holds.foldlM {done order : List NodeId} {inodes listings : Bytes}
    (hholds : Holds plan codec compress done tables inodes listings)
    (hclosed : ∀ other ∈ done, ∀ name child, plan.tree.child? other name = some child →
      child ∈ done) (hnodup : (done ++ order).Nodup)
    (hfirst : EntriesFirst plan.tree done order)
    (hfold : order.foldlM (Tables.addNode plan) tables = .ok next) :
    ∃ moreInodes moreListings, Holds plan codec compress (done ++ order) next
      (inodes ++ moreInodes) (listings ++ moreListings) := by
  induction order generalizing done tables inodes listings with
  | nil =>
      cases hfold
      exact ⟨[], [], by simpa using hholds⟩
  | cons id order ih =>
      rw [List.foldlM_cons] at hfold
      obtain ⟨middle, hadd, hfold⟩ := Except.bind_eq_ok.mp hfold
      have hnew : id ∉ done := by
        intro hmem
        exact (List.nodup_append.mp hnodup).2.2 id hmem id List.mem_cons_self rfl
      obtain ⟨someInodes, someListings, hmiddle⟩ := hholds.addNode hclosed hnew hfirst.1 hadd
      rw [← List.singleton_append, ← List.append_assoc] at hnodup
      have hmiddleClosed := EntriesFirst.mem_of_child
        (show EntriesFirst plan.tree done [id] from ⟨hfirst.1, trivial⟩) hclosed
      obtain ⟨restInodes, restListings, hlast⟩ := ih hmiddle hmiddleClosed hnodup hfirst.2 hfold
      rw [List.append_assoc, List.singleton_append] at hlast
      exact ⟨_, _, by rwa [List.append_assoc, List.append_assoc] at hlast⟩

theorem exists_holds_of_ofPlan (htree : plan.tree.WellFormed)
    (hnumbering : plan.numbering = Numbering.ofTree plan.tree)
    (htables : ofPlan codec plan = .ok tables) :
    ∃ inodes listings, Holds plan codec (!plan.options.rawInodes) (postOrder plan.tree) tables
      inodes listings := by
  unfold ofPlan at htables
  have horder : plan.numbering.order = postOrder plan.tree := by
    rw [hnumbering]
    rfl
  rw [horder] at htables
  exact (holds_empty plan codec _).foldlM (fun _ hmem => (nomatch hmem))
    (nodup_postOrder htree) (entriesFirst_postOrder htree) htables

end Tables

end TreeImage.Build
