import Mathlib.Data.List.Nodup
import TreeImage.Proofs.Image.Numbers
import TreeImage.Proofs.Staging.Walk

namespace TreeImage

open Build Format Staging Walk

namespace Image

theorem block_lt_of_readInode {image : Image} {ref : RecordRef} {inode : Inode}
    (hread : image.readInode ref = .ok inode) : ref.block.toNat < image.inodeTable.size := by
  obtain ⟨cursor, hcursor, -⟩ := Except.bind_eq_ok.mp hread
  obtain ⟨⟨payload, stored⟩, hblock, -⟩ := Except.bind_eq_ok.mp hcursor
  obtain ⟨address, haddress, hblock⟩ := Except.bind_eq_ok.mp hblock
  obtain ⟨-, rfl⟩ := Trapping.eq_of_add_eq_ok haddress
  obtain ⟨hend, -⟩ := Table.readBlock_eq_ok.mp hblock
  unfold RecordTable.size
  omega

/-- The number of a place among all places of inodes. -/
def placeNumber (ref : RecordRef) : Nat := ref.block.toNat * 2 ^ 16 + ref.offset.toNat

theorem eq_of_placeNumber_eq {ref other : RecordRef}
    (hsame : placeNumber ref = placeNumber other) : ref = other := by
  obtain ⟨block, offset⟩ := ref
  obtain ⟨otherBlock, otherOffset⟩ := other
  have hoffset := offset.toNat_lt
  have hotherOffset := otherOffset.toNat_lt
  unfold placeNumber at hsame
  dsimp only at hsame
  have hblock : block.toNat = otherBlock.toNat := by omega
  have hoffsets : offset.toNat = otherOffset.toNat := by omega
  rw [UInt32.toNat_inj.mp hblock, UInt16.toNat_inj.mp hoffsets]

theorem placeNumber_lt_of_readInode {image : Image} {ref : RecordRef} {inode : Inode}
    (hread : image.readInode ref = .ok inode) : placeNumber ref < image.inodePlaces := by
  have hblock : ref.block.toNat + 1 ≤ image.inodeTable.size := block_lt_of_readInode hread
  have hbound := Nat.mul_le_mul_right (2 ^ 16) hblock
  have hoffset := ref.offset.toNat_lt
  rw [Nat.add_one_mul] at hbound
  rw [inodePlaces, placeNumber]
  omega

variable {image : Image} {codec : Codec} {blockSize : UInt32} {plan : Plan} {tables : Tables}
  {inodes listings : Bytes}

section Carried

variable (hcarries : image.Carries codec blockSize plan tables inodes listings)
  (hrecords : Records codec blockSize plan tables inodes listings)
include hcarries hrecords

theorem Carries.isListedBy : plan.tree.IsListedBy image.source := by
  intro path id hlookup hdirectory
  have hnode := Array.getElem?_eq_getElem (Tree.lt_size_of_isDirectory hdirectory)
  obtain ⟨entries, hentries, hsame, -⟩ :=
    (hcarries.shows hrecords hlookup hnode).entries hdirectory
  rw [Tree.source_of_lookup hlookup hdirectory, Image.source, hentries, Except.ok_bind]
  have hmapped := congrArg (List.map fun pair : String × EntryKind => (⟨pair.1, pair.2⟩ : Entry))
    hsame
  rw [List.map_map, List.map_map] at hmapped
  exact congrArg Except.ok hmapped

theorem Carries.exists_inode_of_lt {id : NodeId} (hid : id < plan.tree.size) :
    ∃ inode, image.readInode (Tables.ref tables.refs id) = .ok inode ∧
      inode.inodeNumber = plan.numbering.number id := by
  have hnode := Array.getElem?_eq_getElem hid
  have hmem := hrecords.mem_order_iff.mpr hid
  obtain ⟨inode, hread, hdescribes⟩ := hcarries.readInode hrecords hmem hnode
  exact ⟨inode, hread, hdescribes.inodeNumber⟩

/-- The places of the inodes of two nodes are different, because their numbers are. -/
theorem Carries.injOn_placeNumber (hnumbering : plan.numbering = Numbering.ofTree plan.tree) :
    Set.InjOn (fun id => placeNumber (Tables.ref tables.refs id)) (Set.Iio plan.tree.size) := by
  intro id hid other hother hsame
  obtain ⟨inode, hread, hnumber⟩ := hcarries.exists_inode_of_lt hrecords hid
  obtain ⟨found, hfound, hotherNumber⟩ := hcarries.exists_inode_of_lt hrecords hother
  rw [eq_of_placeNumber_eq hsame, hfound] at hread
  obtain rfl := Except.ok.inj hread
  have hinjective := (Numbering.bijOn_number hrecords.wellFormed hrecords.size_lt).injOn
  rw [← hnumbering] at hinjective
  exact hinjective hid hother (congrArg UInt32.toNat (hnumber.symm.trans hotherNumber))

theorem Carries.size_le_inodePlaces (hnumbering : plan.numbering = Numbering.ofTree plan.tree) :
    plan.tree.size ≤ image.inodePlaces := by
  have hinjective := hcarries.injOn_placeNumber hrecords hnumbering
  have hnodup : ((List.range plan.tree.size).map fun id =>
      placeNumber (Tables.ref tables.refs id)).Nodup :=
    List.Nodup.map_on (fun id hid other hother hsame =>
      hinjective (List.mem_range.mp hid) (List.mem_range.mp hother) hsame) List.nodup_range
  have hsubset : ((List.range plan.tree.size).map fun id =>
      placeNumber (Tables.ref tables.refs id)) ⊆ List.range image.inodePlaces := by
    intro place hmem
    obtain ⟨id, hid, rfl⟩ := List.mem_map.mp hmem
    obtain ⟨inode, hread, -⟩ := hcarries.exists_inode_of_lt hrecords (List.mem_range.mp hid)
    exact List.mem_range.mpr (placeNumber_lt_of_readInode hread)
  have hlength := hnodup.length_le_of_subset hsubset
  rwa [List.length_map, List.length_range, List.length_range] at hlength

theorem Carries.walk_eq (hnumbering : plan.numbering = Numbering.ofTree plan.tree) {path : String}
    {id : NodeId} (hlookup : plan.tree.lookup path = .ok id)
    (hdirectory : plan.tree.isDirectory id = true) {σ : Type} (visit : Visitor σ) :
    image.walk path visit = plan.tree.walk path visit := by
  have hplaces := hcarries.size_le_inodePlaces hrecords hnumbering
  have hdepth : plan.tree.size ≤ image.walkDepth := by
    rw [walkDepth, Nat.add_one_mul]
    exact Nat.le_add_left_of_le hplaces
  exact Tree.walk_eq hrecords.wellFormed hlookup hdirectory (hcarries.isListedBy hrecords) hdepth
    visit

end Carried

end Image

namespace Builder

/-- From every directory of the tree, a walk over an image that was finalized in memory is the walk
over the tree, for every visitor: it makes the same visits, ends with the same result and leaves the
same state.  No visit tells of a failure, and the walk fails only if the visitor does. -/
theorem walks_of_finalize {codecs : Codecs} (hcodecs : codecs.All Codec.IsFaithful)
    {prior : Bytes} {start size : Nat} {blockSize time : UInt32} {clock : NodeId → UInt32}
    {options : Options} {builder last : Builder} {codec : Codec}
    (hcodec : options.algorithm.codec codecs = .ok codec)
    (hcreate : create (Storage.ofBytes prior) start size blockSize clock = .ok builder)
    (edits : List Edit)
    (hfinalize : (finalize codecs time options).run (builder.editAll edits) = (.ok (), last))
    (hnodes : (builder.editAll edits).tree.size < 2 ^ 32 - 1)
    (hlistings : ∀ id < (builder.editAll edits).tree.size,
      (listingBytes codec blockSize (builder.editAll edits).tree options id).length <
        2 ^ 32 - 3) :
    ∃ image, Image.ofRegion codecs (Region.ofStorage last.region.storage start 0) = .ok image ∧
      ∀ path id, (builder.editAll edits).tree.lookup path = .ok id →
        (builder.editAll edits).tree.isDirectory id = true →
          (∀ (σ : Type) (visit : Visitor σ),
            image.walk path visit = (builder.editAll edits).tree.walk path visit) ∧
          ∀ answer, Clears answer (image.walk path (Visitor.ofHistory answer)) := by
  obtain ⟨plan, tables, layout, image, inodes, listings, hmade, hopened, hcarries, hrecords⟩ :=
    exists_image_of_finalize hcodecs hcodec hcreate edits hfinalize hnodes hlistings
  obtain ⟨htree, hoptions⟩ := hmade.tree_eq
  refine ⟨image, hopened, ?_⟩
  rw [← htree]
  intro path id hlookup hdirectory
  have hsame {σ : Type} (visit : Visitor σ) : image.walk path visit = plan.tree.walk path visit :=
    hcarries.walk_eq hrecords hmade.numbering_eq hlookup hdirectory visit
  refine ⟨fun σ visit => hsame visit, fun answer => ?_⟩
  rw [hsame]
  exact Tree.clears_walk hrecords.wellFormed hlookup hdirectory answer

/-- The sample image is walked as the sample tree is, and without failures. -/
theorem walks_sample :
    ∃ last image,
      (finalize Codecs.machine 9 sampleOptions).run (sampleBuilder.editAll sampleEdits) =
          (.ok (), last) ∧
        Image.ofRegion Codecs.machine (Region.ofStorage last.region.storage 5 0) = .ok image ∧
        ∀ answer, image.walk "/d" (Visitor.ofHistory answer) =
            (sampleBuilder.editAll sampleEdits).tree.walk "/d" (Visitor.ofHistory answer) ∧
          ∀ visit ∈ ((image.walk "/d" (Visitor.ofHistory answer)).run []).2, visit.IsClear := by
  obtain ⟨last, hrun⟩ := finalize_sample
  obtain ⟨image, hopened, hwalks⟩ := walks_of_finalize Codec.isFaithful_machine rfl
    create_sample sampleEdits hrun (by decide +kernel) listings_sample
  have hlookup : (sampleBuilder.editAll sampleEdits).tree.lookup "/d" = .ok 1 :=
    Except.eq_ok_of_toOption (by decide +kernel)
  obtain ⟨hsame, hclears⟩ := hwalks "/d" 1 hlookup (by decide +kernel)
  refine ⟨last, image, hrun, hopened, fun answer => ⟨hsame _ _, ?_⟩⟩
  exact (hclears answer [] fun _ hmem => absurd hmem List.not_mem_nil).1

end Builder

end TreeImage
