import TreeImage.Build.Placement
import TreeImage.Proofs.Build.Placement
import TreeImage.Proofs.Staging.Tree

namespace TreeImage.Build

open Format OpenFile
open Staging (NodeId Tree)

variable {storing : Storing} {area next : DataArea} {position : Nat} {words : List UInt32}
  {blocks : List Bytes} {word : UInt32} {block : Bytes}

namespace DataArea

/-- Whether a block is at a position; a block of zeros that is left out is everywhere. -/
def HasSparse (storing : Storing) (area : DataArea) (position : Nat) (word : UInt32)
    (block : Bytes) : Prop :=
  word = 0 ∧ block = List.replicate block.length 0 ∨ HasBlock storing area position word block

/-- Whether blocks stand one after the other from a position on. -/
def HasBlocks (storing : Storing) (area : DataArea) :
    (position : Nat) → List UInt32 → List Bytes → Prop
  | _, [], [] => True
  | position, word :: words, block :: blocks =>
      HasSparse storing area position word block ∧
        HasBlocks storing area (position + storedLength word) words blocks
  | _, _, _ => False

theorem HasSparse.mono (hblock : HasSparse storing area position word block)
    (hmore : area.bytes <+: next.bytes) : HasSparse storing next position word block := by
  exact hblock.imp_right fun hblock => hblock.mono hmore

theorem HasBlocks.mono (hblocks : HasBlocks storing area position words blocks)
    (hmore : area.bytes <+: next.bytes) : HasBlocks storing next position words blocks := by
  induction words generalizing position blocks with
  | nil =>
      cases blocks with
      | nil => exact trivial
      | cons block blocks => exact hblocks
  | cons word words ih =>
      cases blocks with
      | nil => exact hblocks
      | cons block blocks => exact ⟨hblocks.1.mono hmore, ih hblocks.2⟩

theorem HasBlocks.length_eq (hblocks : HasBlocks storing area position words blocks) :
    words.length = blocks.length := by
  induction words generalizing position blocks with
  | nil =>
      cases blocks with
      | nil => rfl
      | cons block blocks => exact hblocks.elim
  | cons word words ih =>
      cases blocks with
      | nil => exact hblocks.elim
      | cons block blocks => rw [List.length_cons, List.length_cons, ih hblocks.2]

theorem HasBlocks.append (hblocks : HasBlocks storing area position words blocks)
    (hblock : HasSparse storing area (position + (words.map storedLength).sum) word block) :
    HasBlocks storing area position (words ++ [word]) (blocks ++ [block]) := by
  induction words generalizing position blocks with
  | nil =>
      cases blocks with
      | nil => exact ⟨hblock, trivial⟩
      | cons other blocks => exact hblocks.elim
  | cons first words ih =>
      cases blocks with
      | nil => exact hblocks.elim
      | cons other blocks =>
          refine ⟨hblocks.1, ih hblocks.2 ?_⟩
          rwa [List.map_cons, List.sum_cons, ← Nat.add_assoc] at hblock

/-- What holds while the blocks of a file are placed, before its tail is. -/
structure Placing (storing : Storing) (before : DataArea) (blocks : List Bytes)
    (placement : Placement) (area : DataArea) : Prop where
  consistent : Consistent storing area
  grows : Grows storing before area
  tail_eq : placement.tail = none
  hasBlocks : HasBlocks storing area placement.start placement.blockSizes.toList blocks
  position_eq :
    placement.start + (placement.blockSizes.toList.map storedLength).sum = area.position
  count_eq : area.fragmentCount = before.fragmentCount

variable {before : DataArea} {placement found : Placement}

theorem Placing.end_le (hplacing : Placing storing before blocks placement area) :
    placement.start + (placement.blockSizes.toList.map storedLength).sum ≤
      superblockSize + area.bytes.length :=
  Nat.le_of_eq (hplacing.position_eq.trans hplacing.consistent.position_eq)

theorem Placing.addBlock (hsized : storing.IsSized)
    (hplacing : Placing storing before blocks placement area) (hblock : block ≠ [])
    (hlength : block.length ≤ storing.blockSize)
    (hwhole : ¬(block.length < storing.blockSize ∧ storing.options.noFragments = false))
    (hadd : (addBlock storing placement block).run area = (.ok found, next)) :
    Placing storing before (blocks ++ [block]) found next := by
  obtain ⟨hconsistent, hgrows, htail, hblocks, hposition, hcount⟩ := hplacing
  rcases addBlock_cases hadd with ⟨hshort, -⟩ | ⟨-, ⟨hzeros, rfl, rfl⟩ | ⟨-, word, hstore, rfl⟩⟩
  · exact absurd hshort hwhole
  · have hreplicate : block = List.replicate block.length 0 := by
      refine List.eq_replicate_iff.mpr ⟨rfl, ?_⟩
      intro b hmem
      exact beq_iff_eq.mp (List.all_eq_true.mp hzeros.2 b hmem)
    refine ⟨hconsistent, hgrows, htail, ?_, ?_, hcount⟩
    · rw [Array.toList_push]
      exact hblocks.append (Or.inl ⟨rfl, hreplicate⟩)
    · simp only [Array.toList_push, List.map_append, List.sum_append]
      exact hposition
  · obtain ⟨frame, rfl, hword, hstored⟩ := store_spec hsized hconsistent hblock hlength hstore
    refine ⟨hconsistent.push frame, hgrows.trans (grows_push area frame), htail, ?_, ?_, hcount⟩
    · rw [Array.toList_push]
      refine (hblocks.mono (prefix_push area frame)).append (Or.inr ?_)
      rwa [hposition]
    · simp only [Array.toList_push, List.map_append, List.sum_append, List.map_singleton,
        List.sum_singleton, hword]
      rw [← Nat.add_assoc, hposition]
      rfl

theorem Placing.of_run (hsized : storing.IsSized) (harea : Consistent storing area)
    (hfull : ∀ block ∈ blocks, block.length = storing.blockSize)
    (hfold : (blocks.foldlM (DataArea.addBlock storing) ⟨area.position, #[], none, 0⟩).run area =
      (.ok found, next)) : Placing storing area blocks found next := by
  have hpositive := hsized.blockSize_pos
  have hstart : Placing storing area [] ⟨area.position, #[], none, 0⟩ area :=
    ⟨harea, grows_refl area, rfl, trivial, rfl, rfl⟩
  refine Action.run_foldlM_invariant ?_ hstart hfold
  intro done placement block area found last hmem hplacing hadd
  have hlength := hfull block hmem
  exact hplacing.addBlock hsized (List.length_pos_iff.mp (by omega)) (by omega) (by omega) hadd

end DataArea

/-- Whether the content of a file is where its placement says. -/
def Placement.Holds (storing : Storing) (area : DataArea) (placement : Placement)
    (content : Bytes) : Prop :=
  ∃ blocks, DataArea.HasBlocks storing area placement.start placement.blockSizes.toList blocks ∧
    placement.start + (placement.blockSizes.toList.map storedLength).sum ≤
      superblockSize + area.bytes.length ∧
    (placement.tail = none ∧ blocksOf storing.blockSize content = blocks ∨
      ∃ ref tail, placement.tail = some ref ∧ tail ≠ [] ∧ tail.length < storing.blockSize ∧
        (∀ block ∈ blocks, block.length = storing.blockSize) ∧
        blocksOf storing.blockSize content = blocks ++ [tail] ∧
        DataArea.HasTail storing area ref tail)

theorem Placement.Holds.mono {placement : Placement} {content : Bytes}
    (hholds : placement.Holds storing area content) (hgrows : DataArea.Grows storing area next) :
    placement.Holds storing next content := by
  obtain ⟨blocks, hblocks, hend, hrest⟩ := hholds
  refine ⟨blocks, hblocks.mono hgrows.bytes,
    Nat.le_trans hend (Nat.add_le_add_left hgrows.bytes.length_le _), ?_⟩
  rcases hrest with hwhole | ⟨ref, tail, href, hne, hlt, hfull, hcut, htail⟩
  · exact Or.inl hwhole
  · exact Or.inr ⟨ref, tail, href, hne, hlt, hfull, hcut, htail.mono hgrows⟩

namespace DataArea

/-- A file is placed, and at most one fragment block is begun for it. -/
theorem addFile_spec (hsized : storing.IsSized) (harea : Consistent storing area)
    {content : Bytes} {placement : Placement}
    (hadd : (addFile storing content).run area = (.ok placement, next)) :
    Consistent storing next ∧ Grows storing area next ∧ placement.Holds storing next content ∧
      next.fragmentCount ≤ area.fragmentCount + 1 := by
  obtain ⟨full, hfull, ⟨hcut, hfold⟩ | ⟨tail, front, middle, hne, hlt, hcut, hfold, hlast⟩⟩ :=
    addFile_cases hsized.blockSize_pos hadd
  · have hplaced := Placing.of_run hsized harea hfull hfold
    exact ⟨hplaced.consistent, hplaced.grows, ⟨full, hplaced.hasBlocks, hplaced.end_le, Or.inl
      ⟨hplaced.tail_eq, hcut⟩⟩, by rw [hplaced.count_eq]; omega⟩
  · have hplaced := Placing.of_run hsized harea hfull hfold
    rcases addBlock_cases hlast with ⟨-, ref, htail, rfl⟩ | ⟨hnotShort, -⟩
    · have hend := hplaced.end_le
      obtain ⟨hconsistent, hgrows, hhas, hcount⟩ := addTail_spec hsized hplaced.consistent hlt htail
      refine ⟨hconsistent, hplaced.grows.trans hgrows, ⟨full, hplaced.hasBlocks.mono hgrows.bytes,
        Nat.le_trans hend (Nat.add_le_add_left hgrows.bytes.length_le _),
        Or.inr ⟨ref, tail, rfl, hne, hlt, hfull, hcut, hhas⟩⟩, ?_⟩
      rw [← hplaced.count_eq]
      exact hcount
    · have hshort := hplaced.addBlock hsized hne (Nat.le_of_lt hlt) hnotShort hlast
      exact ⟨hshort.consistent, hshort.grows, ⟨full ++ [tail], hshort.hasBlocks, hshort.end_le,
        Or.inl ⟨hshort.tail_eq, hcut⟩⟩, by rw [hshort.count_eq]; omega⟩

end DataArea

namespace Contents

variable {tree : Tree} {contents last : Contents} {done : List NodeId} {id : NodeId}

/-- What holds of the contents once the files among some nodes are placed. -/
structure Holds (storing : Storing) (tree : Tree) (done : List NodeId) (contents : Contents) :
    Prop where
  consistent : DataArea.Consistent storing contents.area
  size_placements : contents.placements.size = tree.size
  count_le : contents.area.fragmentCount ≤ done.length
  placed : ∀ id ∈ done, ∀ data attributes, tree.node? id = some ⟨.file data, attributes⟩ →
    (contents.placement id).Holds storing contents.area data.toList

theorem addNode_eq_ok (hadd : (addNode storing tree id).run contents = (.ok (), last)) :
    (∃ data attributes placement area, tree.node? id = some ⟨.file data, attributes⟩ ∧
        (DataArea.addFile storing data.toList).run contents.area = (.ok placement, area) ∧
        last = ⟨area, contents.placements.setIfInBounds id placement⟩) ∨
      (∀ data attributes, tree.node? id ≠ some ⟨.file data, attributes⟩) ∧ last = contents := by
  obtain ⟨area, placements⟩ := contents
  change addNode storing tree id ⟨area, placements⟩ = _ at hadd
  unfold addNode at hadd
  dsimp only at hadd ⊢
  split at hadd
  · rename_i data attributes hnode
    split at hadd
    · cases hadd
    · rename_i placement area hfile
      obtain ⟨-, rfl⟩ := Prod.mk.inj hadd
      exact .inl ⟨data, attributes, placement, area, hnode, hfile, rfl⟩
  · rename_i hother
    obtain ⟨-, rfl⟩ := Prod.mk.inj hadd
    exact .inr ⟨hother, rfl⟩

theorem Holds.addNode (hsized : storing.IsSized) (hholds : Holds storing tree done contents)
    (hadd : (addNode storing tree id).run contents = (.ok (), last)) :
    Holds storing tree (done ++ [id]) last := by
  obtain ⟨hconsistent, hsize, hcount, hplaced⟩ := hholds
  rcases addNode_eq_ok hadd with
    ⟨data, attributes, placement, area, hnode, hfile, rfl⟩ | ⟨hnotFile, rfl⟩
  · obtain ⟨hnext, hgrows, hholds, hbegun⟩ := DataArea.addFile_spec hsized hconsistent hfile
    have hid : id < contents.placements.size := by
      rw [hsize]
      exact Tree.lt_size_of_node? hnode
    refine ⟨hnext, ?_, ?_, ?_⟩
    · rw [Array.size_setIfInBounds]
      exact hsize
    · rw [List.length_append]
      exact Nat.le_trans hbegun (Nat.add_le_add_right hcount 1)
    · intro other hmem otherData otherAttributes hotherFile
      by_cases hsame : id = other
      · subst hsame
        cases hnode.symm.trans hotherFile
        rw [Contents.placement, Array.getElem?_setIfInBounds_self_of_lt hid]
        exact hholds
      · rw [Contents.placement, Array.getElem?_setIfInBounds_ne hsame]
        rcases List.mem_append.mp hmem with hmem | hmem
        · exact (hplaced other hmem otherData otherAttributes hotherFile).mono hgrows
        · exact absurd (List.mem_singleton.mp hmem).symm hsame
  · refine ⟨hconsistent, hsize, ?_, ?_⟩
    · rw [List.length_append]
      exact Nat.le_add_right_of_le hcount
    · intro other hmem data attributes hfile
      rcases List.mem_append.mp hmem with hmem | hmem
      · exact hplaced other hmem data attributes hfile
      · rw [List.mem_singleton.mp hmem] at hfile
        exact absurd hfile (hnotFile data attributes)

theorem holds_empty (storing : Storing) (tree : Tree) :
    Holds storing tree [] (empty tree.size) :=
  ⟨DataArea.consistent_empty storing, Array.size_replicate, Nat.le_refl _, nofun⟩

theorem finish_eq_ok : (finish storing).run contents = (.ok (), last) ↔
    (DataArea.flush storing).run contents.area = (.ok (), last.area) ∧
      last.placements = contents.placements := by
  obtain ⟨area, placements⟩ := contents
  obtain ⟨lastArea, lastPlacements⟩ := last
  change finish storing ⟨area, placements⟩ = _ ↔ _
  unfold finish
  dsimp only
  rcases (DataArea.flush storing).run area with ⟨result, flushed⟩
  constructor
  · rintro ⟨⟩
    exact ⟨rfl, rfl⟩
  · rintro ⟨⟨⟩, rfl⟩
    rfl

theorem holds_addAll (hsized : storing.IsSized) {order : List NodeId}
    (hadd : (addAll storing tree order).run (empty tree.size) = (.ok (), contents)) :
    Holds storing tree order contents ∧ contents.area.tails = #[] := by
  obtain ⟨⟨⟩, placed, hplaced, hfinish⟩ := Action.run_bind_eq_ok.mp hadd
  have hholds : Holds storing tree ([] ++ order) placed :=
    Action.run_forM_invariant (fun done id contents last _ hholds hadd =>
      hholds.addNode hsized hadd) (holds_empty storing tree) hplaced
  rw [List.nil_append] at hholds
  obtain ⟨hflush, hsame⟩ := finish_eq_ok.mp hfinish
  obtain ⟨hconsistent, hgrows, htails, hcount⟩ :=
    DataArea.flush_spec hsized hholds.consistent hflush
  refine ⟨⟨hconsistent, by rw [hsame]; exact hholds.size_placements, ?_, ?_⟩, htails⟩
  · refine Nat.le_trans (Nat.le_of_eq ?_) hholds.count_le
    rw [DataArea.fragmentCount, htails, hcount]
    rfl
  · intro id hmem data attributes hfile
    rw [Contents.placement, hsame]
    exact (hholds.placed id hmem data attributes hfile).mono hgrows

theorem ofTree_eq_ok {order : List NodeId} {writes : List (Nat × Bytes)} :
    ofTree storing tree order = ⟨writes, .ok contents⟩ ↔
      (addAll storing tree order).run (empty tree.size) = (.ok (), contents) ∧
        writes = contents.area.stored.toList := by
  unfold ofTree
  rcases (addAll storing tree order).run (empty tree.size) with ⟨error | ⟨⟩, found⟩
  · constructor
    · rintro ⟨⟩
    · rintro ⟨⟨⟩, -⟩
  · constructor
    · rintro ⟨⟩
      exact ⟨rfl, rfl⟩
    · rintro ⟨⟨⟩, rfl⟩
      rfl

end Contents

section Succeeds

variable (hcodec : storing.codec.Compresses)
include hcodec

theorem DataArea.succeeds_store (raw : Bool) (block : Bytes) :
    Action.Succeeds (store storing raw block) := by
  intro area
  obtain ⟨frame, isCompressed, hframe⟩ : ∃ frame isCompressed,
      (if raw then .ok (block, false) else storing.codec.shrink block) =
        .ok (frame, isCompressed) := by
    cases raw with
    | true => exact ⟨_, _, rfl⟩
    | false => exact hcodec.exists_shrink block
  exact ⟨_, _, store_eq_ok.mpr ⟨frame, isCompressed, hframe, rfl, rfl⟩⟩

theorem DataArea.succeeds_flush : Action.Succeeds (flush storing) := by
  intro area
  obtain ⟨word, stored, hstore⟩ :=
    succeeds_store hcodec storing.options.rawFragments area.tails.toList area
  change ∃ value last, flush storing area = (.ok value, last)
  unfold flush
  split
  · exact ⟨_, _, rfl⟩
  · dsimp only
    rw [show store storing storing.options.rawFragments area.tails.toList area = _ from hstore]
    exact ⟨_, _, rfl⟩

theorem DataArea.succeeds_addTail (tail : Bytes) : Action.Succeeds (addTail storing tail) := by
  intro area
  change ∃ value last, addTail storing tail area = (.ok value, last)
  unfold addTail
  split
  · exact (succeeds_flush hcodec).bind (fun _ _ => ⟨_, _, rfl⟩) area
  · exact ⟨_, _, rfl⟩

theorem DataArea.succeeds_addBlock (placement : Placement) (block : Bytes) :
    Action.Succeeds (addBlock storing placement block) := by
  unfold addBlock
  split
  · exact (succeeds_addTail hcodec block).bind fun _ => Action.succeeds_pure _
  · split
    · exact Action.succeeds_pure _
    · exact (succeeds_store hcodec _ block).bind fun _ => Action.succeeds_pure _

theorem DataArea.succeeds_addFile (content : Bytes) :
    Action.Succeeds (addFile storing content) :=
  fun area => Action.succeeds_foldlM (succeeds_addBlock hcodec) _ _ area

namespace Contents

theorem succeeds_addNode (tree : Tree) (id : NodeId) :
    Action.Succeeds (addNode storing tree id) := by
  rintro ⟨area, placements⟩
  change ∃ value last, addNode storing tree id ⟨area, placements⟩ = (.ok value, last)
  unfold addNode
  dsimp only
  split
  · rename_i data attributes hfile
    obtain ⟨placement, next, hadd⟩ := DataArea.succeeds_addFile hcodec data.toList area
    rw [hadd]
    exact ⟨_, _, rfl⟩
  · exact ⟨_, _, rfl⟩

theorem succeeds_finish : Action.Succeeds (finish storing) := by
  intro contents
  obtain ⟨value, area, hflush⟩ := DataArea.succeeds_flush hcodec contents.area
  exact ⟨(), ⟨area, contents.placements⟩, finish_eq_ok.mpr ⟨hflush, rfl⟩⟩

theorem succeeds_addAll (tree : Tree) (order : List NodeId) :
    Action.Succeeds (addAll storing tree order) :=
  (Action.succeeds_forM (succeeds_addNode hcodec tree) order).bind fun _ => succeeds_finish hcodec

end Contents

end Succeeds

end TreeImage.Build
