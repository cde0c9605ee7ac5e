import Mathlib.Data.List.Forall2
import TreeImage.Proofs.Build.Extents

namespace TreeImage.Build

open Format OpenFile

variable {storing : Storing}

namespace Storing

/-- Whether the form of a block is among the stored blocks, at a position and with a size word. -/
def Stores (storing : Storing) (stored : List (Nat × Bytes)) (raw : Bool) (part : Nat × UInt32)
    (block : Bytes) : Prop :=
  ∃ frame, (part.1, frame) ∈ stored ∧ storing.IsForm raw block frame part.2

/-- Whether a data block is where it should be: blocks of zeros are left out if this was asked for,
and others are stored. -/
def PutsDown (storing : Storing) (stored : List (Nat × Bytes)) (part : Nat × UInt32)
    (block : Bytes) : Prop :=
  if storing.options.sparse ∧ block.all (· == 0) then part.2 = 0
  else storing.Stores stored storing.options.rawData part block

variable {stored more : List (Nat × Bytes)} {raw : Bool} {part : Nat × UInt32} {block : Bytes}

theorem Stores.mono (hmore : stored ⊆ more) (hstores : storing.Stores stored raw part block) :
    storing.Stores more raw part block := by
  obtain ⟨frame, hmem, hform⟩ := hstores
  exact ⟨frame, hmore hmem, hform⟩

theorem PutsDown.mono (hmore : stored ⊆ more) (hputs : storing.PutsDown stored part block) :
    storing.PutsDown more part block := by
  unfold PutsDown at *
  split at hputs
  · rwa [if_pos (by assumption)]
  · rw [if_neg (by assumption)]
    exact hputs.mono hmore

end Storing

/-- How many bytes are in the blocks with the size word zero. -/
def leftOut (words : List UInt32) (blocks : List Bytes) : Nat :=
  ((words.zip blocks).map fun part => if part.1 = 0 then part.2.length else 0).sum

theorem leftOut_append {words more : List UInt32} {blocks others : List Bytes}
    (hlength : words.length = blocks.length) :
    leftOut (words ++ more) (blocks ++ others) = leftOut words blocks + leftOut more others := by
  simp [leftOut, List.zip_append hlength]

/-- Whether fragment blocks only got longer, and more of them came after those that were there. -/
def GrowTo (payloads others : List Bytes) : Prop :=
  ∀ (index : Nat) (payload : Bytes), payloads[index]? = some payload →
    ∃ more, others[index]? = some (payload ++ more)

theorem growTo_append (payloads more : List Bytes) : GrowTo payloads (payloads ++ more) := by
  intro index payload hpayload
  refine ⟨[], ?_⟩
  rw [List.append_nil, List.getElem?_append_left (List.getElem?_eq_some_iff.mp hpayload).1,
    hpayload]

theorem growTo_concat (payloads : List Bytes) (payload more : Bytes) :
    GrowTo (payloads ++ [payload]) (payloads ++ [payload ++ more]) := by
  intro index found hfound
  rw [List.getElem?_append] at hfound
  rw [List.getElem?_append]
  split
  · rw [if_pos (by assumption)] at hfound
    exact ⟨[], by rwa [List.append_nil]⟩
  · rw [if_neg (by assumption), List.getElem?_singleton] at hfound
    rw [List.getElem?_singleton]
    split at hfound
    · cases hfound
      exact ⟨more, if_pos (by assumption)⟩
    · cases hfound

/-- Whether a reference into the fragment block with a number leads to some bytes.  Its word for the
block is that number as far as it fits. -/
structure TailRef.LeadsTo (payloads : List Bytes) (number : Nat) (ref : TailRef) (tail : Bytes) :
    Prop where
  fragment_eq : ref.fragment = UInt32.ofNat number
  exists_payload : ∃ payload, payloads[number]? = some payload ∧
    ref.offset.toNat + ref.length.toNat ≤ payload.length ∧
    (payload.drop ref.offset.toNat).take ref.length.toNat = tail

theorem TailRef.LeadsTo.mono {payloads others : List Bytes} {number : Nat} {ref : TailRef}
    {tail : Bytes} (hgrow : GrowTo payloads others) (hleads : ref.LeadsTo payloads number tail) :
    ref.LeadsTo others number tail := by
  obtain ⟨hfragment, payload, hpayload, hinside, rfl⟩ := hleads
  obtain ⟨more, hmore⟩ := hgrow _ _ hpayload
  refine ⟨hfragment, payload ++ more, hmore, ?_, ?_⟩
  · rw [List.length_append]
    omega
  · rw [List.drop_append_of_le_length (by omega), List.take_append_of_le_length]
    rw [List.length_drop]
    omega

/-- Whether a placement says where the content of a file is.  A short last block is in the fragment
block with a number if these are used, and there is a size word for each other block. -/
structure Placement.Places (storing : Storing) (stored : List (Nat × Bytes))
    (payloads : List Bytes) (placement : Placement) (number : Nat) (content : Bytes) : Prop where
  puts : List.Forall₂ (storing.PutsDown stored)
    (positioned placement.start placement.blockSizes.toList)
    ((blocksOf storing.blockSize content).take placement.blockSizes.size)
  sparse_eq : placement.sparse = leftOut placement.blockSizes.toList
    ((blocksOf storing.blockSize content).take placement.blockSizes.size)
  parts :
    if content.length % storing.blockSize ≠ 0 ∧ storing.options.noFragments = false then
      placement.blockSizes.size = content.length / storing.blockSize ∧
        ∃ ref, placement.tail = some ref ∧
          ref.length.toNat = content.length % storing.blockSize ∧
          ref.LeadsTo payloads number
            (content.drop (content.length / storing.blockSize * storing.blockSize))
    else
      placement.blockSizes.size = (content.length + storing.blockSize - 1) / storing.blockSize ∧
        placement.tail = none

namespace Placement.Places

variable {stored more : List (Nat × Bytes)} {payloads others : List Bytes} {placement : Placement}
  {number other : Nat} {content front tail : Bytes}

theorem mono (hmore : stored ⊆ more) (hgrow : GrowTo payloads others)
    (hplaces : placement.Places storing stored payloads number content) :
    placement.Places storing more others number content := by
  obtain ⟨hputs, hsparse, hparts⟩ := hplaces
  refine ⟨hputs.imp fun _ _ => Storing.PutsDown.mono hmore, hsparse, ?_⟩
  split at hparts
  · obtain ⟨hsize, ref, href, hlength, hleads⟩ := hparts
    rw [if_pos (by assumption)]
    exact ⟨hsize, ref, href, hlength, hleads.mono hgrow⟩
  · rwa [if_neg (by assumption)]

section FullBlocks

variable (hplaces : placement.Places storing stored payloads number front)
  (hpositive : 0 < storing.blockSize) (hfront : storing.blockSize ∣ front.length)
include hplaces hfront

theorem parts_of_dvd : placement.blockSizes.size =
      (front.length + storing.blockSize - 1) / storing.blockSize ∧ placement.tail = none := by
  have hparts := hplaces.parts
  rwa [if_neg fun hshort => hshort.1 (Nat.mod_eq_zero_of_dvd hfront)] at hparts

include hpositive

/-- A file of full blocks gets a short last block that is in a fragment block. -/
theorem withTail (hfragments : storing.options.noFragments = false) (hne : tail ≠ [])
    (hlt : tail.length < storing.blockSize) {ref : TailRef}
    (hlength : ref.length.toNat = tail.length)
    (hleads : ref.LeadsTo others other tail) :
    { placement with tail := some ref }.Places storing stored others other (front ++ tail) := by
  have hsize := (hplaces.parts_of_dvd hfront).1
  have hcount : placement.blockSizes.size = (blocksOf storing.blockSize front).length := by
    rw [hsize, length_blocksOf (Nat.ne_of_gt hpositive)]
  obtain ⟨blocks, hblocks⟩ := hfront
  have htail := List.length_pos_iff.mpr hne
  have hcut : blocksOf storing.blockSize (front ++ tail) =
      blocksOf storing.blockSize front ++ [tail] := by
    rw [blocksOf_append (Nat.ne_of_gt hpositive) ⟨blocks, hblocks⟩,
      blocksOf_of_length_le hne (Nat.le_of_lt hlt)]
  have htake : (blocksOf storing.blockSize (front ++ tail)).take placement.blockSizes.size =
      (blocksOf storing.blockSize front).take placement.blockSizes.size := by
    rw [hcut, List.take_append_of_le_length (Nat.le_of_eq hcount)]
  have hall : (front ++ tail).length = storing.blockSize * blocks + tail.length := by
    rw [List.length_append, hblocks]
  have hmod : (front ++ tail).length % storing.blockSize = tail.length := by
    rw [hall, Nat.mul_add_mod, Nat.mod_eq_of_lt hlt]
  have hdiv : (front ++ tail).length / storing.blockSize = blocks := by
    rw [hall, Nat.mul_add_div hpositive, Nat.div_eq_of_lt hlt, Nat.add_zero]
  have hwords : placement.blockSizes.size = blocks := by
    rw [hsize, hblocks, Nat.add_sub_assoc hpositive, Nat.mul_add_div hpositive,
      Nat.div_eq_of_lt (by omega), Nat.add_zero]
  refine ⟨?_, ?_, ?_⟩
  · rw [htake]
    exact hplaces.puts
  · rw [htake]
    exact hplaces.sparse_eq
  · rw [if_pos ⟨by omega, hfragments⟩, hdiv, hmod, Nat.mul_comm, ← hblocks, List.drop_left]
    exact ⟨hwords, ref, rfl, hlength, hleads⟩

end FullBlocks

end Placement.Places

/-- What blocks that are not put aside as tails add to an area, and to the placement of their
file. -/
structure PutsBlocks (storing : Storing) (before : DataArea) (blocks : List Bytes)
    (placement : Placement) (area : DataArea) : Prop where
  start_eq : placement.start = before.position
  tail_eq : placement.tail = none
  position_eq : area.position = placement.start + (placement.blockSizes.toList.map storedLength).sum
  extents_eq : area.extents = before.extents ++ placement.extents
  stored_subset : before.stored.toList ⊆ area.stored.toList
  tails_eq : area.tails = before.tails
  fragments_eq : area.fragments = before.fragments
  puts : List.Forall₂ (storing.PutsDown area.stored.toList)
    (positioned placement.start placement.blockSizes.toList) blocks
  sparse_eq : placement.sparse = leftOut placement.blockSizes.toList blocks

namespace PutsBlocks

variable {before area next : DataArea} {placement found : Placement} {blocks : List Bytes}

theorem length_eq (hputs : PutsBlocks storing before blocks placement area) :
    placement.blockSizes.toList.length = blocks.length := by
  rw [← hputs.puts.length_eq, length_positioned]

theorem start (storing : Storing) (before : DataArea) :
    PutsBlocks storing before [] ⟨before.position, #[], none, 0⟩ before :=
  ⟨rfl, rfl, rfl, by simp [Placement.extents, extentsOf, positioned], List.Subset.refl _, rfl, rfl,
    .nil, rfl⟩

theorem addBlock (hproper : storing.IsProper)
    (hputs : PutsBlocks storing before blocks placement area) {block : Bytes} (hblock : block ≠ [])
    (hlength : block.length ≤ storing.blockSize)
    (hwhole : ¬(block.length < storing.blockSize ∧ storing.options.noFragments = false))
    (hadd : (DataArea.addBlock storing placement block).run area = (.ok found, next)) :
    PutsBlocks storing before (blocks ++ [block]) found next := by
  have hcount := hputs.length_eq
  obtain ⟨start, words, tail, sparse⟩ := placement
  obtain ⟨hstart, htail, hposition, hextents, hsubset, htails, hfragments, hblocks, hsparse⟩ :=
    hputs
  dsimp only [Placement.extents] at *
  rcases DataArea.addBlock_cases hadd with
    ⟨hshort, -⟩ | ⟨-, ⟨hzeros, rfl, rfl⟩ | ⟨hother, word, hstore, rfl⟩⟩
  · exact absurd hshort hwhole
  · refine ⟨hstart, htail, ?_, ?_, hsubset, htails, hfragments, ?_, ?_⟩
    · simpa [storedLength] using hposition
    · simp only [Placement.extents, Array.toList_push, extentsOf_append]
      simpa [extentsOf, positioned] using hextents
    · rw [Array.toList_push, positioned_append]
      refine List.rel_append hblocks (.cons ?_ .nil)
      exact (if_pos hzeros).mpr rfl
    · rw [Array.toList_push, leftOut_append hcount, ← hsparse]
      simp [leftOut]
  · obtain ⟨frame, rfl, hform⟩ := DataArea.store_form hproper hblock hlength hstore
    have hmore : area.stored.toList ⊆ (area.push frame).stored.toList := by
      simp [DataArea.push]
    refine ⟨hstart, htail, ?_, ?_, List.Subset.trans hsubset hmore, htails, hfragments, ?_, ?_⟩
    · simp only [Array.toList_push, List.map_append, List.sum_append, List.map_singleton,
        List.sum_singleton, hform.storedLength_eq]
      rw [← Nat.add_assoc, ← hposition]
      rfl
    · simp only [Placement.extents, Array.toList_push, extentsOf_append, ← hposition]
      rw [DataArea.extents_push, hextents, List.append_assoc]
      simp [extentsOf, positioned, hform.word_ne_zero, hform.storedLength_eq]
    · rw [Array.toList_push, positioned_append, ← hposition]
      refine List.rel_append (hblocks.imp fun _ _ => Storing.PutsDown.mono hmore) (.cons ?_ .nil)
      refine (if_neg hother).mpr ⟨frame, ?_, hform⟩
      simp [DataArea.push]
    · rw [Array.toList_push, leftOut_append hcount, ← hsparse]
      simp [leftOut, hform.word_ne_zero]

theorem of_run (hproper : storing.IsProper)
    (hfull : ∀ block ∈ blocks, block.length = storing.blockSize)
    (hfold : (blocks.foldlM (DataArea.addBlock storing) ⟨before.position, #[], none, 0⟩).run
      before = (.ok found, next)) : PutsBlocks storing before blocks found next := by
  have hpositive := hproper.blockSize_pos
  refine Action.run_foldlM_invariant ?_ (start storing before) hfold
  intro done placement block area found last hmem hputs hadd
  have hlength := hfull block hmem
  exact hputs.addBlock hproper (List.length_pos_iff.mp (by omega)) (by omega) (by omega) hadd

end PutsBlocks

end TreeImage.Build
