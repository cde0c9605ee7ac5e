import TreeImage.Build.Placement
import TreeImage.Image.OpenFile
import TreeImage.Proofs.Bytes.Blocks
import TreeImage.Proofs.Codec.Basic
import TreeImage.Proofs.Storage.Stored

namespace TreeImage.Build

open Format OpenFile

/-- Whether size words have room for the length of a block. -/
structure Storing.IsSized (storing : Storing) : Prop where
  blockSize_pos : 0 < storing.blockSize
  blockSize_lt : storing.blockSize < dataRaw

namespace DataArea

def bytes (area : DataArea) : Bytes := area.stored.toList.flatMap Prod.snd

def sizeWord (frame : Bytes) (isCompressed : Bool) : UInt32 :=
  UInt32.ofNat (frame.length + if isCompressed then 0 else dataRaw)

def Has (area : DataArea) (position : Nat) (frame : Bytes) : Prop :=
  ∃ front rest, area.bytes = front ++ (frame ++ rest) ∧ position = superblockSize + front.length

/-- Whether an area has the stored form of a block at a position. -/
def HasBlock (storing : Storing) (area : DataArea) (position : Nat) (word : UInt32)
    (block : Bytes) : Prop :=
  ∃ frame isCompressed, storing.codec.IsForm frame isCompressed block ∧
    word = sizeWord frame isCompressed ∧ block ≠ [] ∧ block.length ≤ storing.blockSize ∧
      area.Has position frame

def HasFragment (storing : Storing) (area : DataArea) (index : Nat) (block : Bytes) : Prop :=
  ∃ start word, area.fragments[index]? = some ⟨UInt64.ofNat start, word⟩ ∧
    HasBlock storing area start word block

/-- Whether the fragment block with an index, which is stored or begun, starts with some bytes. -/
def HasTails (storing : Storing) (area : DataArea) (index : Nat) (tails : Bytes) : Prop :=
  (∃ block, tails <+: block ∧ HasFragment storing area index block) ∨
    index = area.fragments.size ∧ tails <+: area.tails.toList

def fragmentCount (area : DataArea) : Nat :=
  area.fragments.size + if area.tails.isEmpty then 0 else 1

/-- What holds of every area. -/
structure Consistent (storing : Storing) (area : DataArea) : Prop where
  position_eq : area.position = superblockSize + area.bytes.length
  lays : Region.Lays superblockSize area.stored.toList area.bytes
  tails_le : area.tails.size ≤ storing.blockSize
  fragments : ∀ index < area.fragments.size, ∃ block, HasFragment storing area index block

/-- What an area keeps while more is stored. -/
structure Grows (storing : Storing) (area next : DataArea) : Prop where
  bytes : area.bytes <+: next.bytes
  tails : ∀ index tails, HasTails storing area index tails → HasTails storing next index tails

variable {storing : Storing} {area next : DataArea} {position : Nat} {word : UInt32}
  {block frame : Bytes} {isCompressed : Bool}

theorem grows_refl (area : DataArea) : Grows storing area area :=
  ⟨List.prefix_rfl, fun _ _ h => h⟩

theorem Grows.trans {last : DataArea} (hgrows : Grows storing area next)
    (hnext : Grows storing next last) : Grows storing area last :=
  ⟨hgrows.bytes.trans hnext.bytes, fun index tails h => hnext.tails index tails
    (hgrows.tails index tails h)⟩

theorem Has.mono (hhas : area.Has position frame) (hmore : area.bytes <+: next.bytes) :
    next.Has position frame := by
  obtain ⟨front, rest, hbytes, hposition⟩ := hhas
  obtain ⟨more, hmore⟩ := hmore
  refine ⟨front, rest ++ more, ?_, hposition⟩
  rw [← hmore, hbytes, List.append_assoc, List.append_assoc]

theorem HasBlock.mono (hblock : HasBlock storing area position word block)
    (hmore : area.bytes <+: next.bytes) : HasBlock storing next position word block := by
  obtain ⟨frame, isCompressed, hform, hword, hne, hlength, hhas⟩ := hblock
  exact ⟨frame, isCompressed, hform, hword, hne, hlength, hhas.mono hmore⟩

theorem length_lt_of_isForm (hsized : storing.IsSized)
    (hform : storing.codec.IsForm frame isCompressed block)
    (hlength : block.length ≤ storing.blockSize) : frame.length < dataRaw :=
  Nat.lt_of_le_of_lt (Nat.le_trans hform.length_le hlength) hsized.blockSize_lt

section SizeWord

variable (hframe : frame.length < dataRaw)
include hframe

theorem toNat_sizeWord :
    (sizeWord frame isCompressed).toNat = frame.length + if isCompressed then 0 else dataRaw := by
  rw [sizeWord, UInt32.toNat_ofNat']
  unfold dataRaw at *
  split
  all_goals omega

theorem storedLength_sizeWord : storedLength (sizeWord frame isCompressed) = frame.length := by
  rw [storedLength, toNat_sizeWord hframe]
  unfold dataRaw at *
  split
  all_goals omega

theorem isRaw_sizeWord : isRaw (sizeWord frame isCompressed) = !isCompressed := by
  rw [isRaw, toNat_sizeWord hframe]
  unfold dataRaw at *
  cases isCompressed with
  | true =>
      rw [if_pos rfl, Nat.div_eq_of_lt (by omega)]
      rfl
  | false =>
      rw [if_neg (by simp), Nat.add_div_right _ (by decide), Nat.div_eq_of_lt (by omega)]
      rfl

theorem sizeWord_ne_zero (hne : frame ≠ []) : sizeWord frame isCompressed ≠ 0 := by
  intro hzero
  have hpositive := List.length_pos_iff.mpr hne
  have hstored : storedLength (sizeWord frame isCompressed) = frame.length :=
    storedLength_sizeWord hframe
  rw [hzero] at hstored
  change 0 % dataRaw = _ at hstored
  rw [Nat.zero_mod] at hstored
  omega

end SizeWord

def push (area : DataArea) (frame : Bytes) : DataArea :=
  { area with
    position := area.position + frame.length
    stored := area.stored.push (area.position, frame) }

@[simp] theorem bytes_push (area : DataArea) (frame : Bytes) :
    (area.push frame).bytes = area.bytes ++ frame := by
  simp [bytes, push]

theorem prefix_push (area : DataArea) (frame : Bytes) : area.bytes <+: (area.push frame).bytes := by
  rw [bytes_push]
  exact List.prefix_append _ _

theorem HasFragment.mono {index : Nat} (hfragment : HasFragment storing area index block)
    (hsame : area.fragments[index]? = next.fragments[index]?)
    (hmore : area.bytes <+: next.bytes) : HasFragment storing next index block := by
  obtain ⟨start, word, hentry, hblock⟩ := hfragment
  exact ⟨start, word, hsame ▸ hentry, hblock.mono hmore⟩

theorem HasFragment.push {index : Nat} (hfragment : HasFragment storing area index block)
    (frame : Bytes) : HasFragment storing (area.push frame) index block :=
  hfragment.mono rfl (prefix_push area frame)

theorem consistent_empty (storing : Storing) : Consistent storing empty :=
  ⟨rfl, Region.lays_nil _, Nat.zero_le _, fun _ hindex => nomatch hindex⟩

theorem Consistent.push (harea : Consistent storing area) (frame : Bytes) :
    Consistent storing (area.push frame) := by
  refine ⟨?_, ?_, harea.tails_le, fun index hindex => ?_⟩
  · rw [bytes_push, List.length_append, ← Nat.add_assoc, ← harea.position_eq]
    rfl
  · rw [bytes_push]
    change Region.Lays _ (area.stored.push (area.position, frame)).toList _
    rw [Array.toList_push]
    refine harea.lays.append ?_
    rw [← harea.position_eq]
    exact Region.lays_singleton _ _
  · obtain ⟨block, hfragment⟩ := harea.fragments index hindex
    exact ⟨block, hfragment.push frame⟩

theorem store_eq_ok {raw : Bool} : (store storing raw block).run area = (.ok word, next) ↔
    ∃ frame isCompressed,
      (if raw then .ok (block, false) else storing.codec.shrink block) =
        .ok (frame, isCompressed) ∧
      word = sizeWord frame isCompressed ∧ next = area.push frame := by
  change store storing raw block area = _ ↔ _
  unfold store
  dsimp only
  cases (if raw then .ok (block, false) else storing.codec.shrink block : Except Error _) with
  | error error =>
      constructor
      · rintro ⟨⟩
      · rintro ⟨_, _, ⟨⟩, -⟩
  | ok shrunk =>
      constructor
      · intro hstore
        obtain ⟨hword, rfl⟩ := Prod.mk.inj hstore
        exact ⟨shrunk.1, shrunk.2, rfl, (Except.ok.inj hword).symm, rfl⟩
      · rintro ⟨_, _, ⟨⟩, rfl, rfl⟩
        rfl

theorem isForm_of_stored {raw : Bool}
    (hstored : (if raw then .ok (block, false) else storing.codec.shrink block) =
      .ok (frame, isCompressed)) : storing.codec.IsForm frame isCompressed block := by
  cases raw with
  | true =>
      cases hstored
      exact rfl
  | false => exact Codec.isForm_of_shrink hstored

theorem store_spec (hsized : storing.IsSized) (harea : Consistent storing area) {raw : Bool}
    (hblock : block ≠ []) (hlength : block.length ≤ storing.blockSize)
    (hstore : (store storing raw block).run area = (.ok word, next)) :
    ∃ frame, next = area.push frame ∧ storedLength word = frame.length ∧
      HasBlock storing next area.position word block := by
  obtain ⟨frame, isCompressed, hstored, rfl, rfl⟩ := store_eq_ok.mp hstore
  have hform := isForm_of_stored hstored
  exact ⟨frame, rfl, storedLength_sizeWord (length_lt_of_isForm hsized hform hlength), frame,
    isCompressed, hform, rfl, hblock, hlength, area.bytes, [], by simp, harea.position_eq⟩

theorem grows_push (area : DataArea) (frame : Bytes) : Grows storing area (area.push frame) := by
  refine ⟨prefix_push area frame, ?_⟩
  rintro index tails (⟨block, hprefix, hfragment⟩ | hbegun)
  · exact Or.inl ⟨block, hprefix, hfragment.push frame⟩
  · exact Or.inr hbegun

/-- The area whose fragment block was stored and has its entry. -/
def endFragment (area : DataArea) (entry : FragmentEntry) : DataArea :=
  { area with tails := #[], fragments := area.fragments.push entry }

@[simp] theorem tails_endFragment (area : DataArea) (entry : FragmentEntry) :
    (area.endFragment entry).tails = #[] := rfl

@[simp] theorem size_fragments_endFragment (area : DataArea) (entry : FragmentEntry) :
    (area.endFragment entry).fragments.size = area.fragments.size + 1 :=
  Array.size_push entry

theorem HasFragment.endFragment {index : Nat} (hfragment : HasFragment storing area index block)
    (entry : FragmentEntry) : HasFragment storing (area.endFragment entry) index block := by
  obtain ⟨start, word, hentry, -⟩ := id hfragment
  refine hfragment.mono ?_ List.prefix_rfl
  change _ = (area.fragments.push entry)[index]?
  rw [Array.getElem?_push, if_neg (Nat.ne_of_lt (Array.getElem?_eq_some_iff.mp hentry).1)]

theorem flush_eq_ok (hflush : (flush storing).run area = (.ok (), next)) :
    area.tails = #[] ∧ next = area ∨
      area.tails ≠ #[] ∧ ∃ word stored,
        (store storing storing.options.rawFragments area.tails.toList).run area =
          (.ok word, stored) ∧
        next = stored.endFragment ⟨UInt64.ofNat area.position, word⟩ := by
  change flush storing area = _ at hflush
  unfold flush at hflush
  by_cases hempty : area.tails.isEmpty = true
  · rw [if_pos hempty] at hflush
    obtain ⟨-, rfl⟩ := Prod.mk.inj hflush
    exact .inl ⟨Array.isEmpty_iff.mp hempty, rfl⟩
  · rw [if_neg hempty] at hflush
    refine .inr ⟨fun hnone => hempty (Array.isEmpty_iff.mpr hnone), ?_⟩
    dsimp only at hflush
    split at hflush
    · cases hflush
    · rename_i word _ _ _ _ hstore
      obtain ⟨-, rfl⟩ := Prod.mk.inj hflush
      exact ⟨word, _, hstore, rfl⟩

theorem flush_spec (hsized : storing.IsSized) (harea : Consistent storing area)
    (hflush : (flush storing).run area = (.ok (), next)) :
    Consistent storing next ∧ Grows storing area next ∧ next.tails = #[] ∧
      next.fragments.size = area.fragmentCount := by
  unfold fragmentCount
  rcases flush_eq_ok hflush with ⟨hempty, rfl⟩ | ⟨hne, word, stored, hstore, rfl⟩
  · rw [if_pos (Array.isEmpty_iff.mpr hempty)]
    exact ⟨harea, grows_refl _, hempty, rfl⟩
  · rw [if_neg (fun hempty => hne (Array.isEmpty_iff.mp hempty))]
    obtain ⟨frame, rfl, -, hblock⟩ := store_spec hsized harea (by simpa using hne) harea.tails_le
      hstore
    have hpushed := harea.push frame
    have hnew : HasFragment storing
        ((area.push frame).endFragment ⟨UInt64.ofNat area.position, word⟩) area.fragments.size
          area.tails.toList :=
      ⟨area.position, word, Array.getElem?_push_size, hblock⟩
    refine ⟨⟨hpushed.position_eq, hpushed.lays, Nat.zero_le _, fun index hindex => ?_⟩,
      ⟨prefix_push area frame, ?_⟩, rfl, Array.size_push _⟩
    · rcases Nat.lt_or_ge index area.fragments.size with hbefore | hlast
      · obtain ⟨block, hfragment⟩ := hpushed.fragments index hbefore
        exact ⟨block, hfragment.endFragment _⟩
      · have hsize : index < area.fragments.size + 1 := by
          rwa [size_fragments_endFragment] at hindex
        obtain rfl : index = area.fragments.size := by omega
        exact ⟨_, hnew⟩
    · rintro index tails (⟨block, hprefix, hfragment⟩ | ⟨rfl, hprefix⟩)
      · exact .inl ⟨block, hprefix, (hfragment.push frame).endFragment _⟩
      · exact .inl ⟨_, hprefix, hnew⟩

/-- Whether the tail of a file is where its reference says.  The word of the reference is the index
of the fragment block as far as it fits. -/
def HasTail (storing : Storing) (area : DataArea) (ref : TailRef) (tail : Bytes) : Prop :=
  ref.length.toNat = tail.length ∧
    ∃ index before, ref.fragment = UInt32.ofNat index ∧ before.length = ref.offset.toNat ∧
      HasTails storing area index (before ++ tail)

theorem HasTail.mono {ref : TailRef} {tail : Bytes} (htail : HasTail storing area ref tail)
    (hgrows : Grows storing area next) : HasTail storing next ref tail := by
  obtain ⟨hlength, index, before, hindex, hbefore, htails⟩ := htail
  exact ⟨hlength, index, before, hindex, hbefore, hgrows.tails _ _ htails⟩

theorem grows_pushAll (area : DataArea) (tail : Bytes) :
    Grows storing area { area with tails := area.tails.pushAll tail } := by
  refine ⟨List.prefix_rfl, ?_⟩
  rintro index tails (hstored | ⟨rfl, hprefix⟩)
  · exact Or.inl hstored
  · refine Or.inr ⟨rfl, ?_⟩
    rw [Buffer.toList_pushAll]
    exact hprefix.trans (List.prefix_append _ _)

/-- A tail goes into an area in which there is room for it, which is the one before it or the one
after the fragment block was stored. -/
theorem addTail_eq_ok {tail : Bytes} {ref : TailRef} (hshort : tail.length ≤ storing.blockSize)
    (hadd : (addTail storing tail).run area = (.ok ref, next)) :
    ∃ roomy, (roomy = area ∨ (flush storing).run area = (.ok (), roomy)) ∧
      roomy.tails.size + tail.length ≤ storing.blockSize ∧
      ref = ⟨UInt32.ofNat roomy.fragments.size, UInt32.ofNat roomy.tails.size,
        UInt32.ofNat tail.length⟩ ∧
      next = { roomy with tails := roomy.tails.pushAll tail } := by
  change addTail storing tail area = _ at hadd
  unfold addTail at hadd
  by_cases hfull : storing.blockSize < area.tails.size + tail.length
  · rw [if_pos hfull] at hadd
    obtain ⟨⟨⟩, roomy, hflush, hput⟩ := Action.run_bind_eq_ok.mp hadd
    obtain ⟨href, rfl⟩ := Prod.mk.inj hput
    refine ⟨roomy, .inr hflush, ?_, (Except.ok.inj href).symm, rfl⟩
    rcases flush_eq_ok hflush with ⟨hempty, -⟩ | ⟨-, word, stored, -, rfl⟩
    · rw [hempty] at hfull
      simp only [Array.size_empty] at hfull
      omega
    · simpa using hshort
  · rw [if_neg hfull] at hadd
    obtain ⟨href, rfl⟩ := Prod.mk.inj hadd
    exact ⟨area, .inl rfl, Nat.le_of_not_lt hfull, (Except.ok.inj href).symm, rfl⟩

theorem addTail_spec (hsized : storing.IsSized) (harea : Consistent storing area) {tail : Bytes}
    {ref : TailRef} (hshort : tail.length < storing.blockSize)
    (hadd : (addTail storing tail).run area = (.ok ref, next)) :
    Consistent storing next ∧ Grows storing area next ∧ HasTail storing next ref tail ∧
      next.fragmentCount ≤ area.fragmentCount + 1 := by
  obtain ⟨roomy, hroomy, hroom, rfl, rfl⟩ := addTail_eq_ok (Nat.le_of_lt hshort) hadd
  obtain ⟨hconsistent, hgrows, hcount⟩ : Consistent storing roomy ∧ Grows storing area roomy ∧
      roomy.fragments.size ≤ area.fragmentCount := by
    rcases hroomy with rfl | hflush
    · exact ⟨harea, grows_refl _, Nat.le_add_right _ _⟩
    · obtain ⟨hconsistent, hgrows, -, hcount⟩ := flush_spec hsized harea hflush
      exact ⟨hconsistent, hgrows, Nat.le_of_eq hcount⟩
  have hsize := hsized.blockSize_lt
  unfold dataRaw at hsize
  refine ⟨⟨hconsistent.position_eq, hconsistent.lays, ?_, hconsistent.fragments⟩,
    hgrows.trans (grows_pushAll roomy tail), ⟨?_, _, roomy.tails.toList, rfl, ?_,
    Or.inr ⟨rfl, ?_⟩⟩, ?_⟩
  · change (roomy.tails.pushAll tail).size ≤ storing.blockSize
    rwa [← Array.length_toList, Buffer.toList_pushAll, List.length_append, Array.length_toList]
  · exact UInt32.toNat_ofNat_of_lt' (by unfold UInt32.size; omega)
  · rw [Array.length_toList]
    exact (UInt32.toNat_ofNat_of_lt' (by unfold UInt32.size; omega)).symm
  · exact ⟨[], by rw [Buffer.toList_pushAll, List.append_nil]⟩
  · refine Nat.le_trans ?_ (Nat.add_le_add_right hcount 1)
    unfold fragmentCount
    dsimp only
    split
    all_goals omega

/-- A short block is put aside as a tail if fragment blocks are used; another one gets a size word,
which is zero if the block is left out. -/
theorem addBlock_cases {placement found : Placement}
    (hadd : (addBlock storing placement block).run area = (.ok found, next)) :
    (block.length < storing.blockSize ∧ storing.options.noFragments = false) ∧
        (∃ ref, (addTail storing block).run area = (.ok ref, next) ∧
          found = { placement with tail := some ref }) ∨
      ¬(block.length < storing.blockSize ∧ storing.options.noFragments = false) ∧
        ((storing.options.sparse = true ∧ block.all (· == 0) = true) ∧ next = area ∧
            found = { placement with
              blockSizes := placement.blockSizes.push 0
              sparse := placement.sparse + block.length } ∨
          ¬(storing.options.sparse = true ∧ block.all (· == 0) = true) ∧
            ∃ word, (store storing storing.options.rawData block).run area = (.ok word, next) ∧
              found = { placement with blockSizes := placement.blockSizes.push word }) := by
  unfold addBlock at hadd
  simp only [Bool.not_eq_true'] at hadd
  split at hadd
  · rename_i hshort
    obtain ⟨ref, middle, htail, hfound⟩ := Action.run_bind_eq_ok.mp hadd
    cases hfound
    exact .inl ⟨hshort, ref, htail, rfl⟩
  · rename_i hwhole
    refine .inr ⟨hwhole, ?_⟩
    split at hadd
    · rename_i hzeros
      cases hadd
      exact .inl ⟨hzeros, rfl, rfl⟩
    · rename_i hother
      obtain ⟨word, middle, hstore, hfound⟩ := Action.run_bind_eq_ok.mp hadd
      cases hfound
      exact .inr ⟨hother, word, hstore, rfl⟩

theorem addFile_cases (hpositive : 0 < storing.blockSize) {content : Bytes} {placement : Placement}
    (hadd : (addFile storing content).run area = (.ok placement, next)) :
    ∃ full, (∀ block ∈ full, block.length = storing.blockSize) ∧
      (blocksOf storing.blockSize content = full ∧
          (full.foldlM (addBlock storing) ⟨area.position, #[], none, 0⟩).run area =
            (.ok placement, next) ∨
        ∃ tail front middle, tail ≠ [] ∧ tail.length < storing.blockSize ∧
          blocksOf storing.blockSize content = full ++ [tail] ∧
          (full.foldlM (addBlock storing) ⟨area.position, #[], none, 0⟩).run area =
            (.ok front, middle) ∧
          (addBlock storing front tail).run middle = (.ok placement, next)) := by
  change ((blocksOf storing.blockSize content).foldlM (addBlock storing)
    ⟨area.position, #[], none, 0⟩).run area = _ at hadd
  obtain ⟨full, hfull, hcut⟩ := exists_full_blocks (Nat.ne_of_gt hpositive) content
  refine ⟨full, hfull, ?_⟩
  rcases hcut with hcut | ⟨tail, hne, hlt, hcut⟩
  · rw [hcut] at hadd
    exact .inl ⟨hcut, hadd⟩
  · rw [hcut] at hadd
    obtain ⟨front, middle, hfront, hlast⟩ := Action.run_foldlM_concat hadd
    exact .inr ⟨tail, front, middle, hne, hlt, hcut, hfront, hlast⟩

end DataArea

end TreeImage.Build
