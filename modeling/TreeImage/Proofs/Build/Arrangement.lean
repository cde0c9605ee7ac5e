import TreeImage.Proofs.Build.FileBlocks
import TreeImage.Proofs.Codec.FrameLimit

namespace TreeImage.Build

open Format OpenFile

variable {storing : Storing}

/-- A fragment block that is stored. -/
structure Packed where
  start : Nat
  word : UInt32
  payload : Bytes

namespace Packed

def entry (packed : Packed) : FragmentEntry := ⟨UInt64.ofNat packed.start, packed.word⟩

def extent (packed : Packed) : Extent := ⟨packed.start, storedLength packed.word⟩

end Packed

/-- What fragment blocks hold; the last one is that which has been begun. -/
def payloadsOf (packed : List Packed) (area : DataArea) : List Bytes :=
  packed.map Packed.payload ++ [area.tails.toList]

theorem getD_concat (payloads : List Bytes) (payload : Bytes) (index : Nat) :
    (payloads ++ [payload])[index]?.getD [] =
      if index = payloads.length then payload else payloads[index]?.getD [] := by
  rw [List.getElem?_append]
  split
  · rw [if_neg (by omega)]
  · rw [List.getElem?_singleton, List.getElem?_eq_none (by omega)]
    by_cases hindex : index = payloads.length
    · rw [if_pos hindex, if_pos (by omega)]
      rfl
    · rw [if_neg hindex, if_neg (by omega)]

/-- The parts of a fragment block that files refer to, if each file has the number of the fragment
block with its tail. -/
def partsOf (index : Nat) (numbered : List (Placement × Nat)) : List Extent :=
  ((numbered.filter (·.2 = index)).filterMap (·.1.tail)).map TailRef.extent

theorem partsOf_append (index : Nat) (front back : List (Placement × Nat)) :
    partsOf index (front ++ back) = partsOf index front ++ partsOf index back := by
  simp [partsOf]

theorem partsOf_of_tail_eq_none {placement : Placement} (htail : placement.tail = none)
    (index number : Nat) : partsOf index [(placement, number)] = [] := by
  by_cases hnumber : number = index
  · simp [partsOf, hnumber, htail]
  · simp [partsOf, hnumber]

structure Arranged (storing : Storing) (start : Nat) (contents : List Bytes)
    (numbered : List (Placement × Nat)) (area : DataArea) (packed : List Packed) : Prop where
  tiles : Extent.Tiles start area.extents area.position
  perm : (numbered.flatMap (·.1.extents) ++ packed.map Packed.extent).Perm area.extents
  entries_eq : area.fragments.toList = packed.map Packed.entry
  stored : ∀ block ∈ packed, block.payload ≠ [] ∧ block.payload.length ≤ storing.blockSize ∧
    storing.Stores area.stored.toList storing.options.rawFragments (block.start, block.word)
      block.payload
  tails_le : area.tails.size ≤ storing.blockSize
  files : List.Forall₂ (fun content (placed : Placement × Nat) =>
    placed.1.Places storing area.stored.toList (payloadsOf packed area) placed.2 content)
    contents numbered
  covers : ∀ index, Extent.Tiles 0 (partsOf index numbered)
    ((payloadsOf packed area)[index]?.getD []).length

theorem forall₂_concat {α β : Type} {R : α → β → Prop} {xs : List α} {ys : List β} {x : α} {y : β} :
    List.Forall₂ R (xs ++ [x]) (ys ++ [y]) ↔ List.Forall₂ R xs ys ∧ R x y := by
  rw [← List.forall₂_reverse_iff, List.reverse_concat, List.reverse_concat, List.forall₂_cons,
    List.forall₂_reverse_iff, and_comm]

theorem exists_of_forall₂_of_mem {α β : Type} {R : α → β → Prop} {xs : List α} {ys : List β}
    (hrelated : List.Forall₂ R xs ys) {y : β} (hmem : y ∈ ys) : ∃ x, R x y := by
  induction hrelated with
  | nil => cases hmem
  | cons hfirst _ ih =>
      rcases List.mem_cons.mp hmem with rfl | hmem
      · exact ⟨_, hfirst⟩
      · exact ih hmem

namespace Arranged

variable {start : Nat} {contents : List Bytes} {numbered : List (Placement × Nat)}
  {area next : DataArea} {packed : List Packed} {content : Bytes} {placement : Placement}

theorem size_fragments (harranged : Arranged storing start contents numbered area packed) :
    area.fragments.size = packed.length := by
  rw [← Array.length_toList, harranged.entries_eq, List.length_map]

theorem addBlocks (harranged : Arranged storing start contents numbered area packed)
    (hpositive : 0 < storing.blockSize)
    (hputs : PutsBlocks storing area (blocksOf storing.blockSize content) placement next)
    (hwhole : ¬(content.length % storing.blockSize ≠ 0 ∧ storing.options.noFragments = false))
    (number : Nat) :
    Arranged storing start (contents ++ [content]) (numbered ++ [(placement, number)]) next
      packed := by
  have hcount := hputs.length_eq
  rw [Array.length_toList] at hcount
  have hpayloads : payloadsOf packed next = payloadsOf packed area := by
    rw [payloadsOf, hputs.tails_eq, payloadsOf]
  obtain ⟨htiles, hperm, hentries, hpacked, htails, hfiles, hcovers⟩ := harranged
  refine ⟨?_, ?_, hputs.fragments_eq ▸ hentries, ?_, hputs.tails_eq ▸ htails, ?_, ?_⟩
  · rw [hputs.extents_eq, hputs.position_eq]
    refine htiles.append ?_
    rw [← hputs.start_eq]
    exact tiles_extentsOf ..
  · rw [hputs.extents_eq, List.flatMap_append, List.flatMap_singleton, List.append_assoc]
    refine .trans ((List.perm_append_comm).append_left _) ?_
    rw [← List.append_assoc]
    exact hperm.append_right _
  · intro block hmem
    obtain ⟨hne, hle, hstores⟩ := hpacked block hmem
    exact ⟨hne, hle, hstores.mono hputs.stored_subset⟩
  · rw [hpayloads]
    refine forall₂_concat.mpr ⟨hfiles.imp fun _ _ hplaces => hplaces.mono hputs.stored_subset
      fun _ payload hpayload => ⟨[], by rwa [List.append_nil]⟩, ⟨?_, ?_, ?_⟩⟩
    · rw [hcount, List.take_length]
      exact hputs.puts
    · rw [hcount, List.take_length]
      exact hputs.sparse_eq
    · rw [if_neg hwhole, hcount, length_blocksOf (Nat.ne_of_gt hpositive)]
      exact ⟨rfl, hputs.tail_eq⟩
  · intro index
    rw [hpayloads, partsOf_append, partsOf_of_tail_eq_none hputs.tail_eq, List.append_nil]
    exact hcovers index

theorem flush (hproper : storing.IsProper)
    (harranged : Arranged storing start contents numbered area packed)
    (hflush : (DataArea.flush storing).run area = (.ok (), next)) :
    ∃ more, Arranged storing start contents numbered next (packed ++ more) ∧ next.tails = #[] := by
  rcases DataArea.flush_eq_ok hflush with ⟨hempty, rfl⟩ | ⟨hbegun, word, stored, hstore, rfl⟩
  · exact ⟨[], by rwa [List.append_nil], hempty⟩
  · have hne : area.tails.toList ≠ [] := by simpa using hbegun
    obtain ⟨htiles, hperm, hentries, hpacked, htails, hfiles, hcovers⟩ := harranged
    obtain ⟨frame, rfl, hform⟩ := DataArea.store_form hproper hne htails hstore
    have hmore : area.stored.toList ⊆ (area.push frame).stored.toList := by
      simp [DataArea.push]
    -- the block that was begun keeps its index, and an empty one comes after it
    have hgrow := growTo_append (payloadsOf packed area) [[]]
    refine ⟨[⟨area.position, word, area.tails.toList⟩], ⟨?_, ?_, ?_, ?_, Nat.zero_le _, ?_, ?_⟩,
      rfl⟩
    · change Extent.Tiles start (area.push frame).extents (area.position + frame.length)
      rw [DataArea.extents_push]
      exact htiles.append ⟨rfl, rfl⟩
    · change List.Perm _ (area.push frame).extents
      rw [DataArea.extents_push, List.map_append, ← List.append_assoc]
      refine hperm.append ?_
      simp [Packed.extent, hform.storedLength_eq]
    · change (area.fragments.push _).toList = _
      rw [Array.toList_push, hentries, List.map_append]
      rfl
    · intro block hmem
      rcases List.mem_append.mp hmem with hmem | hmem
      · obtain ⟨hbefore, hle, hstores⟩ := hpacked block hmem
        exact ⟨hbefore, hle, hstores.mono hmore⟩
      · obtain rfl := List.mem_singleton.mp hmem
        exact ⟨hne, htails, frame, by simp [DataArea.endFragment, DataArea.push], hform⟩
    · refine hfiles.imp fun _ _ hplaces => ?_
      have hkept := hplaces.mono hmore hgrow
      simpa [payloadsOf, DataArea.endFragment] using hkept
    · intro index
      have hsame : (payloadsOf packed area ++ [[]])[index]?.getD [] =
          (payloadsOf packed area)[index]?.getD [] := by
        rw [getD_concat]
        split
        · rw [List.getElem?_eq_none (by omega)]
          rfl
        · rfl
      have hcover := hcovers index
      rw [← hsame] at hcover
      simpa [payloadsOf] using hcover

/-- A file gets a tail that fits into the fragment block that has been begun. -/
theorem putTail {front tail : Bytes} {number : Nat} (hproper : storing.IsProper)
    (harranged : Arranged storing start (contents ++ [front])
      (numbered ++ [(placement, number)]) area packed)
    (hfragments : storing.options.noFragments = false) (hfront : storing.blockSize ∣ front.length)
    (hne : tail ≠ []) (hlt : tail.length < storing.blockSize)
    (hroom : area.tails.size + tail.length ≤ storing.blockSize) :
    Arranged storing start (contents ++ [front ++ tail])
      (numbered ++ [({ placement with
        tail := some ⟨UInt32.ofNat area.fragments.size, UInt32.ofNat area.tails.size,
          UInt32.ofNat tail.length⟩ }, area.fragments.size)])
      { area with tails := area.tails.pushAll tail } packed := by
  have hcount := harranged.size_fragments
  have hsize := hproper.blockSize_lt
  unfold dataRaw at hsize
  have hoffset : (UInt32.ofNat area.tails.size).toNat = area.tails.size :=
    UInt32.toNat_ofNat_of_lt' (by unfold UInt32.size; omega)
  have hlength : (UInt32.ofNat tail.length).toNat = tail.length :=
    UInt32.toNat_ofNat_of_lt' (by unfold UInt32.size; omega)
  obtain ⟨htiles, hperm, hentries, hstored, -, hfiles, hcovers⟩ := harranged
  obtain ⟨hfiles, hlast⟩ := forall₂_concat.mp hfiles
  have hnone := (hlast.parts_of_dvd hfront).2
  have hpayloads : payloadsOf packed { area with tails := area.tails.pushAll tail } =
      packed.map Packed.payload ++ [area.tails.toList ++ tail] := by
    rw [payloadsOf, Buffer.toList_pushAll]
  refine ⟨htiles, ?_, hentries, hstored, ?_, ?_, ?_⟩
  · rw [List.flatMap_append] at hperm ⊢
    exact hperm
  · change (area.tails.pushAll tail).size ≤ storing.blockSize
    rwa [← Array.length_toList, Buffer.toList_pushAll, List.length_append, Array.length_toList]
  · rw [hpayloads]
    refine forall₂_concat.mpr ⟨hfiles.imp fun _ _ hplaces => hplaces.mono (List.Subset.refl _)
      (growTo_concat (packed.map Packed.payload) area.tails.toList tail), ?_⟩
    refine hlast.withTail (by omega) hfront hfragments hne hlt hlength
      ⟨rfl, area.tails.toList ++ tail, ?_, ?_, ?_⟩
    · simp [hcount]
    · simp [hoffset, hlength]
    · rw [hoffset, hlength, List.drop_left' Array.length_toList, List.take_length]
  · intro index
    have hcover := hcovers index
    rw [partsOf_append, partsOf_of_tail_eq_none hnone, List.append_nil, payloadsOf, getD_concat,
      List.length_map] at hcover
    rw [partsOf_append, hpayloads, getD_concat, List.length_map]
    by_cases hindex : index = packed.length
    · rw [if_pos hindex] at hcover ⊢
      rw [List.length_append]
      refine hcover.append ?_
      simp [partsOf, hcount, hindex, TailRef.extent, Extent.Tiles, hoffset, hlength]
    · rw [if_neg hindex] at hcover ⊢
      refine hcover.append ?_
      simp [partsOf, hcount, Ne.symm hindex, Extent.Tiles]

theorem addFile (hproper : storing.IsProper)
    (harranged : Arranged storing start contents numbered area packed)
    (hadd : (DataArea.addFile storing content).run area = (.ok placement, next)) :
    ∃ number more, Arranged storing start (contents ++ [content])
      (numbered ++ [(placement, number)]) next (packed ++ more) := by
  have hpositive := hproper.blockSize_pos
  have hcontent := flatten_blocksOf (Nat.ne_of_gt hpositive) content
  obtain ⟨full, hfull, ⟨hcut, hfold⟩ | ⟨tail, front, middle, hne, hlt, hcut, hfold, hlast⟩⟩ :=
    DataArea.addFile_cases hpositive hadd
  · have hplaced := PutsBlocks.of_run hproper hfull hfold
    have hdvd : storing.blockSize ∣ content.length := by
      rw [← hcontent, hcut]
      exact ⟨full.length, by rw [length_flatten_of_length hfull, Nat.mul_comm]⟩
    rw [← hcut] at hplaced
    refine ⟨0, [], ?_⟩
    rw [List.append_nil]
    exact harranged.addBlocks hpositive hplaced (fun hparts =>
      hparts.1 (Nat.mod_eq_zero_of_dvd hdvd)) 0
  · have hplaced := PutsBlocks.of_run hproper hfull hfold
    have hdvd : storing.blockSize ∣ full.flatten.length :=
      ⟨full.length, by rw [length_flatten_of_length hfull, Nat.mul_comm]⟩
    rw [hcut, List.flatten_append, List.flatten_singleton] at hcontent
    rcases DataArea.addBlock_cases hlast with
      ⟨⟨-, hfragments⟩, ref, htail, rfl⟩ | ⟨hnotShort, -⟩
    · have hfront : blocksOf storing.blockSize full.flatten = full := by
        rw [← hcontent, blocksOf_append (Nat.ne_of_gt hpositive) hdvd,
          blocksOf_of_length_le hne (Nat.le_of_lt hlt)] at hcut
        exact List.append_cancel_right hcut
      rw [← hfront] at hplaced
      have hbefore := harranged.addBlocks hpositive hplaced (fun hparts =>
        hparts.1 (Nat.mod_eq_zero_of_dvd hdvd)) 0
      rw [← hcontent]
      obtain ⟨roomy, hroomy, hroom, rfl, rfl⟩ := DataArea.addTail_eq_ok (Nat.le_of_lt hlt) htail
      rcases hroomy with rfl | hflush
      · refine ⟨roomy.fragments.size, [], ?_⟩
        rw [List.append_nil]
        exact hbefore.putTail hproper hfragments hdvd hne hlt hroom
      · obtain ⟨more, hflushed, -⟩ := hbefore.flush hproper hflush
        exact ⟨_, more, hflushed.putTail hproper hfragments hdvd hne hlt hroom⟩
    · have hshort := hplaced.addBlock hproper hne (Nat.le_of_lt hlt) hnotShort hlast
      rw [← hcut] at hshort
      refine ⟨0, [], ?_⟩
      rw [List.append_nil]
      refine harranged.addBlocks hpositive hshort (fun hparts => hnotShort ⟨hlt, hparts.2⟩) 0

theorem mapM_addFile (hproper : storing.IsProper)
    (harranged : Arranged storing start contents numbered area packed) {others : List Bytes}
    {placements : List Placement}
    (hadd : (others.mapM (DataArea.addFile storing)).run area = (.ok placements, next)) :
    ∃ added more, added.map Prod.fst = placements ∧
      Arranged storing start (contents ++ others) (numbered ++ added) next (packed ++ more) := by
  induction others generalizing contents numbered area packed placements with
  | nil =>
      cases hadd
      exact ⟨[], [], rfl, by simpa using harranged⟩
  | cons content others ih =>
      obtain ⟨placement, rest, middle, hfirst, hrest, rfl⟩ := Action.run_mapM_cons hadd
      obtain ⟨number, stored, hplaced⟩ := harranged.addFile hproper hfirst
      obtain ⟨added, more, rfl, hmore⟩ := ih hplaced hrest
      refine ⟨(placement, number) :: added, stored ++ more, rfl, ?_⟩
      simpa only [List.append_assoc, List.singleton_append] using hmore

end Arranged

def DataArea.startingAt (position : Nat) : DataArea := ⟨position, #[], #[], #[]⟩

theorem arranged_startingAt (storing : Storing) (start : Nat) :
    Arranged storing start [] [] (DataArea.startingAt start) [] :=
  ⟨rfl, .nil, rfl, nofun, Nat.zero_le _, .nil, fun index => by
    cases index with
    | zero => rfl
    | succ index => rfl⟩

/-- Where the contents of files are after all of them were placed, given what the fragment blocks
hold and the number of the fragment block with the tail of each file. -/
structure Arrangement (storing : Storing) (start : Nat) (contents : List Bytes)
    (numbered : List (Placement × Nat)) (area : DataArea) (payloads : List Bytes) : Prop where
  /-- The stored blocks tile the area. -/
  tiles : Extent.Tiles start area.extents area.position
  /-- They are the data blocks of the files and the fragment blocks. -/
  perm : (numbered.flatMap (·.1.extents) ++ area.fragments.toList.map fragmentExtent).Perm
    area.extents
  files : List.Forall₂ (fun content (placed : Placement × Nat) =>
    placed.1.Places storing area.stored.toList payloads placed.2 content) contents numbered
  fragments : List.Forall₂
    (fun entry payload => payload ≠ [] ∧ payload.length ≤ storing.blockSize ∧
      storing.Stores area.stored.toList storing.options.rawFragments
        (entry.start.toNat, entry.size) payload)
    area.fragments.toList payloads
  /-- The tails that refer to a fragment block tile it. -/
  tails : ∀ index payload, payloads[index]? = some payload →
    Extent.Tiles 0 (partsOf index numbered) payload.length
  /-- The word for the fragment block with a tail is that of a block, and of the right one unless
  there are more blocks than words. -/
  words : ∀ placed ∈ numbered, ∀ ref, placed.1.tail = some ref →
    ref.fragment.toNat < area.fragments.size ∧
      (area.fragments.size ≤ 2 ^ 32 → ref.fragment.toNat = placed.2)

theorem Placement.Places.of_concat_nil {stored : List (Nat × Bytes)} {payloads : List Bytes}
    {placement : Placement} {number : Nat} {content : Bytes}
    (hplaces : placement.Places storing stored (payloads ++ [[]]) number content) :
    placement.Places storing stored payloads number content := by
  obtain ⟨hputs, hsparse, hparts⟩ := hplaces
  refine ⟨hputs, hsparse, ?_⟩
  split at hparts
  · rename_i hshort
    rw [if_pos hshort]
    obtain ⟨hsize, ref, href, hlength, hfragment, payload, hpayload, hinside, htail⟩ := hparts
    refine ⟨hsize, ref, href, hlength, hfragment, payload, ?_, hinside, htail⟩
    rw [List.getElem?_append] at hpayload
    split at hpayload
    · exact hpayload
    · obtain rfl := List.mem_singleton.mp (List.mem_of_getElem? hpayload)
      rw [List.length_nil] at hinside
      omega
  · rename_i hwhole
    rwa [if_neg hwhole]

theorem TailRef.LeadsTo.fragment_lt {payloads : List Bytes} {number : Nat} {ref : TailRef}
    {tail : Bytes} (hleads : ref.LeadsTo payloads number tail) :
    ref.fragment.toNat < payloads.length ∧
      (payloads.length ≤ 2 ^ 32 → ref.fragment.toNat = number) := by
  obtain ⟨hfragment, payload, hpayload, -⟩ := hleads
  have hnumber : number < payloads.length := (List.getElem?_eq_some_iff.mp hpayload).1
  rw [hfragment, UInt32.toNat_ofNat']
  exact ⟨Nat.lt_of_le_of_lt (Nat.mod_le _ _) hnumber, fun hfit =>
    Nat.mod_eq_of_lt (Nat.lt_of_lt_of_le hnumber hfit)⟩

theorem Placement.Places.leadsTo {stored : List (Nat × Bytes)} {payloads : List Bytes}
    {placement : Placement} {number : Nat} {content : Bytes} {ref : TailRef}
    (hplaces : placement.Places storing stored payloads number content)
    (href : placement.tail = some ref) : ∃ tail, ref.LeadsTo payloads number tail := by
  have hparts := hplaces.parts
  split at hparts
  · obtain ⟨-, found, hfound, -, hleads⟩ := hparts
    obtain rfl := Option.some.inj (hfound.symm.trans href)
    exact ⟨_, hleads⟩
  · cases hparts.2.symm.trans href

theorem Arranged.arrangement {start : Nat} {contents : List Bytes}
    {numbered : List (Placement × Nat)} {area : DataArea} {packed : List Packed}
    (harranged : Arranged storing start contents numbered area packed) (hnone : area.tails = #[])
    (hend : area.position < addressSpace) :
    Arrangement storing start contents numbered area (packed.map Packed.payload) := by
  have hcount := harranged.size_fragments
  obtain ⟨htiles, hperm, hentries, hstored, -, hfiles, hcovers⟩ := harranged
  have hpayloads : payloadsOf packed area = packed.map Packed.payload ++ [[]] := by
    rw [payloadsOf, hnone]
  have hstart : ∀ block ∈ packed, block.entry.start.toNat = block.start := by
    intro block hmem
    obtain ⟨-, -, frame, hframe, -⟩ := hstored block hmem
    have hextent : ⟨block.start, frame.length⟩ ∈ area.extents := List.mem_map_of_mem hframe
    have hle := htiles.end_le hextent
    exact UInt64.toNat_ofNat_of_lt' (Nat.lt_of_le_of_lt (Nat.le_trans (Nat.le_add_right _ _) hle)
      hend)
  have hplaced : List.Forall₂ (fun content (placed : Placement × Nat) =>
      placed.1.Places storing area.stored.toList (packed.map Packed.payload) placed.2 content)
      contents numbered := by
    rw [hpayloads] at hfiles
    exact hfiles.imp fun _ _ hplaces => hplaces.of_concat_nil
  refine ⟨htiles, ?_, hplaced, ?_, ?_, ?_⟩
  · have hextents : area.fragments.toList.map fragmentExtent = packed.map Packed.extent := by
      rw [hentries, List.map_map]
      refine List.map_congr_left fun block hmem => ?_
      rw [Function.comp_apply, fragmentExtent, hstart block hmem]
      rfl
    rwa [hextents]
  · rw [hentries, List.forall₂_map_left_iff, List.forall₂_map_right_iff, List.forall₂_same]
    intro block hmem
    rw [hstart block hmem]
    exact hstored block hmem
  · intro index payload hpayload
    have hcover := hcovers index
    have hindex := (List.getElem?_eq_some_iff.mp hpayload).1
    rwa [hpayloads, getD_concat, if_neg (Nat.ne_of_lt hindex), hpayload] at hcover
  · intro placed hmem ref href
    obtain ⟨content, hplaces⟩ := exists_of_forall₂_of_mem hplaced hmem
    obtain ⟨tail, hleads⟩ := hplaces.leadsTo href
    rw [hcount, ← List.length_map Packed.payload]
    exact hleads.fragment_lt

/-- Places files one after the other, and then stores the fragment block that is left. -/
def DataArea.placeFiles (storing : Storing) (contents : List Bytes) :
    Action DataArea (List Placement) := do
  let placements ← contents.mapM (addFile storing)
  flush storing
  return placements

/-- However files are placed one after the other, the stored blocks are their data blocks and the
fragment blocks, which tile the area, and the tails tile the fragment blocks.  A tail is found by
the 32-bit number of its fragment block, which is exact up to 2^32 fragment blocks. -/
theorem files_arranged (hproper : storing.IsProper) (start : Nat) (contents : List Bytes)
    {placements : List Placement} {area : DataArea}
    (hplaced : (DataArea.placeFiles storing contents).run (DataArea.startingAt start) =
      (.ok placements, area)) (hend : area.position < addressSpace) :
    ∃ numbered payloads, numbered.map Prod.fst = placements ∧
      Arrangement storing start contents numbered area payloads := by
  obtain ⟨found, middle, hfiles, hrest⟩ := Action.run_bind_eq_ok.mp hplaced
  obtain ⟨⟨⟩, last, hflush, hdone⟩ := Action.run_bind_eq_ok.mp hrest
  cases hdone
  obtain ⟨added, packed, rfl, harranged⟩ :=
    (arranged_startingAt storing start).mapM_addFile hproper hfiles
  obtain ⟨more, hflushed, hnone⟩ := harranged.flush hproper hflush
  exact ⟨added, _, rfl, hflushed.arrangement hnone hend⟩

def rawStoring : Storing := ⟨Codecs.machine.gzip, 4, { rawData := true, rawFragments := true }⟩

theorem isProper_rawStoring : rawStoring.IsProper :=
  ⟨⟨by decide, by decide⟩, (Codec.isFaithful_machine .gzip _ rfl).compress_ne_nil⟩

theorem placeFiles_rawStoring :
    (DataArea.placeFiles rawStoring [[1, 2, 3, 4, 5], [0, 0, 0, 0], [6]]).run
        (DataArea.startingAt 96) =
      (.ok [⟨96, #[0x1000004], some ⟨0, 0, 1⟩, 0⟩, ⟨100, #[0], none, 4⟩,
        ⟨100, #[], some ⟨0, 1, 1⟩, 0⟩],
        ⟨102, #[(96, [1, 2, 3, 4]), (100, [5, 6])], #[], #[⟨100, 0x1000002⟩]⟩) := by
  have hfile : ∀ content blocks, blocksOf 4 content = blocks →
      DataArea.addFile rawStoring content = fun area =>
        (blocks.foldlM (DataArea.addBlock rawStoring) ⟨area.position, #[], none, 0⟩).run area := by
    rintro content _ rfl
    rfl
  have hfirst : blocksOf 4 [1, 2, 3, 4, 5] = [[1, 2, 3, 4], [5]] := by
    simp [blocksOf_of_ne_nil]
  have hsecond : blocksOf 4 [0, 0, 0, 0] = [[0, 0, 0, 0]] := by
    simp [blocksOf_of_ne_nil]
  have hthird : blocksOf 4 [6] = [[6]] := by
    simp [blocksOf_of_ne_nil]
  simp only [DataArea.placeFiles, List.mapM_cons, List.mapM_nil, hfile _ _ hfirst,
    hfile _ _ hsecond, hfile _ _ hthird]
  rfl

theorem files_arranged_rawStoring :
    ∃ numbered payloads, Arrangement rawStoring 96 [[1, 2, 3, 4, 5], [0, 0, 0, 0], [6]] numbered
      ⟨102, #[(96, [1, 2, 3, 4]), (100, [5, 6])], #[], #[⟨100, 0x1000002⟩]⟩ payloads := by
  obtain ⟨numbered, payloads, -, harrangement⟩ :=
    files_arranged isProper_rawStoring 96 _ placeFiles_rawStoring (by decide)
  exact ⟨numbered, payloads, harrangement⟩

end TreeImage.Build
