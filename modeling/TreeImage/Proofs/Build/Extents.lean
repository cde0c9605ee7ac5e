import TreeImage.Proofs.Build.Placement

namespace TreeImage.Build

open Format OpenFile

structure Extent where
  start : Nat
  length : Nat

namespace Extent

/-- Whether parts follow one another from a start to a stop, with no gap and no overlap. -/
def Tiles : (start : Nat) → List Extent → (stop : Nat) → Prop
  | start, [], stop => start = stop
  | start, extent :: extents, stop =>
      extent.start = start ∧ Tiles (start + extent.length) extents stop

variable {start middle stop : Nat} {front back extents : List Extent} {extent : Extent}

theorem Tiles.append (hfront : Tiles start front middle) (hback : Tiles middle back stop) :
    Tiles start (front ++ back) stop := by
  induction front generalizing start with
  | nil =>
      cases hfront
      exact hback
  | cons extent front ih => exact ⟨hfront.1, ih hfront.2⟩

theorem Tiles.le (htiles : Tiles start extents stop) : start ≤ stop := by
  induction extents generalizing start with
  | nil => exact Nat.le_of_eq htiles
  | cons extent extents ih => exact Nat.le_trans (Nat.le_add_right _ _) (ih htiles.2)

theorem Tiles.end_le (htiles : Tiles start extents stop) (hmem : extent ∈ extents) :
    extent.start + extent.length ≤ stop := by
  induction extents generalizing start with
  | nil => cases hmem
  | cons first extents ih =>
      obtain ⟨rfl, hrest⟩ := htiles
      rcases List.mem_cons.mp hmem with rfl | hmem
      · exact hrest.le
      · exact ih hrest hmem

end Extent

/-- Blocks that stand one after the other: the position of each, and its size word. -/
def positioned : (position : Nat) → List UInt32 → List (Nat × UInt32)
  | _, [] => []
  | position, word :: words => (position, word) :: positioned (position + storedLength word) words

@[simp] theorem length_positioned (position : Nat) (words : List UInt32) :
    (positioned position words).length = words.length := by
  induction words generalizing position with
  | nil => rfl
  | cons word words ih => simp [positioned, ih]

theorem positioned_append (position : Nat) (front back : List UInt32) :
    positioned position (front ++ back) = positioned position front ++
      positioned (position + (front.map storedLength).sum) back := by
  induction front generalizing position with
  | nil => rfl
  | cons word front ih => simp [positioned, ih, Nat.add_assoc]

/-- The extents of blocks that stand one after the other; a block with the size word zero has
none. -/
def extentsOf (position : Nat) (words : List UInt32) : List Extent :=
  ((positioned position words).filter (·.2 ≠ 0)).map fun part => ⟨part.1, storedLength part.2⟩

theorem extentsOf_append (position : Nat) (front back : List UInt32) :
    extentsOf position (front ++ back) = extentsOf position front ++
      extentsOf (position + (front.map storedLength).sum) back := by
  simp [extentsOf, positioned_append]

theorem tiles_extentsOf (position : Nat) (words : List UInt32) :
    Extent.Tiles position (extentsOf position words)
      (position + (words.map storedLength).sum) := by
  induction words generalizing position with
  | nil => rfl
  | cons word words ih =>
      have hrest := ih (position + storedLength word)
      rw [Nat.add_assoc, ← List.sum_cons, ← List.map_cons] at hrest
      by_cases hzero : word = 0
      · subst hzero
        exact hrest
      · have hcons : extentsOf position (word :: words) =
            ⟨position, storedLength word⟩ :: extentsOf (position + storedLength word) words := by
          simp [extentsOf, positioned, hzero]
        rw [hcons]
        exact ⟨rfl, hrest⟩

def Placement.extents (placement : Placement) : List Extent :=
  extentsOf placement.start placement.blockSizes.toList

def TailRef.extent (ref : TailRef) : Extent := ⟨ref.offset.toNat, ref.length.toNat⟩

def fragmentExtent (entry : FragmentEntry) : Extent :=
  ⟨entry.start.toNat, storedLength entry.size⟩

/-- Whether stored blocks have size words: besides their lengths, the codec compresses no block to
nothing.  That a codec gives blocks back does not imply this, as nothing may stand for one block. -/
structure Storing.IsProper (storing : Storing) : Prop extends storing.IsSized where
  compress_ne_nil : ∀ block stored, block ≠ [] → storing.codec.compress block = .ok stored →
    stored ≠ []

/-- What is stored for a block, and what its size word says.  The word says that the block is
stored as it is exactly if compression was not asked for or does not make the block shorter, and
then, and only then, it is as long as the block. -/
structure Storing.IsForm (storing : Storing) (raw : Bool) (block frame : Bytes) (word : UInt32) :
    Prop where
  word_ne_zero : word ≠ 0
  storedLength_eq : storedLength word = frame.length
  length_le : frame.length ≤ block.length
  isRaw_iff_length : isRaw word = true ↔ frame.length = block.length
  isRaw_iff : isRaw word = true ↔ raw = true ∨
    ∃ compressed, storing.codec.compress block = .ok compressed ∧
      block.length ≤ compressed.length
  frame_eq : if isRaw word then frame = block else storing.codec.compress block = .ok frame

namespace DataArea

def extents (area : DataArea) : List Extent :=
  area.stored.toList.map fun (position, frame) => ⟨position, frame.length⟩

variable {storing : Storing} {area : DataArea}

theorem extents_push (area : DataArea) (frame : Bytes) :
    (area.push frame).extents = area.extents ++ [⟨area.position, frame.length⟩] := by
  simp [extents, push]

/-- Storing a block puts its form at the end. -/
theorem store_form (hproper : storing.IsProper) {raw : Bool} {block : Bytes} (hblock : block ≠ [])
    (hlength : block.length ≤ storing.blockSize) {word : UInt32} {next : DataArea}
    (hstore : (store storing raw block).run area = (.ok word, next)) :
    ∃ frame, next = area.push frame ∧ storing.IsForm raw block frame word := by
  obtain ⟨frame, isCompressed, hstored, rfl, rfl⟩ := store_eq_ok.mp hstore
  obtain ⟨hne, hraw, hform⟩ : frame ≠ [] ∧
      (isCompressed = false ↔ raw = true ∨
        ∃ compressed, storing.codec.compress block = .ok compressed ∧
          block.length ≤ compressed.length) ∧
      if isCompressed then frame.length < block.length ∧
        storing.codec.compress block = .ok frame else frame = block := by
    cases raw with
    | true =>
        cases hstored
        exact ⟨hblock, by simp, rfl⟩
    | false =>
        obtain ⟨compressed, hcompress, ⟨hshorter, rfl, rfl⟩ | ⟨hlonger, rfl, rfl⟩⟩ :=
          Codec.shrink_eq_ok.mp hstored
        · refine ⟨hproper.compress_ne_nil _ _ hblock hcompress, ?_, hshorter, hcompress⟩
          refine iff_of_false nofun ?_
          rintro (hraw | ⟨other, hother, hlonger⟩)
          · cases hraw
          · obtain rfl := Except.ok.inj (hcompress.symm.trans hother)
            omega
        · exact ⟨hblock, iff_of_true rfl (.inr ⟨compressed, hcompress, hlonger⟩), rfl⟩
  have hisForm := isForm_of_stored hstored
  have hframe := length_lt_of_isForm hproper.toIsSized hisForm hlength
  have hflag : isRaw (sizeWord frame isCompressed) = true ↔ isCompressed = false := by
    rw [isRaw_sizeWord hframe, Bool.not_eq_true']
  refine ⟨frame, rfl, sizeWord_ne_zero hframe hne, storedLength_sizeWord hframe, hisForm.length_le,
    hflag.trans ?_, hflag.trans hraw, ?_⟩
  · cases isCompressed with
    | true => exact iff_of_false nofun (Nat.ne_of_lt hform.1)
    | false => exact iff_of_true rfl (congrArg List.length hform)
  · rw [isRaw_sizeWord hframe]
    cases isCompressed with
    | true => exact hform.2
    | false => exact hform

end DataArea

end TreeImage.Build
