import Mathlib.Data.List.Forall2
import TreeImage.Proofs.Image.Agreement
import TreeImage.Proofs.Image.Opening
import TreeImage.Proofs.Image.Session

/-!
Reads are confined to an image.  The superblock says how many bytes the image uses, and no byte of
the storage before or after these has a part in the outcome of opening the image or in the answers
of any session with it, whatever the bytes are.
-/

namespace TreeImage

open Format

namespace Image

/-- How many bytes the image that starts at a position of some bytes says that it uses, and the
superblock at least. -/
def extent (content : Bytes) (start : Nat) : Nat :=
  max superblockSize
    (fromLittleEndian ((content.drop (start + Superblock.usedOffset)).take 8))

/-- Whether two regions agree on an image: on its bytes, and on whether it is longer than they
are. -/
structure IsShared (limit : Nat) (region other : Region) : Prop where
  agrees : Region.AgreesBelow limit region other
  sizes : other.size = region.size ∨ limit ≤ region.size ∧ limit ≤ other.size
  header_le : superblockSize ≤ limit
  used_le : ∀ data, region.read 0 superblockSize = .ok data →
    fromLittleEndian ((data.drop Superblock.usedOffset).take 8) ≤ limit

section Opening

variable {limit : Nat} {region other : Region} {superblock : Superblock} {codec : Codec}

theorem IsShared.bytesUsed_le (hshared : IsShared limit region other) {data : Bytes}
    (hdata : region.read 0 superblockSize = .ok data)
    (hparse : Superblock.parse data = .ok superblock) : superblock.bytesUsed.toNat ≤ limit :=
  Superblock.bytesUsed_of_parse hparse ▸ hshared.used_le data hdata

theorem IsShared.readSuperblock_eq (hshared : IsShared limit region other) :
    readSuperblock other = readSuperblock region := by
  have hread : other.read 0 superblockSize = region.read 0 superblockSize :=
    hshared.agrees 0 superblockSize (by simpa using hshared.header_le)
  unfold readSuperblock
  rcases hshared.sizes with hsize | ⟨hregion, hother⟩
  · rw [hsize, hread]
  · have hheader := hshared.header_le
    rw [if_neg (by omega), if_neg (by omega), hread]
    refine Except.bind_congr_of_ok fun data hdata => ?_
    refine Except.bind_congr_of_ok fun superblock hparse => ?_
    have hused := hshared.bytesUsed_le hdata hparse
    rw [if_neg (by omega), if_neg (by omega)]

theorem IsShared.agrees_of_readSuperblock (hshared : IsShared limit region other)
    (hread : readSuperblock region = .ok superblock) :
    Region.AgreesBelow superblock.bytesUsed.toNat region other := by
  unfold readSuperblock at hread
  obtain ⟨-, hread⟩ := Except.refuse_eq_ok.mp hread
  obtain ⟨data, hdata, hread⟩ := Except.bind_eq_ok.mp hread
  obtain ⟨found, hparse, hread⟩ := Except.bind_eq_ok.mp hread
  obtain ⟨-, hread⟩ := Except.refuse_eq_ok.mp hread
  cases hread
  exact hshared.agrees.mono (hshared.bytesUsed_le hdata hparse)

section Load

variable (hagrees : Region.AgreesBelow superblock.bytesUsed.toNat region other)
include hagrees

theorem load_of_agrees (start : UInt64) (count entrySize : Nat) :
    load other codec superblock start count entrySize =
      load region codec superblock start count entrySize := by
  unfold load
  rw [Table.readIndex_of_agrees hagrees]
  refine Except.bind_congr_of_ok fun positions hindex => ?_
  obtain ⟨-, -, hend, -⟩ := Table.readIndex_eq_ok.mp hindex
  rw [Table.readEntries_of_agrees hagrees (by omega)]

theorem loadIds_of_agrees :
    loadIds other codec superblock = loadIds region codec superblock := by
  unfold loadIds
  rw [load_of_agrees hagrees]

theorem loadFragments_of_agrees :
    loadFragments other codec superblock = loadFragments region codec superblock := by
  unfold loadFragments
  rw [load_of_agrees hagrees]

theorem loadExports_of_agrees :
    loadExports other codec superblock = loadExports region codec superblock := by
  unfold loadExports
  rw [load_of_agrees hagrees]

end Load

theorem IsShared.ofRegion_alike (hshared : IsShared limit region other) (codecs : Codecs) :
    Alike ReadsLike (ofRegion codecs region) (ofRegion codecs other) := by
  unfold ofRegion
  refine (Alike.of_eq hshared.readSuperblock_eq).bind ?_
  rintro superblock _ hsuperblock rfl
  have hagrees := hshared.agrees_of_readSuperblock hsuperblock
  refine (Alike.of_eq rfl).bind ?_
  rintro codec _ - rfl
  refine (Alike.of_eq (loadIds_of_agrees hagrees)).bind ?_
  rintro ids _ - rfl
  refine (Alike.of_eq (loadFragments_of_agrees hagrees)).bind ?_
  rintro fragments _ - rfl
  refine (Alike.of_eq (loadExports_of_agrees hagrees)).bind ?_
  rintro exports _ - rfl
  refine .refuse fun _ => .ok ?_
  have hchecked := (readSuperblock_eq_ok hsuperblock).1
  exact IsConfined.readsLike ⟨hchecked, foldl_min_le _ _⟩ hagrees

end Opening

theorem isShared_ofStorage {left right : Storage} (hleft : left.InMemory) (hright : right.InMemory)
    {start : Nat} (size : Nat)
    (hleftHeld : start + extent left.content.toList start ≤ left.size)
    (hrightHeld : start + extent left.content.toList start ≤ right.size)
    (hsame : (left.content.toList.drop start).take (extent left.content.toList start) =
      (right.content.toList.drop start).take (extent left.content.toList start)) :
    IsShared (extent left.content.toList start) (Region.ofStorage left start size)
      (Region.ofStorage right start size) := by
  have hheader : superblockSize ≤ extent left.content.toList start := Nat.le_max_left ..
  refine ⟨Region.agreesBelow_ofStorage hleft hright size hleftHeld hrightHeld hsame, ?_, hheader,
    ?_⟩
  · unfold Region.size Region.ofStorage
    by_cases hsize : size = 0
    · simp only [hsize, if_true, Option.getD_none]
      omega
    · exact Or.inl (by simp only [if_neg hsize, Option.getD_some])
  · intro data hdata
    have hleftSize := hleft.size_lt
    rw [Region.read_eq_held hleft.toMoves (by dsimp only [Region.ofStorage]; omega)
      (by dsimp only [Region.ofStorage]; omega)] at hdata
    have hheld : (Region.ofStorage left start size).held 0 superblockSize = data := by
      cases hcheck : (Region.ofStorage left start size).check 0 superblockSize with
      | error error =>
          rw [hcheck] at hdata
          cases hdata
      | ok _ =>
          rw [hcheck] at hdata
          exact Except.ok.inj hdata
    have hfield : (data.drop Superblock.usedOffset).take 8 =
        (left.content.toList.drop (start + Superblock.usedOffset)).take 8 := by
      rw [← hheld, Region.held, List.drop_take, List.take_take, List.drop_drop]
      rfl
    rw [hfield]
    exact Nat.le_max_right ..

end Image

namespace Session

/-- Whether two sessions have images that read alike and files that do. -/
structure ReadsLike (session twin : Session) : Prop where
  image : session.image.ReadsLike twin.image
  files : List.Forall₂ OpenFile.ReadsLike session.files twin.files

theorem file_of_forall₂ {files twins : List OpenFile}
    (hfiles : List.Forall₂ OpenFile.ReadsLike files twins) (index : Nat) :
    files[index]? = none ∧ twins[index]? = none ∨
      ∃ file twin, files[index]? = some file ∧ twins[index]? = some twin ∧ file.ReadsLike twin := by
  induction hfiles generalizing index with
  | nil => exact Or.inl ⟨rfl, rfl⟩
  | cons hfile _ ih =>
      cases index with
      | zero => exact Or.inr ⟨_, _, rfl, rfl, hfile⟩
      | succ index => exact ih index

theorem forall₂_set {files twins : List OpenFile}
    (hfiles : List.Forall₂ OpenFile.ReadsLike files twins) (index : Nat) {file twin : OpenFile}
    (hfile : file.ReadsLike twin) :
    List.Forall₂ OpenFile.ReadsLike (files.set index file) (twins.set index twin) := by
  induction hfiles generalizing index with
  | nil => exact .nil
  | cons hhead htail ih =>
      cases index with
      | zero => exact .cons hfile htail
      | succ index => exact .cons hhead (ih index)

variable {session twin : Session}

theorem ReadsLike.onFile (hlike : session.ReadsLike twin) (index : Nat)
    {step : OpenFile → Except Error Answer × OpenFile}
    (hstep : ∀ file other, file.ReadsLike other →
      (step other).1 = (step file).1 ∧ (step file).2.ReadsLike (step other).2) :
    (twin.onFile index step).1 = (session.onFile index step).1 ∧
      (session.onFile index step).2.ReadsLike (twin.onFile index step).2 := by
  unfold Session.onFile
  rcases file_of_forall₂ hlike.files index with
    ⟨hnone, htwinNone⟩ | ⟨file, other, hfile, hother, halike⟩
  · rw [hnone, htwinNone]
    exact ⟨rfl, hlike⟩
  · rw [hfile, hother]
    obtain ⟨hanswer, hlast⟩ := hstep file other halike
    exact ⟨hanswer, hlike.image, forall₂_set hlike.files index hlast⟩

/-- A call is answered the same in both sessions and leaves them alike. -/
theorem ReadsLike.answer (hlike : session.ReadsLike twin) (call : Call) :
    (twin.answer call).1 = (session.answer call).1 ∧
      (session.answer call).2.ReadsLike (twin.answer call).2 := by
  have himage := hlike.image
  cases call with
  | entries path => exact ⟨congrArg (Except.map Answer.listing) (himage.entries path), hlike⟩
  | metadata path => exact ⟨congrArg (Except.map Answer.metadata) (himage.metadata path), hlike⟩
  | linkMetadata path =>
      exact ⟨congrArg (Except.map Answer.metadata) (himage.linkMetadata path), hlike⟩
  | linkTarget path => exact ⟨congrArg (Except.map Answer.target) (himage.linkTarget path), hlike⟩
  | inodeWithNumber number =>
      exact ⟨congrArg (Except.map Answer.inode) (himage.inodeWithNumber number), hlike⟩
  | content path => exact ⟨congrArg (Except.map Answer.bytes) (himage.content path), hlike⟩
  | openFile path =>
      rw [Session.answer, Session.answer]
      have hopened := himage.openFile path
      generalize session.image.openFile path = opened, twin.image.openFile path = twinOpened
        at hopened ⊢
      cases hopened with
      | error error => exact ⟨rfl, hlike⟩
      | ok hfile => exact ⟨rfl, himage, List.rel_append hlike.files (.cons hfile .nil)⟩
  | readAt file offset count =>
      refine hlike.onFile file fun file other halike => ?_
      obtain ⟨hresult, hlast⟩ := halike.readAt offset count
      exact ⟨congrArg (Except.map Answer.bytes) hresult, hlast⟩
  | read file count =>
      refine hlike.onFile file fun file other halike => ?_
      obtain ⟨hresult, hlast⟩ := halike.advance count
      exact ⟨congrArg (Except.map Answer.bytes) hresult, hlast⟩
  | seek file anchor distance =>
      refine hlike.onFile file fun file other halike => ?_
      obtain ⟨hresult, hlast⟩ := halike.seek anchor distance
      exact ⟨congrArg (fun result => Except.ok (Answer.moved result)) hresult, hlast⟩

theorem ReadsLike.answers (hlike : session.ReadsLike twin) (calls : List Call) :
    twin.answers calls = session.answers calls := by
  induction calls generalizing session twin with
  | nil => rfl
  | cons call calls ih =>
      obtain ⟨hanswer, hlast⟩ := hlike.answer call
      change (twin.answer call).1 :: (twin.answer call).2.answers calls =
        (session.answer call).1 :: (session.answer call).2.answers calls
      rw [hanswer, ih hlast]

/-- Two memories that hold an image and agree on the bytes that it uses, at the same position and
in windows of the same size, are opened with the same outcome: the same error, or images with equal
superblocks whose sessions have equal answers, whatever is called. -/
theorem answers_confined (codecs : Codecs) (left right : Bytes) (hleft : left.length < 2 ^ 63)
    (hright : right.length < 2 ^ 63) (start size : Nat)
    (hleftHeld : start + Image.extent left start ≤ left.length)
    (hrightHeld : start + Image.extent left start ≤ right.length)
    (hsame : (left.drop start).take (Image.extent left start) =
      (right.drop start).take (Image.extent left start)) :
    Alike (fun image twin => twin.superblock = image.superblock ∧
        ∀ calls, (Session.start twin).answers calls = (Session.start image).answers calls)
      (Image.ofRegion codecs (Region.ofStorage (Storage.ofBytes left) start size))
      (Image.ofRegion codecs (Region.ofStorage (Storage.ofBytes right) start size)) := by
  have hmemory : ∀ content : Bytes, content.length < 2 ^ 63 →
      (Storage.ofBytes content).InMemory := fun content hcontent =>
    Storage.inMemory_ofBytes (by unfold addressSpace; omega)
  have hshared := Image.isShared_ofStorage (hmemory left hleft) (hmemory right hright) size
    hleftHeld hrightHeld hsame
  have halike := hshared.ofRegion_alike codecs
  generalize Image.ofRegion codecs (Region.ofStorage (Storage.ofBytes left) start size) = opened,
    Image.ofRegion codecs (Region.ofStorage (Storage.ofBytes right) start size) = twinOpened
    at halike ⊢
  cases halike with
  | error error => exact .error error
  | ok hlike => exact .ok ⟨hlike.superblock_eq, ReadsLike.answers ⟨hlike, .nil⟩⟩

/-- The image is opened with other bytes before it and after it. -/
theorem answers_confined_between :
    ∃ image twin,
      Image.ofRegion Codecs.machine (Region.ofStorage
        (Storage.ofBytes ([1, 2] ++ Image.linkedImageBytes ++ [3])) 2 0) = .ok image ∧
      Image.ofRegion Codecs.machine (Region.ofStorage
        (Storage.ofBytes ([4, 5] ++ Image.linkedImageBytes ++ [6, 7])) 2 0) = .ok twin ∧
      twin.superblock = image.superblock ∧
      ∀ calls, (Session.start twin).answers calls = (Session.start image).answers calls := by
  have halike := answers_confined Codecs.machine ([1, 2] ++ Image.linkedImageBytes ++ [3])
    ([4, 5] ++ Image.linkedImageBytes ++ [6, 7]) (by decide +kernel) (by decide +kernel) 2 0
    (by decide +kernel) (by decide +kernel) (by decide +kernel)
  have hopens : (Image.ofRegion Codecs.machine (Region.ofStorage
      (Storage.ofBytes ([1, 2] ++ Image.linkedImageBytes ++ [3])) 2 0)).toOption.isSome = true := by
    decide +kernel
  generalize Image.ofRegion Codecs.machine (Region.ofStorage
      (Storage.ofBytes ([1, 2] ++ Image.linkedImageBytes ++ [3])) 2 0) = opened,
    Image.ofRegion Codecs.machine (Region.ofStorage
      (Storage.ofBytes ([4, 5] ++ Image.linkedImageBytes ++ [6, 7])) 2 0) = twinOpened
    at halike hopens ⊢
  cases halike with
  | error error => cases hopens
  | ok hlike => exact ⟨_, _, rfl, rfl, hlike⟩

end Session

end TreeImage
