import TreeImage.Proofs.Image.LinkSubstitution
import TreeImage.Proofs.Image.OpenFileReport

namespace TreeImage

open Format

inductive FileCall
  | readAt (offset count : Nat)
  | read (count : Nat)
  | readExact (count : Nat)
  | readToEnd
  | seek (anchor : Anchor) (distance : Int)
  deriving DecidableEq, Repr

namespace OpenFile

/-- What a file is after a call on it, whether the call succeeded or failed. -/
def after (file : OpenFile) : FileCall → OpenFile
  | .readAt offset count => ((OpenFile.readAt offset count).run file).2
  | .read count => ((OpenFile.read count).run file).2
  | .readExact count => ((OpenFile.readExact count).run file).2
  | .readToEnd => (OpenFile.readToEnd.run file).2
  | .seek anchor distance => ((OpenFile.seek anchor distance).run file).2

/-- What a file is after calls on it, made one after the other. -/
def afterAll (file : OpenFile) (calls : List FileCall) : OpenFile := calls.foldl after file

/-- What a read at an offset gives after calls on the file. -/
def readAfter (file : OpenFile) (calls : List FileCall) (offset count : Nat) : Except Error Bytes :=
  ((readAt offset count).run (file.afterAll calls)).1

/-- The content of the block with an index; a block that cannot be loaded is filled up with a
byte. -/
def blockOr (file : OpenFile) (filler : UInt8) (index : Nat) : Bytes :=
  match file.loadBlock index with
  | .ok data => data
  | .error _ => List.replicate (min (file.size - index * file.blockSize) file.blockSize) filler

/-- The blocks of a file up to its end, one after the other. -/
def joinedBlocks (file : OpenFile) (filler : UInt8) : Bytes :=
  (List.range ((file.size + file.blockSize - 1) / file.blockSize)).flatMap (file.blockOr filler)

/-- Whether a block has one of the bytes of a file that a read asks for. -/
def Overlaps (file : OpenFile) (offset count index : Nat) : Prop :=
  ∃ place, offset ≤ place ∧ place < offset + count ∧ place < file.size ∧
    place / file.blockSize = index

section History

variable {file used : OpenFile}

/-- What calls keep of a file: all but its position and the block that it keeps, and this is one of
its blocks. -/
structure Unchanged (file used : OpenFile) : Prop where
  image : used.image = file.image
  body : used.body = file.body
  inodeNumber : used.inodeNumber = file.inodeNumber
  blocks : used.blocks = file.blocks
  cache : used.CacheIsLoaded

theorem Unchanged.refl (hcache : file.CacheIsLoaded) : file.Unchanged file :=
  ⟨rfl, rfl, rfl, rfl, hcache⟩

theorem Unchanged.moved (hused : file.Unchanged used) (position : Nat) :
    file.Unchanged { used with position } :=
  ⟨hused.image, hused.body, hused.inodeNumber, hused.blocks, hused.cache⟩

theorem Unchanged.loadBlock (hused : file.Unchanged used) (index : Nat) :
    used.loadBlock index = file.loadBlock index := by
  obtain ⟨image, body, inodeNumber, blocks, position, cache⟩ := used
  obtain ⟨rfl, rfl, rfl, rfl, -⟩ := hused
  rfl

theorem Unchanged.loadBlocks (hused : file.Unchanged used) (count index : Nat) :
    used.loadBlocks count index = file.loadBlocks count index := by
  induction count generalizing index with
  | zero => rfl
  | succ count ih =>
      rw [OpenFile.loadBlocks, OpenFile.loadBlocks, hused.loadBlock, ih]

theorem Unchanged.bytesAt (hused : file.Unchanged used) (offset count : Nat) :
    used.bytesAt offset count = file.bytesAt offset count := by
  have hsize : used.size = file.size := by rw [size, size, hused.body]
  have hblockSize : used.blockSize = file.blockSize := by rw [blockSize, blockSize, hused.image]
  simp only [OpenFile.bytesAt, hsize, hblockSize, hused.loadBlocks]

theorem Unchanged.run_readAt (hused : file.Unchanged used) (offset count : Nat) :
    ((readAt offset count).run used).1 = file.bytesAt offset count ∧
      file.Unchanged ((readAt offset count).run used).2 := by
  obtain ⟨kept, hrun, hkept⟩ := readAt_readsAs offset count used.cache hused.cache
  change (readAt offset count).run used = _ at hrun
  rw [hrun]
  exact ⟨hused.bytesAt offset count, hused.image, hused.body, hused.inodeNumber, hused.blocks,
    hkept⟩

theorem Unchanged.run_advance (hused : file.Unchanged used) (count : Nat) :
    file.Unchanged ((advance count).run used).2 := by
  obtain ⟨-, hkept⟩ := hused.run_readAt used.position count
  rw [advance, Action.run_bind_of_ok (Action.run_get used)]
  rcases hread : (readAt used.position count).run used with ⟨error | data, kept⟩
  · rw [hread] at hkept
    rw [Action.run_bind_of_error hread]
    exact hkept
  · rw [hread] at hkept
    rw [Action.run_bind_of_ok hread]
    cases hposition : Trapping.add used.position data.length with
    | error error => exact hkept
    | ok position => exact hkept.moved position

theorem Unchanged.run_read (hused : file.Unchanged used) (count : Nat) :
    file.Unchanged ((read count).run used).2 := hused.run_advance count

theorem run_readExact_snd (count : Nat) :
    ((readExact count).run used).2 = ((read count).run used).2 := by
  simp only [readExact, bind, ExceptT.bind, ExceptT.mk, ExceptT.run, StateT.bind]
  rcases (read count) used with ⟨error | data, kept⟩
  · rfl
  · by_cases hshort : data.length < count
    · simp only [ExceptT.bindCont, if_pos hshort]
      rfl
    · simp only [ExceptT.bindCont, if_neg hshort]
      rfl

theorem Unchanged.run_drain (ask : Nat → Nat) (fuel : Nat) (hused : file.Unchanged used)
    (gathered : Buffer) : file.Unchanged ((drain ask fuel gathered).run used).2 := by
  induction fuel generalizing used gathered with
  | zero => exact hused
  | succ fuel ih =>
      have hkept := hused.run_read (ask gathered.size)
      rw [drain]
      simp only [bind, StateT.bind, StateT.run, ExceptT.run] at hkept ⊢
      rcases hread : (read (ask gathered.size)) used with ⟨error | data, kept⟩
      · rw [hread] at hkept
        exact hkept
      · rw [hread] at hkept
        cases data with
        | nil => exact hkept
        | cons first rest => exact ih hkept _

theorem Unchanged.run_readToEnd (hused : file.Unchanged used) :
    file.Unchanged (readToEnd.run used).2 := by
  have hkept := hused.run_drain (fun gathered => max leastAsk gathered) (used.size + 1) #[]
  simp only [readToEnd, ExceptT.run, StateT.run] at hkept ⊢
  rcases hdrain : drain (fun gathered => max leastAsk gathered) (used.size + 1) #[] used with
    ⟨⟨gathered, failure⟩, kept⟩
  rw [hdrain] at hkept
  cases failure with
  | none => exact hkept
  | some error => exact hkept

theorem Unchanged.after (hused : file.Unchanged used) (call : FileCall) :
    file.Unchanged (used.after call) := by
  cases call with
  | readAt offset count => exact (hused.run_readAt offset count).2
  | read count => exact hused.run_read count
  | readExact count =>
      rw [OpenFile.after, run_readExact_snd]
      exact hused.run_read count
  | readToEnd => exact hused.run_readToEnd
  | seek anchor distance =>
      rw [OpenFile.after]
      rcases used.seek_cases anchor distance with ⟨position, -, hrun⟩ | ⟨text, hrun⟩
      · rw [hrun]
        exact hused.moved position
      · rw [hrun]
        exact hused

theorem Unchanged.afterAll (hused : file.Unchanged used) (calls : List FileCall) :
    file.Unchanged (used.afterAll calls) := by
  induction calls generalizing used with
  | nil => exact hused
  | cons call calls ih => exact ih (hused.after call)

theorem readAfter_eq (hcache : file.CacheIsLoaded) (calls : List FileCall) (offset count : Nat) :
    file.readAfter calls offset count = file.bytesAt offset count :=
  (((Unchanged.refl hcache).afterAll calls).run_readAt offset count).1

end History

section Slice

variable {file : OpenFile} {filler : UInt8}

theorem blockOr_of_loadBlock {index : Nat} {data : Bytes}
    (hload : file.loadBlock index = .ok data) : file.blockOr filler index = data := by
  rw [blockOr, hload]

theorem length_blockOr (file : OpenFile) (filler : UInt8) (index : Nat) :
    (file.blockOr filler index).length =
      min (file.size - index * file.blockSize) file.blockSize := by
  unfold blockOr
  cases hload : file.loadBlock index with
  | error error => exact List.length_replicate
  | ok data => exact (blockLength_eq_ok.mp (blockLength_of_loadBlock hload)).2.2.symm

theorem length_flatMap_blockOr (file : OpenFile) (filler : UInt8) (first count : Nat) :
    ((List.range' first count).flatMap (file.blockOr filler)).length +
        min file.size (first * file.blockSize) =
      min file.size ((first + count) * file.blockSize) := by
  induction count generalizing first with
  | zero => exact Nat.zero_add _
  | succ count ih =>
      have hrest := ih (first + 1)
      rw [Nat.add_right_comm first 1 count, Nat.add_assoc first count 1, Nat.add_mul first 1,
        Nat.one_mul] at hrest
      rw [List.range'_succ, List.flatMap_cons, List.length_append, length_blockOr, ← hrest]
      omega

theorem length_joinedBlocks (filler : UInt8) (hblockSize : file.blockSize ≠ 0) :
    (file.joinedBlocks filler).length = file.size := by
  have hlength := length_flatMap_blockOr file filler 0
    ((file.size + file.blockSize - 1) / file.blockSize)
  have hcover := Nat.lt_div_mul_add (a := file.size + file.blockSize - 1)
    (Nat.pos_of_ne_zero hblockSize)
  rw [Nat.zero_mul, Nat.min_zero, Nat.add_zero, Nat.zero_add, ← List.range_eq_range'] at hlength
  rw [joinedBlocks, hlength]
  omega

theorem loadBlocks_eq_ok (filler : UInt8) {count first : Nat} {blocks : List Bytes} :
    file.loadBlocks count first = .ok blocks ↔
      (∀ index, first ≤ index → index < first + count →
        ∃ data, file.loadBlock index = .ok data) ∧
        blocks = (List.range' first count).map (file.blockOr filler) := by
  induction count generalizing first blocks with
  | zero =>
      constructor
      · intro hload
        cases hload
        exact ⟨fun index hle hlt => absurd hlt (Nat.not_lt.mpr hle), rfl⟩
      · rintro ⟨-, rfl⟩
        rfl
  | succ count ih =>
      constructor
      · intro hload
        obtain ⟨data, hdata, hload⟩ := Except.bind_eq_ok.mp hload
        obtain ⟨rest, hrest, hload⟩ := Except.bind_eq_ok.mp hload
        cases hload
        obtain ⟨hloaded, rfl⟩ := ih.mp hrest
        constructor
        · intro index hle hlt
          rcases Nat.eq_or_lt_of_le hle with rfl | hlater
          · exact ⟨data, hdata⟩
          · exact hloaded index hlater (by omega)
        · rw [List.range'_succ, List.map_cons, blockOr_of_loadBlock hdata]
      · rintro ⟨hloaded, rfl⟩
        obtain ⟨data, hdata⟩ := hloaded first (Nat.le_refl first) (by omega)
        have hrest : file.loadBlocks count (first + 1) =
            .ok ((List.range' (first + 1) count).map (file.blockOr filler)) :=
          ih.mpr ⟨fun index hle hlt => hloaded index (by omega) (by omega), rfl⟩
        rw [loadBlocks, hdata, Except.ok_bind, hrest, Except.ok_bind, List.range'_succ,
          List.map_cons, blockOr_of_loadBlock hdata]
        rfl

theorem exists_of_loadBlocks_eq_error {count first : Nat} {error : Error}
    (hload : file.loadBlocks count first = .error error) :
    ∃ index, first ≤ index ∧ index < first + count ∧ file.loadBlock index = .error error := by
  induction count generalizing first with
  | zero => cases hload
  | succ count ih =>
      cases hdata : file.loadBlock first with
      | error found =>
          rw [loadBlocks, hdata] at hload
          cases hload
          exact ⟨first, Nat.le_refl first, by omega, hdata⟩
      | ok data =>
          rw [loadBlocks, hdata, Except.ok_bind] at hload
          cases hrest : file.loadBlocks count (first + 1) with
          | error found =>
              rw [hrest] at hload
              cases hload
              obtain ⟨index, hle, hlt, hindex⟩ := ih hrest
              exact ⟨index, by omega, by omega, hindex⟩
          | ok rest =>
              rw [hrest] at hload
              cases hload

variable {offset count wanted : Nat}

theorem overlaps_iff (hwanted : min count (file.size - offset) = wanted) (hpositive : wanted ≠ 0)
    (hblockSize : file.blockSize ≠ 0) {index : Nat} :
    file.Overlaps offset count index ↔
      offset / file.blockSize ≤ index ∧
        index < offset / file.blockSize +
          ((offset + wanted - 1) / file.blockSize + 1 - offset / file.blockSize) := by
  have hpos := Nat.pos_of_ne_zero hblockSize
  have hspan : offset / file.blockSize ≤ (offset + wanted - 1) / file.blockSize :=
    Nat.div_le_div_right (by omega)
  constructor
  · rintro ⟨place, hle, hcount, hsize, rfl⟩
    have hlast : place / file.blockSize ≤ (offset + wanted - 1) / file.blockSize :=
      Nat.div_le_div_right (by omega)
    exact ⟨Nat.div_le_div_right hle, by omega⟩
  · rintro ⟨hfirst, hlast⟩
    -- the first byte of the block, or the first one asked for
    refine ⟨max offset (index * file.blockSize), Nat.le_max_left _ _, ?_⟩
    have hstart : index * file.blockSize ≤ offset + wanted - 1 :=
      (Nat.le_div_iff_mul_le hpos).mp (by omega)
    refine ⟨by omega, by omega, ?_⟩
    have hbelow : offset < (index + 1) * file.blockSize :=
      (Nat.div_lt_iff_lt_mul hpos).mp (by omega)
    rw [Nat.add_one_mul] at hbelow
    rw [Nat.div_eq_iff hpos]
    omega

theorem joinedBlocks_eq_append (filler : UInt8) {first span : Nat}
    (hspan : first + span ≤ (file.size + file.blockSize - 1) / file.blockSize) :
    ∃ rest, file.joinedBlocks filler =
      (List.range' 0 first).flatMap (file.blockOr filler) ++
        ((List.range' first span).flatMap (file.blockOr filler) ++ rest) := by
  obtain ⟨more, hmore⟩ := Nat.exists_eq_add_of_le hspan
  refine ⟨(List.range' (first + span) more).flatMap (file.blockOr filler), ?_⟩
  have hfirst := List.range'_append_1 (s := 0) (m := first) (n := span + more)
  rw [Nat.zero_add] at hfirst
  rw [joinedBlocks, hmore, List.range_eq_range', Nat.add_assoc, ← hfirst,
    ← List.range'_append_1 (s := first), List.flatMap_append, List.flatMap_append]

/-- The joined blocks from that of the first byte asked for to that of the last one, cut at both
ends, are the bytes asked for. -/
theorem slice_joinedBlocks (filler : UInt8) (hblockSize : file.blockSize ≠ 0)
    (hpositive : wanted ≠ 0) (hstop : offset + wanted ≤ file.size) {span : Nat}
    (hspan : (offset + wanted - 1) / file.blockSize + 1 - offset / file.blockSize = span) :
    ((((List.range' (offset / file.blockSize) span).map (file.blockOr filler)).flatten.drop
        (offset % file.blockSize)).take wanted) =
      ((file.joinedBlocks filler).drop offset).take wanted := by
  have hpos := Nat.pos_of_ne_zero hblockSize
  have hbefore := Nat.div_add_mod' offset file.blockSize
  have hcovered := Nat.lt_div_mul_add (a := offset + wanted - 1) hpos
  have hordered : offset / file.blockSize ≤ (offset + wanted - 1) / file.blockSize :=
    Nat.div_le_div_right (by omega)
  have hlast : offset / file.blockSize + span = (offset + wanted - 1) / file.blockSize + 1 := by
    omega
  have hinside : offset / file.blockSize + span ≤
      (file.size + file.blockSize - 1) / file.blockSize := by
    rw [hlast, ← Nat.add_div_right _ hpos]
    exact Nat.div_le_div_right (by omega)
  obtain ⟨rest, hjoined⟩ := joinedBlocks_eq_append filler hinside
  have hfront := length_flatMap_blockOr file filler 0 (offset / file.blockSize)
  have hmiddle := length_flatMap_blockOr file filler (offset / file.blockSize) span
  rw [Nat.zero_mul, Nat.zero_add] at hfront
  rw [hlast, Nat.add_one_mul] at hmiddle
  rw [← List.flatMap_def, hjoined]
  generalize (List.range' 0 (offset / file.blockSize)).flatMap (file.blockOr filler) = front
    at hfront
  generalize (List.range' (offset / file.blockSize) span).flatMap (file.blockOr filler) = middle
    at hmiddle
  have hskipped : (front ++ (middle ++ rest)).drop offset =
      (middle ++ rest).drop (offset % file.blockSize) := by
    rw [List.drop_append, List.drop_eq_nil_of_le (by omega), List.nil_append]
    congr 1
    omega
  have hwithin : offset % file.blockSize + wanted ≤ middle.length := by omega
  rw [hskipped, List.drop_append_of_le_length (by omega),
    List.take_append_of_le_length (by rw [List.length_drop]; omega)]

theorem bytesAt_eq (filler : UInt8) (hblockSize : file.blockSize ≠ 0)
    (hwanted : min count (file.size - offset) = wanted) (hpositive : wanted ≠ 0) :
    file.bytesAt offset count =
      (file.loadBlocks ((offset + wanted - 1) / file.blockSize + 1 - offset / file.blockSize)
        (offset / file.blockSize)).map
        fun _ => ((file.joinedBlocks filler).drop offset).take wanted := by
  have hlt := file.size_lt
  have hstop : offset + wanted ≤ file.size := by omega
  unfold bytesAt
  rw [hwanted]
  simp only [if_neg hpositive]
  rw [Trapping.add_eq_ok (by omega), Except.ok_bind, Trapping.div_eq_ok hblockSize,
    Except.ok_bind, Trapping.div_eq_ok hblockSize, Except.ok_bind]
  cases hload : file.loadBlocks
      ((offset + wanted - 1) / file.blockSize + 1 - offset / file.blockSize)
      (offset / file.blockSize) with
  | error error => rfl
  | ok blocks =>
      have hinside := within_le_length hblockSize hpositive hstop hload
      rw [Except.ok_bind, Trapping.slice_eq_ok (Nat.le_add_right _ _) hinside,
        Nat.add_sub_cancel_left, ((loadBlocks_eq_ok filler).mp hload).2,
        slice_joinedBlocks filler hblockSize hpositive hstop rfl]
      rfl

/-- Reading bytes succeeds just if every block with one of them can be loaded, and then it gives
the slice of the joined blocks. -/
theorem bytesAt_eq_ok_iff (filler : UInt8) (hblockSize : file.blockSize ≠ 0) {data : Bytes} :
    file.bytesAt offset count = .ok data ↔
      (∀ index, file.Overlaps offset count index → ∃ block, file.loadBlock index = .ok block) ∧
        data = ((file.joinedBlocks filler).drop offset).take count := by
  generalize hwanted : min count (file.size - offset) = wanted
  have hcut : ((file.joinedBlocks filler).drop offset).take count =
      ((file.joinedBlocks filler).drop offset).take wanted := by
    rw [List.take_eq_take_min, List.length_drop, length_joinedBlocks filler hblockSize, hwanted]
  by_cases hpositive : wanted = 0
  · have hnothing : file.bytesAt offset count = .ok [] := by
      unfold bytesAt
      rw [hwanted]
      simp only [if_pos hpositive]
      rfl
    rw [hnothing, hcut, hpositive, List.take_zero, Except.ok.injEq, eq_comm]
    refine ⟨fun hdata => ⟨?_, hdata⟩, And.right⟩
    rintro index ⟨place, hle, hcount, hsize, -⟩
    omega
  · simp only [overlaps_iff hwanted hpositive hblockSize, and_imp]
    rw [bytesAt_eq filler hblockSize hwanted hpositive, hcut]
    constructor
    · intro hread
      cases hload : file.loadBlocks
          ((offset + wanted - 1) / file.blockSize + 1 - offset / file.blockSize)
          (offset / file.blockSize) with
      | error error =>
          rw [hload] at hread
          cases hread
      | ok blocks =>
          rw [hload] at hread
          cases hread
          exact ⟨((loadBlocks_eq_ok filler).mp hload).1, rfl⟩
    · rintro ⟨hloaded, rfl⟩
      rw [(loadBlocks_eq_ok filler).mpr ⟨hloaded, rfl⟩]
      rfl

theorem exists_overlaps_of_bytesAt_eq_error (hblockSize : file.blockSize ≠ 0) {error : Error}
    (hread : file.bytesAt offset count = .error error) :
    ∃ index, file.Overlaps offset count index ∧ file.loadBlock index = .error error := by
  generalize hwanted : min count (file.size - offset) = wanted
  by_cases hpositive : wanted = 0
  · unfold bytesAt at hread
    rw [hwanted] at hread
    simp only [if_pos hpositive] at hread
    cases hread
  · rw [bytesAt_eq 0 hblockSize hwanted hpositive] at hread
    cases hload : file.loadBlocks
        ((offset + wanted - 1) / file.blockSize + 1 - offset / file.blockSize)
        (offset / file.blockSize) with
    | error found =>
        rw [hload] at hread
        cases hread
        obtain ⟨index, hfirst, hlast, hindex⟩ := exists_of_loadBlocks_eq_error hload
        exact ⟨index, (overlaps_iff hwanted hpositive hblockSize).mpr ⟨hfirst, hlast⟩, hindex⟩
    | ok blocks =>
        rw [hload] at hread
        cases hread

end Slice

end OpenFile

namespace Image

variable {codecs : Codecs} {region : Region} {image : Image} {path : String} {file : OpenFile}

theorem blockSize_ne_zero_of_ofRegion (hopen : ofRegion codecs region = .ok image) :
    image.superblock.blockSize.toNat ≠ 0 := by
  obtain ⟨superblock, codec, ids, fragments, exports, hopens, rfl⟩ := exists_opens_of_ofRegion hopen
  exact Nat.ne_of_gt (readSuperblock_eq_ok hopens.superblock_eq).1.blockSize_pos

theorem openFile_eq_ok (hfile : image.openFile path = .ok file) :
    file.image = image ∧ file.cache = none ∧
      ∃ inode, image.resolve path true = .ok inode ∧ inode.body = .file file.body := by
  obtain ⟨inode, hresolve, hfile⟩ := Except.bind_eq_ok.mp hfile
  split at hfile
  · rename_i body hbody
    obtain ⟨placed, -, hfile⟩ := Except.bind_eq_ok.mp hfile
    obtain ⟨-, hfile⟩ := Except.refuse_eq_ok.mp hfile
    obtain ⟨-, hfile⟩ := Except.refuse_eq_ok.mp hfile
    cases hfile
    exact ⟨rfl, rfl, inode, hresolve, hbody⟩
  · cases hfile

/-- A read at an offset of a file, after whatever calls on it, is the read of the file as it was
opened.  It gives as many bytes as were asked for and the file has, and these are those at the
offset in the joined blocks; it fails only as a block fails that has one of them.  If the whole
file can be read, every read gives a part of what that gives. -/
theorem readAfter_exact (hopen : ofRegion codecs region = .ok image)
    (hfile : image.openFile path = .ok file) (calls : List FileCall) (offset count : Nat) :
    file.cache = none ∧ file.readAfter calls offset count = file.readAfter [] offset count ∧
      (∀ data, file.readAfter calls offset count = .ok data →
        data.length = min count (file.size - offset) ∧
          ∀ filler, data = ((file.joinedBlocks filler).drop offset).take count) ∧
      (∀ error, file.readAfter calls offset count = .error error →
        ∃ index, file.Overlaps offset count index ∧ file.loadBlock index = .error error) ∧
      ∀ content, image.content path = .ok content →
        (∃ inode, image.resolve path true = .ok inode ∧ content.length = inode.size) ∧
          file.readAfter calls offset count = .ok ((content.drop offset).take count) := by
  obtain ⟨himage, hcache, inode, hresolve, hbody⟩ := openFile_eq_ok hfile
  have hblockSize : file.blockSize ≠ 0 := by
    rw [OpenFile.blockSize, himage]
    exact blockSize_ne_zero_of_ofRegion hopen
  have hloaded : file.CacheIsLoaded := by
    intro index data hkept
    rw [hcache] at hkept
    cases hkept
  rw [OpenFile.readAfter_eq hloaded, OpenFile.readAfter_eq hloaded]
  refine ⟨hcache, rfl, ?_, ?_, ?_⟩
  · intro data hread
    have hslice := fun filler => ((OpenFile.bytesAt_eq_ok_iff filler hblockSize).mp hread).2
    refine ⟨?_, hslice⟩
    rw [hslice 0, List.length_take, List.length_drop, OpenFile.length_joinedBlocks 0 hblockSize]
  · intro error hread
    exact OpenFile.exists_overlaps_of_bytesAt_eq_error hblockSize hread
  · intro content hcontent
    obtain ⟨found, hfound, hcontent⟩ := Except.bind_eq_ok.mp hcontent
    rw [hfile] at hfound
    cases hfound
    change file.readAfter [] 0 file.size = _ at hcontent
    rw [OpenFile.readAfter_eq hloaded] at hcontent
    obtain ⟨hblocks, hwhole⟩ := (OpenFile.bytesAt_eq_ok_iff 0 hblockSize).mp hcontent
    rw [List.drop_zero, ← OpenFile.length_joinedBlocks 0 hblockSize,
      List.take_length] at hwhole
    subst hwhole
    constructor
    · refine ⟨inode, hresolve, ?_⟩
      rw [OpenFile.length_joinedBlocks 0 hblockSize, Inode.size, hbody]
      rfl
    · refine (OpenFile.bytesAt_eq_ok_iff 0 hblockSize).mpr ⟨?_, rfl⟩
      rintro index ⟨place, -, -, hsize, hindex⟩
      exact hblocks index ⟨place, Nat.zero_le _, by omega, hsize, hindex⟩

/-- The file `d/up/f` of a sample image gives its last byte, also after a seek that was refused. -/
theorem readAfter_d_up_f :
    ∃ image file, ofRegion Codecs.machine linkedRegion = .ok image ∧
      image.openFile "d/up/f" = .ok file ∧ image.content "d/up/f" = .ok [104, 105] ∧
      file.readAfter [.readAt 0 2, .read 1, .seek .current (-2), .readToEnd] 1 9 = .ok [105] := by
  obtain ⟨image, hopen, hcontent⟩ := exists_ofRegion_linkedRegion
  obtain ⟨file, hfile, -⟩ := Except.bind_eq_ok.mp hcontent
  obtain ⟨-, -, -, -, hparts⟩ := readAfter_exact hopen hfile
    [.readAt 0 2, .read 1, .seek .current (-2), .readToEnd] 1 9
  exact ⟨image, file, hopen, hfile, hcontent, (hparts _ hcontent).2⟩

end Image

end TreeImage
