import TreeImage.Proofs.Image.PositionedRead

namespace TreeImage

inductive StreamCall
  | read (count : Nat)
  | seek (anchor : Anchor) (distance : Int)
  deriving DecidableEq, Repr

/-- What a stream answers: the bytes that it read, the position that it moved to, or the kind of
failure. -/
inductive StreamAnswer
  | data (bytes : Bytes)
  | moved (position : Nat)
  | failed (kind : IoKind)
  deriving DecidableEq, Repr

/-- The answers to calls made one after the other, and what is left after the last one. -/
def answers {σ : Type} (answer : σ → StreamCall → StreamAnswer × σ) :
    σ → List StreamCall → List StreamAnswer × σ
  | state, [] => ([], state)
  | state, call :: calls =>
      let (first, next) := answer state call
      let (rest, last) := answers answer next calls
      (first :: rest, last)

/-- A position in bytes or past their end. -/
structure Cursor where
  content : Bytes
  position : Nat
  deriving DecidableEq, Repr

namespace Cursor

def base (cursor : Cursor) : Anchor → Nat
  | .start => 0
  | .current => cursor.position
  | .fileEnd => cursor.content.length

def answer (cursor : Cursor) : StreamCall → StreamAnswer × Cursor
  | .read count =>
      let stop := min (cursor.position + count) cursor.content.length
      let bytes := cursor.content.extract cursor.position stop
      (.data bytes, { cursor with position := cursor.position + bytes.length })
  | .seek anchor distance =>
      let target := cursor.base anchor + distance
      if 0 ≤ target ∧ target < addressSpace then
        (.moved target.toNat, { cursor with position := target.toNat })
      else (.failed .invalidInput, cursor)

theorem answer_read (cursor : Cursor) (count : Nat) :
    cursor.answer (.read count) =
      (.data ((cursor.content.drop cursor.position).take count),
        { cursor with position := cursor.position +
            ((cursor.content.drop cursor.position).take count).length }) := by
  have hcut : cursor.content.extract cursor.position
      (min (cursor.position + count) cursor.content.length) =
        (cursor.content.drop cursor.position).take count := by
    rw [List.extract_eq_take_drop, List.take_eq_take_min, List.take_eq_take_min (i := count),
      List.length_drop]
    congr 1
    omega
  rw [answer, hcut]

end Cursor

namespace OpenFile

def answer (file : OpenFile) : StreamCall → StreamAnswer × OpenFile
  | .read count =>
      match (OpenFile.read count).run file with
      | (.ok bytes, next) => (.data bytes, next)
      | (.error error, next) => (.failed error.kind, next)
  | .seek anchor distance =>
      match (OpenFile.seek anchor distance).run file with
      | (.ok position, next) => (.moved position, next)
      | (.error error, next) => (.failed error.kind, next)

/-- Whether the bytes at any offset of a file can be read, and are those of a content. -/
structure Serves (file : OpenFile) (content : Bytes) : Prop where
  size_eq : file.size = content.length
  bytesAt_eq : ∀ offset count, file.bytesAt offset count = .ok ((content.drop offset).take count)

/-- Whether a file, as it is after calls on it, has the content and the position of a cursor. -/
structure Follows (file used : OpenFile) (cursor : Cursor) : Prop where
  serves : file.Serves cursor.content
  unchanged : file.Unchanged used
  position_eq : used.position = cursor.position
  position_lt : cursor.position < addressSpace

section

variable {file used : OpenFile} {cursor : Cursor} {content : Bytes}

theorem run_read_eq (file : OpenFile) (count : Nat) :
    (read count).run file =
      (((advance count).run file).1.mapError Error.toIo, ((advance count).run file).2) := rfl

/-- A read of bytes that are there gives them and moves the position past them. -/
theorem Unchanged.run_read_of_bytesAt (hused : file.Unchanged used) {count : Nat} {data : Bytes}
    (hbytes : file.bytesAt used.position count = .ok data)
    (hfits : used.position + data.length < addressSpace) :
    ∃ last, (read count).run used = (.ok data, last) ∧ file.Unchanged last ∧
      last.position = used.position + data.length := by
  obtain ⟨kept, hrun, -⟩ := readAt_readsAs used.position count used.cache hused.cache
  change (readAt used.position count).run used = _ at hrun
  rw [hused.bytesAt, hbytes] at hrun
  have hadvance : (advance count).run used =
      (.ok data, { used.keeping kept with position := used.position + data.length }) := by
    rw [advance, Action.run_bind_of_ok (Action.run_get used), Action.run_bind_of_ok hrun,
      Trapping.add_eq_ok hfits]
    rfl
  have hread : (read count).run used =
      (.ok data, { used.keeping kept with position := used.position + data.length }) := by
    rw [run_read_eq, hadvance]
    rfl
  have hkept := hused.run_read count
  rw [hread] at hkept
  exact ⟨_, hread, hkept, rfl⟩

theorem Follows.read (hfollows : file.Follows used cursor) (count : Nat) :
    (used.answer (.read count)).1 = (cursor.answer (.read count)).1 ∧
      file.Follows (used.answer (.read count)).2 (cursor.answer (.read count)).2 := by
  have hlength : ((cursor.content.drop cursor.position).take count).length ≤
      cursor.content.length - cursor.position := by
    rw [List.length_take, List.length_drop]
    exact Nat.min_le_right ..
  have hsize := file.size_lt
  rw [hfollows.serves.size_eq] at hsize
  have hposition := hfollows.position_lt
  have hfits : cursor.position + ((cursor.content.drop cursor.position).take count).length <
      addressSpace := by omega
  obtain ⟨last, hrun, hkept, hlast⟩ := hfollows.unchanged.run_read_of_bytesAt
    (by rw [hfollows.position_eq]; exact hfollows.serves.bytesAt_eq cursor.position count)
    (by rw [hfollows.position_eq]; exact hfits)
  rw [hfollows.position_eq] at hlast
  rw [Cursor.answer_read, answer, hrun]
  exact ⟨rfl, hfollows.serves, hkept, hlast, hfits⟩

theorem Follows.seekTarget_eq (hfollows : file.Follows used cursor) (anchor : Anchor)
    (distance : Int) : used.seekTarget anchor distance = cursor.base anchor + distance := by
  have hsize : used.size = cursor.content.length := by
    rw [size, hfollows.unchanged.body]
    exact hfollows.serves.size_eq
  cases anchor with
  | start => rfl
  | current => rw [seekTarget, Cursor.base, hfollows.position_eq]
  | fileEnd => rw [seekTarget, Cursor.base, hsize]

theorem Follows.seek (hfollows : file.Follows used cursor) (anchor : Anchor) (distance : Int) :
    (used.answer (.seek anchor distance)).1 = (cursor.answer (.seek anchor distance)).1 ∧
      file.Follows (used.answer (.seek anchor distance)).2
        (cursor.answer (.seek anchor distance)).2 := by
  rw [answer, seek_eq, hfollows.seekTarget_eq, Cursor.answer]
  generalize (cursor.base anchor : Int) + distance = target
  by_cases hinside : 0 ≤ target ∧ target < addressSpace
  · rw [if_pos hinside, if_neg (by omega)]
    exact ⟨rfl, hfollows.serves, hfollows.unchanged.moved _, rfl, by simp only; omega⟩
  · rw [if_neg hinside, if_pos (by omega)]
    exact ⟨rfl, hfollows⟩

theorem Follows.answer (hfollows : file.Follows used cursor) (call : StreamCall) :
    (used.answer call).1 = (cursor.answer call).1 ∧
      file.Follows (used.answer call).2 (cursor.answer call).2 := by
  cases call with
  | read count => exact hfollows.read count
  | seek anchor distance => exact hfollows.seek anchor distance

theorem Follows.answers (hfollows : file.Follows used cursor) (calls : List StreamCall) :
    (answers OpenFile.answer used calls).1 = (answers Cursor.answer cursor calls).1 ∧
      file.Follows (answers OpenFile.answer used calls).2
        (answers Cursor.answer cursor calls).2 := by
  induction calls generalizing used cursor with
  | nil => exact ⟨rfl, hfollows⟩
  | cons call calls ih =>
      obtain ⟨hfirst, hnext⟩ := hfollows.answer call
      obtain ⟨hrest, hlast⟩ := ih hnext
      exact ⟨congrArg₂ List.cons hfirst hrest, hlast⟩

end

end OpenFile

namespace Image

variable {codecs : Codecs} {region : Region} {image : Image} {path : String} {file : OpenFile}
  {content : Bytes}

theorem position_of_openFile (hfile : image.openFile path = .ok file) : file.position = 0 := by
  obtain ⟨inode, -, hfile⟩ := Except.bind_eq_ok.mp hfile
  split at hfile
  · obtain ⟨placed, -, hfile⟩ := Except.bind_eq_ok.mp hfile
    obtain ⟨-, hfile⟩ := Except.refuse_eq_ok.mp hfile
    obtain ⟨-, hfile⟩ := Except.refuse_eq_ok.mp hfile
    cases hfile
    rfl
  · cases hfile

theorem unused_of_openFile (hopen : ofRegion codecs region = .ok image)
    (hfile : image.openFile path = .ok file) : file.CacheIsLoaded ∧ file.blockSize ≠ 0 := by
  obtain ⟨himage, hcache, -⟩ := openFile_eq_ok hfile
  constructor
  · intro index data hkept
    rw [hcache] at hkept
    cases hkept
  · rw [OpenFile.blockSize, himage]
    exact blockSize_ne_zero_of_ofRegion hopen

theorem serves_of_content (hopen : ofRegion codecs region = .ok image)
    (hfile : image.openFile path = .ok file) (hcontent : image.content path = .ok content) :
    file.Serves content := by
  obtain ⟨hloaded, hblockSize⟩ := unused_of_openFile hopen hfile
  have hread : file.bytesAt 0 file.size = .ok content := by
    rw [Image.content, hfile, Except.ok_bind] at hcontent
    rw [← hcontent, ((OpenFile.Unchanged.refl hloaded).run_readAt 0 file.size).1]
  obtain ⟨hblocks, rfl⟩ := (OpenFile.bytesAt_eq_ok_iff 0 hblockSize).mp hread
  have hlength := OpenFile.length_joinedBlocks 0 hblockSize
  rw [List.drop_zero, ← hlength, List.take_length]
  refine ⟨hlength.symm, fun offset count => ?_⟩
  refine (OpenFile.bytesAt_eq_ok_iff 0 hblockSize).mpr ⟨?_, rfl⟩
  rintro index ⟨place, -, -, hsize, hindex⟩
  exact hblocks index ⟨place, Nat.zero_le _, by omega, hsize, hindex⟩

/-- An opened file whose content can be read is a cursor over that content, whatever reads and
seeks are made on it: they answer the same, and after them the position is the same, which is one
that 64 bits can name. -/
theorem answers_eq_cursor (hopen : ofRegion codecs region = .ok image)
    (hfile : image.openFile path = .ok file) (hcontent : image.content path = .ok content)
    (calls : List StreamCall) :
    (answers OpenFile.answer file calls).1 = (answers Cursor.answer ⟨content, 0⟩ calls).1 ∧
      (answers OpenFile.answer file calls).2.position =
        (answers Cursor.answer ⟨content, 0⟩ calls).2.position ∧
      (answers OpenFile.answer file calls).2.position < addressSpace := by
  have hfollows : file.Follows file ⟨content, 0⟩ :=
    ⟨serves_of_content hopen hfile hcontent, .refl (unused_of_openFile hopen hfile).1,
      position_of_openFile hfile, Nat.two_pow_pos 64⟩
  obtain ⟨hanswers, hlast⟩ := hfollows.answers calls
  exact ⟨hanswers, hlast.position_eq, by rw [hlast.position_eq]; exact hlast.position_lt⟩

/-- The file `d/up/f` of a sample image, read and sought: before its start it cannot be moved to,
past its end there is nothing. -/
theorem answers_d_up_f :
    ∃ image file, ofRegion Codecs.machine linkedRegion = .ok image ∧
      image.openFile "d/up/f" = .ok file ∧
      (answers OpenFile.answer file [.read 1, .seek .fileEnd (-3), .seek .current 5, .read 4,
        .seek .start 1, .read 9]).1 =
      [.data [104], .failed .invalidInput, .moved 6, .data [], .moved 1, .data [105]] := by
  obtain ⟨image, hopen, hcontent⟩ := exists_ofRegion_linkedRegion
  obtain ⟨file, hfile, -⟩ := Except.bind_eq_ok.mp hcontent
  obtain ⟨hanswers, -⟩ := answers_eq_cursor hopen hfile hcontent
    [.read 1, .seek .fileEnd (-3), .seek .current 5, .read 4, .seek .start 1, .read 9]
  exact ⟨image, file, hopen, hfile, hanswers.trans (by decide)⟩

end Image

end TreeImage
