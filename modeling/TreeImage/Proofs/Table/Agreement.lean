import TreeImage.Proofs.Format.Likeness
import TreeImage.Proofs.Storage.Stream
import TreeImage.Proofs.Table.Reader
import TreeImage.Table.Lookup

namespace TreeImage

open Format

namespace Region

/-- Whether the reads of two regions that end at or before a limit are the same. -/
def AgreesBelow (limit : Nat) (region other : Region) : Prop :=
  ∀ offset count, offset + count ≤ limit → other.read offset count = region.read offset count

variable {limit : Nat} {region other : Region}

theorem AgreesBelow.mono {less : Nat} (hagrees : AgreesBelow limit region other)
    (hle : less ≤ limit) : AgreesBelow less region other :=
  fun offset count hend => hagrees offset count (Nat.le_trans hend hle)

/-- Windows of two memories that hold the same bytes up to a limit. -/
theorem agreesBelow_ofStorage {left right : Storage} (hleft : left.InMemory)
    (hright : right.InMemory) {start : Nat} (size : Nat) (hleftHeld : start + limit ≤ left.size)
    (hrightHeld : start + limit ≤ right.size)
    (hsame : (left.content.toList.drop start).take limit =
      (right.content.toList.drop start).take limit) :
    AgreesBelow limit (ofStorage left start size) (ofStorage right start size) := by
  intro offset count hend
  have hleftSize := hleft.size_lt
  have hrightSize := hright.size_lt
  have hpart : ∀ bytes : Bytes, (bytes.drop (start + offset)).take count =
      (((bytes.drop start).take limit).drop offset).take count := by
    intro bytes
    rw [List.drop_take, List.take_take, List.drop_drop, Nat.min_eq_left (by omega)]
  have hheld : (ofStorage right start size).held offset count =
      (ofStorage left start size).held offset count := by
    rw [held, held]
    change (right.content.toList.drop (start + offset)).take count =
      (left.content.toList.drop (start + offset)).take count
    rw [hpart, hpart, hsame]
  rw [read_eq_held (show (ofStorage left start size).storage.Moves from hleft.toMoves),
    read_eq_held (show (ofStorage right start size).storage.Moves from hright.toMoves), hheld]
  · rfl
  all_goals
    dsimp only [ofStorage]
    omega

/-- The same bytes in a window that is open at its end, of a storage that moves all it is asked
to. -/
def opened (region : Region) : Region :=
  ⟨Storage.ofBytes region.storage.content.toList, region.start, none⟩

theorem isOpen_opened (region : Region) : region.opened.IsOpen := ⟨fun _ _ => rfl, rfl⟩

theorem agreesBelow_opened (hmoves : region.storage.Moves)
    (hdeclared : ∀ size, region.declared = some size → limit ≤ size)
    (hheld : region.start + limit ≤ region.storage.size)
    (hend : region.start + limit ≤ addressSpace) : AgreesBelow limit region.opened region := by
  intro offset count hle
  have hcheck : region.check offset count = .ok () :=
    check_eq_ok.mpr fun size hsize => Nat.le_trans hle (hdeclared size hsize)
  have hheldOpened : region.opened.held offset count = region.held offset count := by
    simp [held, opened, Storage.ofBytes]
  have hsize : region.opened.storage.size = region.storage.size := by
    simp [opened, Storage.ofBytes, Storage.size]
  have hopened := read_eq_held (show region.opened.storage.Moves from fun _ _ hcount => hcount)
    (show region.start + (offset + count) ≤ _ by omega)
    (show region.start + (offset + count) ≤ _ by omega)
  rw [read_eq_held hmoves (by omega) (by omega), hcheck, hopened, hheldOpened]
  rfl

variable {offset : Nat} {bytes : Bytes}

theorem Stores.opened (hstores : region.Stores offset bytes) :
    region.opened.Stores offset bytes :=
  ⟨by simpa [Region.opened, Storage.ofBytes] using hstores.isPrefix, hstores.end_lt⟩

theorem Stores.agreesBelow_opened (hstores : region.Stores offset bytes)
    (hmoves : region.storage.Moves) (hfits : region.Fits (offset, bytes)) (hne : bytes ≠ []) :
    AgreesBelow (offset + bytes.length) region.opened region := by
  have hend := hstores.end_lt hne
  have hpositive := List.length_pos_iff.mpr hne
  have hheld := hstores.isPrefix.length_le
  have hsize : region.storage.content.toList.length = region.storage.size := Array.length_toList
  rw [List.length_drop, hsize] at hheld
  exact Region.agreesBelow_opened hmoves hfits (by omega) (by omega)

end Region

namespace Table

variable {limit : Nat} {region other : Region} (hagrees : Region.AgreesBelow limit region other)
include hagrees

theorem readBlock_of_agrees {stop : Nat} (hstop : stop ≤ limit) (codec : Codec)
    (position : Nat) :
    readBlock other codec position stop = readBlock region codec position stop := by
  unfold readBlock
  refine Except.refuse_congr fun hstart => ?_
  rw [hagrees position 2 (by omega)]
  refine Except.bind_congr_of_ok fun header _ => ?_
  refine Except.refuse_congr fun _ => ?_
  refine Except.bind_congr_of_ok fun blockEnd hblockEnd => ?_
  obtain ⟨-, rfl⟩ := Trapping.eq_of_add_eq_ok hblockEnd
  refine Except.refuse_congr fun hoverrun => ?_
  rw [hagrees (position + 2) _ (by omega)]

theorem readIndex_of_agrees (start count entrySize : Nat) :
    readIndex other start count entrySize limit = readIndex region start count entrySize limit := by
  unfold readIndex
  refine Except.bind_congr_of_ok fun wanted _ => ?_
  refine Except.bind_congr_of_ok fun length _ => ?_
  refine Except.refuse_congr fun hpast => ?_
  rw [hagrees start length (by omega)]

theorem readBlocks_of_agrees {stop : Nat} (hstop : stop ≤ limit) (codec : Codec)
    (positions : List Nat) (data : Buffer) :
    readBlocks other codec stop positions data = readBlocks region codec stop positions data := by
  induction positions generalizing data with
  | nil => rfl
  | cons position positions ih =>
      rw [readBlocks, readBlocks, readBlock_of_agrees hagrees hstop]
      exact Except.bind_congr_of_ok fun block _ => ih _

theorem readEntries_of_agrees {start : Nat} (hstart : start ≤ limit) (codec : Codec)
    (positions : List Nat) (count entrySize : Nat) :
    readEntries other codec positions start count entrySize =
      readEntries region codec positions start count entrySize := by
  unfold readEntries
  rw [readBlocks_of_agrees hagrees hstart]

end Table

def RecordTable.onRegion (table : RecordTable) (region : Region) : RecordTable :=
  { table with region }

def TableCursor.onRegion (cursor : TableCursor) (region : Region) : TableCursor :=
  { cursor with table := cursor.table.onRegion region }

namespace RecordTable

variable {table : RecordTable} {other : Region}
  (hagrees : Region.AgreesBelow table.stop table.region other)
include hagrees

theorem readBlock_onRegion (position : Nat) :
    (table.onRegion other).readBlock position = table.readBlock position := by
  unfold readBlock
  refine Except.bind_congr_of_ok fun address _ => ?_
  exact Table.readBlock_of_agrees hagrees (Nat.le_refl _) table.codec address

theorem cursor_onRegion (ref : RecordRef) :
    (table.onRegion other).cursor ref = (table.cursor ref).map (·.onRegion other) := by
  unfold cursor
  rw [readBlock_onRegion hagrees]
  cases table.readBlock ref.block.toNat with
  | error error => rfl
  | ok block =>
      rw [Except.ok_bind, Except.ok_bind]
      by_cases hoffset : block.1.length < ref.offset.toNat
      · simp only [if_pos hoffset]
        rfl
      · simp only [if_neg hoffset]
        cases Trapping.slice block.1 ref.offset.toNat block.1.length with
        | error error => rfl
        | ok unread =>
            cases Trapping.add ref.block.toNat (2 + block.2) with
            | error error => rfl
            | ok next => rfl

theorem collect_onRegion (count : Nat) (unread : Bytes) (next : Nat) (got : Bytes) :
    (table.onRegion other).collect count unread next got =
      (table.collect count unread next got).map fun read => (read.1, read.2.onRegion other) := by
  induction hleft : table.size - next using Nat.strongRecOn
    generalizing count unread next got with
  | _ left ih =>
      by_cases hle : count ≤ unread.length
      · rw [collect_of_le hle, collect_of_le hle]
        rfl
      · rw [collect_of_lt (by omega), collect_of_lt (by omega), readBlock_onRegion hagrees]
        change (if table.stop < table.start then _ else if table.size ≤ next then _ else _) = _
        by_cases horder : table.stop < table.start
        · rw [if_pos horder, if_pos horder]
          rfl
        · by_cases hend : table.size ≤ next
          · rw [if_neg horder, if_neg horder, if_pos hend, if_pos hend]
            rfl
          · rw [if_neg horder, if_neg horder, if_neg hend, if_neg hend]
            cases table.readBlock next with
            | error error => rfl
            | ok block =>
                rw [Except.ok_bind, Except.ok_bind]
                by_cases hfits : addressSpace ≤ next + (2 + block.2)
                · simp only [if_pos hfits]
                  rfl
                · simp only [if_neg hfits]
                  exact ih _ (by omega) _ _ _ _ rfl

/-- A cursor in a table is like the one at the same place of the table in the other region. -/
def likeness : Likeness TableCursor TableCursor where
  Like cursor twin := cursor.table = table ∧ twin = cursor.onRegion other
  take_alike := by
    rintro cursor _ count ⟨rfl, rfl⟩
    change Alike _ (cursor.table.collect count cursor.unread cursor.next [])
      ((cursor.table.onRegion other).collect count cursor.unread cursor.next [])
    rw [collect_onRegion hagrees]
    cases hcollect : cursor.table.collect count cursor.unread cursor.next [] with
    | error error => exact .error error
    | ok read => exact .ok ⟨rfl, table_of_collect hcollect, rfl⟩

theorem read_onRegion {α : Type} {step : Decoder TableCursor α}
    (hstep : Decoder.Agrees (likeness hagrees) step step) (ref : RecordRef) :
    ((table.onRegion other).cursor ref >>= fun cursor => (step cursor).map Prod.fst) =
      (table.cursor ref >>= fun cursor => (step cursor).map Prod.fst) := by
  rw [cursor_onRegion hagrees]
  cases hcursor : table.cursor ref with
  | error error => rfl
  | ok cursor =>
      have halike := hstep cursor (cursor.onRegion other) ⟨table_of_cursor hcursor, rfl⟩
      change (step (cursor.onRegion other)).map Prod.fst = (step cursor).map Prod.fst
      generalize step cursor = read, step (cursor.onRegion other) = twinRead at halike ⊢
      cases halike with
      | error error => rfl
      | ok hlike => exact congrArg Except.ok hlike.1.symm

end RecordTable

end TreeImage
