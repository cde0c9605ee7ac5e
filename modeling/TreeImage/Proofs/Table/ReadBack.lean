import Mathlib.Data.List.SplitLengths
import TreeImage.Proofs.Codec.FrameLimit
import TreeImage.Proofs.Storage.Stream
import TreeImage.Proofs.Table.Agreement
import TreeImage.Proofs.Table.RecordStream

namespace TreeImage

open Format

namespace Format

variable {σ τ : Type} [RecordSource σ] [RecordSource τ]

def pieces : List Nat → Decoder σ (List Bytes)
  | [] => return []
  | count :: counts => do
      let piece ← bytes count
      return piece :: (← pieces counts)

theorem map_pieces_cons (count : Nat) (counts : List Nat) (source : σ) :
    (pieces (count :: counts) source).map Prod.fst =
      RecordSource.take count source >>= fun taken =>
        ((pieces counts taken.2).map Prod.fst).map (taken.1 :: ·) := by
  change (Except.bind (RecordSource.take count source) _).map Prod.fst =
    Except.bind (RecordSource.take count source) _
  cases RecordSource.take count source with
  | error error => rfl
  | ok taken =>
      change (Except.bind (pieces counts taken.2) _).map Prod.fst =
        ((pieces counts taken.2).map Prod.fst).map (taken.1 :: ·)
      cases pieces counts taken.2 with
      | error error => rfl
      | ok found => rfl

theorem agrees_pieces {likeness : Likeness σ τ} (counts : List Nat) :
    Decoder.Agrees likeness (pieces counts) (pieces counts) := by
  induction counts with
  | nil => exact .pure []
  | cons count counts ih =>
      exact (Decoder.agrees_bytes count).bind fun piece => ih.bind fun found => .pure _

end Format

namespace RecordTable

variable {table : RecordTable} {compress : Bool} {later unread rest : Bytes} {count next : Nat}

/-- The pieces of given lengths that a table has from a reference on. -/
def readPieces (table : RecordTable) (ref : RecordRef) (counts : List Nat) :
    Except Error (List Bytes) := do
  let cursor ← table.cursor ref
  (pieces counts cursor).map Prod.fst

/-- Where a table ends with the stream that it stores, a read past the stream is damage. -/
theorem StoresFrom.collect_of_short (hstores : table.StoresFrom compress next later)
    (hend : table.start + table.endOf compress next later = table.stop)
    (hshort : (unread ++ later).length < count) (got : Bytes) :
    table.collect count unread next got = .error (.corruptTable .recordPastEnd) := by
  induction hleft : later.length using Nat.strongRecOn
    generalizing later unread next count got with
  | _ left ih =>
      rw [List.length_append] at hshort
      rw [collect_of_lt (by omega), if_neg (by omega)]
      by_cases hnil : later = []
      · subst hnil
        have hpast : table.size ≤ next := by
          simp only [endOf, Table.storedTable, blocksOf_nil, List.flatMap_nil,
            List.length_nil] at hend
          unfold size
          omega
        rw [if_pos hpast]
      · obtain ⟨stored, hread, hsize, hstop, hrest, hsame⟩ := hstores.readBlock hnil
        have hpositive := List.length_pos_iff.mpr hnil
        have hstopLt := hstores.stop_lt
        rw [if_neg (by omega), hread, Except.ok_bind]
        simp only [if_neg (show ¬addressSpace ≤ next + (2 + stored) by omega)]
        refine ih _ ?_ hrest (by rw [hsame, hend]) ?_ _ rfl
        · rw [List.length_drop]
          unfold metadataBlockSize
          omega
        · rw [List.take_append_drop]
          omega

end RecordTable

/-- Whether a cursor stands before the last bytes of its table. -/
def TableCursor.EndsWith (cursor : TableCursor) (compress : Bool) (rest : Bytes) : Prop :=
  ∃ later, cursor.unread ++ later = rest ∧ cursor.table.StoresFrom compress cursor.next later ∧
    cursor.table.start + cursor.table.endOf compress cursor.next later = cursor.table.stop

namespace TableCursor

variable {cursor : TableCursor} {compress : Bool} {rest : Bytes} {count : Nat}

theorem EndsWith.take_of_le (hends : cursor.EndsWith compress rest) (hle : count ≤ rest.length) :
    ∃ last : TableCursor, RecordSource.take count cursor = .ok (rest.take count, last) ∧
      last.EndsWith compress (rest.drop count) := by
  obtain ⟨later, rfl, hstores, hend⟩ := hends
  have hcount : ((cursor.unread ++ later).take count).length = count :=
    List.length_take_of_le hle
  obtain ⟨last, hcollect, htable, left, hleft, hlast, hsame⟩ :=
    hstores.collect [] (List.take_append_drop count (cursor.unread ++ later)).symm
  rw [hcount] at hcollect
  refine ⟨last, hcollect, left, hleft.symm, ?_, ?_⟩
  · rwa [htable]
  · rwa [htable, hsame]

theorem EndsWith.take_of_lt (hends : cursor.EndsWith compress rest) (hlt : rest.length < count) :
    RecordSource.take count cursor = .error (.corruptTable .recordPastEnd) := by
  obtain ⟨later, rfl, hstores, hend⟩ := hends
  exact hstores.collect_of_short hend hlt []

theorem EndsWith.pieces_eq (hends : cursor.EndsWith compress rest) (counts : List Nat) :
    (pieces counts cursor).map Prod.fst =
      if counts.sum ≤ rest.length then .ok (counts.splitLengths rest)
      else .error (.corruptTable .recordPastEnd) := by
  induction counts generalizing cursor rest with
  | nil => rfl
  | cons count counts ih =>
      rw [map_pieces_cons, List.sum_cons]
      by_cases hle : count ≤ rest.length
      · obtain ⟨last, htake, hlast⟩ := hends.take_of_le hle
        rw [htake, Except.ok_bind]
        simp only [ih hlast, List.length_drop]
        by_cases hfits : counts.sum ≤ rest.length - count
        · rw [if_pos hfits, if_pos (by omega)]
          simp [Except.map, List.splitLengths]
        · rw [if_neg hfits, if_neg (by omega)]
          rfl
      · rw [hends.take_of_lt (Nat.lt_of_not_le hle), if_neg (by omega)]
        rfl

end TableCursor

namespace Table

variable {codec : Codec} {compress : Bool}

/-- Whether a block header is at a position of a table: one is at its front, and one comes after
as many bytes as the header before it says. -/
inductive HasHeader (table : Bytes) : Nat → Prop
  | first (hne : table ≠ []) : HasHeader table 0
  | next {position : Nat} (hheader : HasHeader table position) {after : Nat}
      (hafter : after =
        position + 2 + fromLittleEndian ((table.drop position).take 2) % metadataRaw)
      (hlt : after < table.length) : HasHeader table after

theorem header_storedBlock (hcodec : compress = true → codec.IsFaithful) {payload : Bytes}
    (hpayload : payload ≠ []) (hlength : payload.length ≤ metadataBlockSize) (rest : Bytes) :
    2 + fromLittleEndian ((storedBlock codec compress payload ++ rest).take 2) % metadataRaw =
      (storedBlock codec compress payload).length := by
  obtain ⟨frame, isCompressed, hrepresents, hencode, hheader⟩ :=
    represents_storedBlock compress hcodec hpayload hlength
  have hframe := hrepresents.length_le
  rw [hencode, List.append_assoc, List.take_left' (length_littleEndian _ _), hheader,
    List.length_append, length_littleEndian]
  unfold metadataBlockSize at hlength
  unfold metadataRaw
  split
  all_goals omega

theorem storedTable_ne_nil {stream : Bytes} (hstream : stream ≠ []) :
    storedTable codec compress stream ≠ [] := by
  intro hnil
  have hlength := length_storedBlock_pos codec compress (stream.take metadataBlockSize)
  rw [storedTable_of_ne_nil hstream] at hnil
  rw [(List.append_eq_nil_iff.mp hnil).1] at hlength
  cases hlength

theorem hasHeader_storedTable (hcodec : compress = true → codec.IsFaithful)
    {full rest : Bytes} (hfull : metadataBlockSize ∣ full.length) (hrest : rest ≠ []) :
    HasHeader (storedTable codec compress (full ++ rest))
      (storedTable codec compress full).length := by
  obtain ⟨blocks, hblocks⟩ := hfull
  induction blocks generalizing full rest with
  | zero =>
      obtain rfl := List.length_eq_zero_iff.mp hblocks
      have hnone : (storedTable codec compress []).length = 0 := by simp [storedTable]
      rw [List.nil_append, hnone]
      exact .first (storedTable_ne_nil hrest)
  | succ blocks ih =>
      -- the last full block begins where the blocks before it end
      obtain ⟨front, block, rfl, hfront, hblock⟩ : ∃ front block, full = front ++ block ∧
          front.length = metadataBlockSize * blocks ∧ block.length = metadataBlockSize := by
        refine ⟨full.take (metadataBlockSize * blocks), full.drop (metadataBlockSize * blocks),
          (List.take_append_drop ..).symm, List.length_take_of_le ?_, ?_⟩
        all_goals
          try rw [List.length_drop]
          unfold metadataBlockSize at *
          omega
      have hne : block ≠ [] := by
        rintro rfl
        cases hblock
      have hnext : storedTable codec compress (front ++ block) =
          storedTable codec compress front ++ storedBlock codec compress block := by
        rw [storedTable_append ⟨_, hfront⟩, storedTable_of_length_le hne (Nat.le_of_eq hblock)]
      have hwhole : storedTable codec compress (front ++ block ++ rest) =
          storedTable codec compress front ++
            (storedBlock codec compress block ++ storedTable codec compress rest) := by
        rw [storedTable_append ⟨_, hblocks⟩, hnext, List.append_assoc]
      have hbefore := ih (show block ++ rest ≠ [] by simp [hne]) hfront
      rw [← List.append_assoc] at hbefore
      have hpositive : 0 < (storedTable codec compress rest).length :=
        List.length_pos_iff.mpr (storedTable_ne_nil hrest)
      refine .next hbefore ?_ ?_
      · rw [hwhole, List.drop_left, Nat.add_assoc,
          header_storedBlock hcodec hne (Nat.le_of_eq hblock), hnext, List.length_append]
      · rw [hwhole, hnext]
        simp only [List.length_append]
        omega

theorem hasHeader_placeOf (hcodec : compress = true → codec.IsFaithful) {front after : Bytes}
    (hafter : after ≠ []) (hsmall : (storedTable codec compress
      (fullBefore (front ++ after) front.length)).length < 2 ^ 32) :
    (placeOf codec compress (front ++ after) front.length).offset.toNat < metadataBlockSize ∧
      HasHeader (storedTable codec compress (front ++ after))
        (placeOf codec compress (front ++ after) front.length).block.toNat := by
  have hrecord : HasRecord codec compress (front ++ after)
      (placeOf codec compress (front ++ after) front.length) after :=
    ⟨front, [], by simp, rfl, hsmall⟩
  have hle : front.length / metadataBlockSize * metadataBlockSize ≤ front.length :=
    Nat.div_mul_le_self _ _
  have hlength : (front ++ after).length = front.length + after.length := List.length_append
  have hpositive := List.length_pos_iff.mpr hafter
  refine ⟨hrecord.offset_lt, ?_⟩
  rw [placeOf, UInt32.toNat_ofNat', Nat.mod_eq_of_lt hsmall]
  conv => arg 1; rw [← List.take_append_drop
    (front.length / metadataBlockSize * metadataBlockSize) (front ++ after)]
  refine hasHeader_storedTable hcodec ?_ ?_
  · rw [List.length_take_of_le (by omega)]
    exact Nat.dvd_mul_left _ _
  · rw [← List.length_pos_iff, List.length_drop]
    omega

end Table

namespace TableWriter

variable {codec : Codec} {compress : Bool} {writer last : TableWriter} {stream : Bytes}

/-- Appends records one after the other and returns their references. -/
def appendAll : List Bytes → TableWriter → Except Error (List RecordRef × TableWriter)
  | [], writer => .ok ([], writer)
  | record :: records, writer => do
      let (ref, writer) ← writer.append record
      let (refs, writer) ← appendAll records writer
      return (ref :: refs, writer)

theorem Wrote.appendAll (hwrote : writer.Wrote codec compress stream) {records : List Bytes}
    {refs : List RecordRef} (happend : appendAll records writer = .ok (refs, last)) :
    last.Wrote codec compress (stream ++ records.flatten) ∧ refs.length = records.length ∧
      ∀ i ref, refs[i]? = some ref → ∃ front, front = stream ++ (records.take i).flatten ∧
        ref = Table.placeOf codec compress front front.length ∧
        (Table.storedTable codec compress (Table.fullBefore front front.length)).length <
          2 ^ 32 := by
  induction records generalizing writer stream refs with
  | nil =>
      cases happend
      exact ⟨by simpa using hwrote, rfl, nofun⟩
  | cons record records ih =>
      rw [TableWriter.appendAll] at happend
      obtain ⟨⟨ref, middle⟩, hfirst, happend⟩ := Except.bind_eq_ok.mp happend
      obtain ⟨⟨others, ended⟩, hothers, happend⟩ := Except.bind_eq_ok.mp happend
      cases happend
      obtain ⟨hmiddle, href, hsmall⟩ := hwrote.append hfirst
      obtain ⟨hlast, hlength, hrefs⟩ := ih hmiddle hothers
      refine ⟨by simpa using hlast, congrArg (· + 1) hlength, ?_⟩
      rintro (_ | i) other hother
      · cases hother
        exact ⟨stream, by simp, href, hsmall⟩
      · obtain ⟨front, rfl, hplace⟩ := hrefs i other hother
        exact ⟨_, by simp, hplace⟩

end TableWriter

namespace RecordTable

/-- Whether a table is bounded to just these bytes of its region.  Any bytes may be around them,
and calls to the storage may move fewer bytes than they are asked to. -/
structure IsBoundedTo (table : RecordTable) (bytes : Bytes) : Prop where
  moves : table.region.storage.Moves
  stores : table.region.Stores table.start bytes
  stop_eq : table.stop = table.start + bytes.length
  stop_le : ∀ size, table.region.declared = some size → table.stop ≤ size

variable {table : RecordTable} {compress : Bool} {front after : Bytes}

theorem IsBoundedTo.readPieces_eq
    (hbounded : table.IsBoundedTo (Table.storedTable table.codec compress (front ++ after)))
    (hcodec : compress = true → table.codec.IsFaithful) (hafter : after ≠ [])
    (hsmall : (Table.storedTable table.codec compress
      (Table.fullBefore (front ++ after) front.length)).length < 2 ^ 32) (counts : List Nat) :
    table.readPieces (Table.placeOf table.codec compress (front ++ after) front.length) counts =
      if counts.sum ≤ after.length then .ok (counts.splitLengths after)
      else .error (.corruptTable .recordPastEnd) := by
  obtain ⟨hmoves, hstores, hstop, hdeclared⟩ := hbounded
  have hne : Table.storedTable table.codec compress (front ++ after) ≠ [] :=
    Table.storedTable_ne_nil (by simp [hafter])
  have hend := hstores.end_lt hne
  have hagrees : Region.AgreesBelow table.stop table.region.opened table.region := by
    rw [hstop] at hdeclared ⊢
    exact hstores.agreesBelow_opened hmoves hdeclared hne
  let twin := table.onRegion table.region.opened
  have hopen : twin.StoresFrom compress 0 (front ++ after) := by
    refine ⟨table.region.isOpen_opened, hcodec, hstores.opened, Nat.le_of_eq hstop.symm, ?_⟩
    change table.stop < addressSpace
    omega
  obtain ⟨cursor, later, hcursor, htable, hbytes, hlater, hsame⟩ := hopen.cursorAt hafter hsmall
  have hends : cursor.EndsWith compress after := by
    refine ⟨later, hbytes, ?_, ?_⟩
    · rwa [htable]
    · rw [htable, hsame, endOf, Nat.zero_add]
      exact hstop.symm
  have htwin : twin.readPieces (Table.placeOf table.codec compress (front ++ after) front.length)
      counts = table.readPieces _ counts :=
    (read_onRegion (show Region.AgreesBelow twin.stop twin.region table.region from hagrees)
      (agrees_pieces counts) _).symm
  rw [← htwin, readPieces]
  change twin.cursor (Table.placeOf twin.codec compress (front ++ after) front.length) >>= _ = _
  rw [hcursor, Except.ok_bind]
  exact hends.pieces_eq counts

end RecordTable

namespace TableWriter

variable {codec : Codec} {compress : Bool} {records : List Bytes} {refs : List RecordRef}
  {writer : TableWriter}

/-- A table gives all its records back.  Each reference names a block header of the table and a
place in a block, and from there on the table reads the bytes of the record and of those after it,
in pieces of any lengths, but none past the last record.  The codec matters only to a table that is
compressed.  Beyond giving back what it compressed, it is assumed to compress no block to nothing
(`compress_ne_nil`), since no reader takes a stored length of zero
(`readBlock_of_compress_eq_nil`). -/
theorem records_read_back (hcodec : compress = true → codec.IsFaithful)
    (hrecords : ∀ record ∈ records, record ≠ [])
    (happend : (empty codec compress).appendAll records = .ok (refs, writer)) :
    refs.length = records.length ∧ ∃ bytes, writer.finish = .ok bytes ∧
      (∀ ref ∈ refs, ref.offset.toNat < 8192 ∧ Table.HasHeader bytes ref.block.toNat) ∧
      ∀ table : RecordTable, table.codec = codec → table.IsBoundedTo bytes →
        ∀ i ref, refs[i]? = some ref → ∀ counts : List Nat,
          table.readPieces ref counts =
            if counts.sum ≤ (records.drop i).flatten.length then
              .ok (counts.splitLengths (records.drop i).flatten)
            else .error (.corruptTable .recordPastEnd) := by
  obtain ⟨hwrote, hlength, hrefs⟩ := (wrote_empty codec compress).appendAll happend
  have hfinish := hwrote.finish fun hcompress => (hcodec hcompress).compresses
  rw [List.nil_append] at hfinish
  have hplaces : ∀ i ref, refs[i]? = some ref → ∃ front after, records.flatten = front ++ after ∧
      after = (records.drop i).flatten ∧ after ≠ [] ∧
      ref = Table.placeOf codec compress (front ++ after) front.length ∧
      (Table.storedTable codec compress (Table.fullBefore (front ++ after) front.length)).length <
        2 ^ 32 := by
    intro i ref href
    obtain ⟨front, hfront, hplace, hsmall⟩ := hrefs i ref href
    rw [List.nil_append] at hfront
    have hi : i < records.length := hlength ▸ (List.getElem?_eq_some_iff.mp href).1
    refine ⟨front, _, ?_, rfl, ?_, ?_, ?_⟩
    · rw [hfront, ← List.flatten_append, List.take_append_drop]
    · rw [List.drop_eq_getElem_cons hi, List.flatten_cons]
      have hne := hrecords records[i] (List.getElem_mem hi)
      simp [hne]
    · rw [hplace, Table.placeOf_append (Nat.le_refl _)]
    · rwa [Table.fullBefore_append (Nat.le_refl _)]
  refine ⟨hlength, _, hfinish, ?_, ?_⟩
  · rintro ref href
    obtain ⟨i, hi⟩ := List.mem_iff_getElem?.mp href
    obtain ⟨front, after, hstream, -, hafter, rfl, hsmall⟩ := hplaces i ref hi
    rw [hstream]
    exact Table.hasHeader_placeOf hcodec hafter hsmall
  · rintro table rfl hbounded i ref href counts
    obtain ⟨front, after, hstream, rfl, hafter, rfl, hsmall⟩ := hplaces i ref href
    rw [hstream] at hbounded
    exact hbounded.readPieces_eq hcodec hafter hsmall counts

def twoRecords : TableWriter := ⟨Codecs.machine.gzip, true, #[], #[1, 2, 3, 4]⟩

theorem appendAll_twoRecords : (empty Codecs.machine.gzip true).appendAll [[1, 2, 3], [4]] =
    .ok ([⟨0, 0⟩, ⟨0, 3⟩], twoRecords) :=
  rfl

def twoRecordBytes : Bytes := Table.storedTable Codecs.machine.gzip true [1, 2, 3, 4]

def twoRecordTable : RecordTable :=
  ⟨⟨Storage.ofBytes (7 :: (twoRecordBytes ++ [9])), 0, none⟩, Codecs.machine.gzip, 1,
    1 + twoRecordBytes.length⟩

theorem isBoundedTo_twoRecordTable : twoRecordTable.IsBoundedTo twoRecordBytes := by
  have hlength : twoRecordBytes.length ≤ 3 * 4 := Table.length_storedTable_le ..
  refine ⟨fun _ _ hcount => hcount, ⟨⟨[9], rfl⟩, fun _ => ?_⟩, rfl, nofun⟩
  change 0 + 1 + twoRecordBytes.length < addressSpace
  unfold addressSpace
  omega

theorem records_read_back_twoRecords :
    twoRecords.finish = .ok twoRecordBytes ∧
      twoRecordTable.readPieces ⟨0, 0⟩ [2, 2] = .ok [[1, 2], [3, 4]] ∧
      twoRecordTable.readPieces ⟨0, 3⟩ [1, 1] = .error (.corruptTable .recordPastEnd) := by
  have hcodec : Codecs.machine.gzip.IsFaithful := Codec.isFaithful_machine .gzip _ rfl
  obtain ⟨-, bytes, hfinish, -, hread⟩ := records_read_back (fun _ => hcodec)
    (by decide) appendAll_twoRecords
  have hwrote := ((wrote_empty Codecs.machine.gzip true).appendAll appendAll_twoRecords).1
  obtain rfl : bytes = twoRecordBytes := hwrote.eq_of_finish hfinish
  exact ⟨hfinish, hread twoRecordTable rfl isBoundedTo_twoRecordTable 0 _ rfl [2, 2],
    hread twoRecordTable rfl isBoundedTo_twoRecordTable 1 _ rfl [1, 1]⟩

end TableWriter

end TreeImage
