import TreeImage.Proofs.Bytes.Blocks
import TreeImage.Proofs.Table.Reader
import TreeImage.Table.Records

namespace TreeImage

open Format

namespace Table

def storedTable (codec : Codec) (compress : Bool) (stream : Bytes) : Bytes :=
  (blocksOf metadataBlockSize stream).flatMap (storedBlock codec compress)

variable {codec : Codec} {compress : Bool} {stream : Bytes}

theorem storedTable_of_ne_nil (hstream : stream ≠ []) :
    storedTable codec compress stream =
      storedBlock codec compress (stream.take metadataBlockSize) ++
        storedTable codec compress (stream.drop metadataBlockSize) := by
  rw [storedTable, blocksOf_of_ne_nil (by decide) hstream, List.flatMap_cons]
  rfl

theorem storedTable_append {front : Bytes} (hfull : metadataBlockSize ∣ front.length)
    (rest : Bytes) :
    storedTable codec compress (front ++ rest) =
      storedTable codec compress front ++ storedTable codec compress rest := by
  rw [storedTable, blocksOf_append (by decide) hfull, List.flatMap_append]
  rfl

theorem storedTable_of_length_le {block : Bytes} (hne : block ≠ [])
    (hle : block.length ≤ metadataBlockSize) :
    storedTable codec compress block = storedBlock codec compress block := by
  rw [storedTable, blocksOf_of_length_le hne hle, List.flatMap_singleton]

theorem length_storedTable_le (codec : Codec) (compress : Bool) (stream : Bytes) :
    (storedTable codec compress stream).length ≤ 3 * stream.length := by
  have hblocks : ∀ blocks : List Bytes, (∀ block ∈ blocks, block ≠ []) →
      (blocks.flatMap (storedBlock codec compress)).length ≤ 3 * blocks.flatten.length := by
    intro blocks hne
    induction blocks with
    | nil => exact Nat.le_refl 0
    | cons block blocks ih =>
        obtain ⟨hfirst, hrest⟩ := List.forall_mem_cons.mp hne
        have hpositive := List.length_pos_iff.mpr hfirst
        have hblock := length_storedBlock_le codec compress block
        have hle := ih hrest
        rw [List.flatMap_cons, List.flatten_cons, List.length_append, List.length_append]
        omega
  have hle := hblocks (blocksOf metadataBlockSize stream) fun _ hmem => ne_nil_of_mem_blocksOf hmem
  rwa [flatten_blocksOf (by decide)] at hle

/-- The part of a stream that is in full blocks before a position. -/
def fullBefore (stream : Bytes) (position : Nat) : Bytes :=
  stream.take (position / metadataBlockSize * metadataBlockSize)

/-- Where a position of a stream is: the position of its block in the table, and its place in the
block. -/
def placeOf (codec : Codec) (compress : Bool) (stream : Bytes) (position : Nat) : RecordRef :=
  ⟨UInt32.ofNat (storedTable codec compress (fullBefore stream position)).length,
    UInt16.ofNat (position % metadataBlockSize)⟩

/-- Whether a record of a stream has a reference: its first byte is there, and the position of the
block fits its word. -/
structure HasRecord (codec : Codec) (compress : Bool) (stream : Bytes) (ref : RecordRef)
    (record : Bytes) : Prop where
  isPart : ∃ front rest, stream = front ++ (record ++ rest) ∧
    ref = placeOf codec compress stream front.length ∧
      (storedTable codec compress (fullBefore stream front.length)).length < 2 ^ 32

theorem fullBefore_append {position : Nat} (hposition : position ≤ stream.length)
    (more : Bytes) : fullBefore (stream ++ more) position = fullBefore stream position := by
  rw [fullBefore, List.take_append_of_le_length]
  · rfl
  · exact Nat.le_trans (Nat.div_mul_le_self _ _) hposition

theorem placeOf_append {position : Nat} (hposition : position ≤ stream.length) (more : Bytes) :
    placeOf codec compress (stream ++ more) position = placeOf codec compress stream position := by
  rw [placeOf, placeOf, fullBefore_append hposition]

variable {ref : RecordRef} {record : Bytes}

theorem HasRecord.append (hrecord : HasRecord codec compress stream ref record) (more : Bytes) :
    HasRecord codec compress (stream ++ more) ref record := by
  obtain ⟨front, rest, rfl, href, hlt⟩ := hrecord
  have hinside : front.length ≤ (front ++ (record ++ rest)).length := by
    rw [List.length_append]
    omega
  refine ⟨front, rest ++ more, by simp only [List.append_assoc], ?_, ?_⟩
  · rw [href, placeOf_append hinside]
  · rwa [fullBefore_append hinside]

theorem HasRecord.offset_lt (hrecord : HasRecord codec compress stream ref record) :
    ref.offset.toNat < metadataBlockSize := by
  obtain ⟨front, rest, -, rfl, -⟩ := hrecord
  have hmod := Nat.mod_lt front.length (show 0 < metadataBlockSize by decide)
  rw [placeOf, UInt16.toNat_ofNat']
  exact Nat.lt_of_le_of_lt (Nat.mod_le _ _) hmod

end Table

namespace RecordTable

/-- Whether a table in an open window stores a stream from a position on. -/
structure StoresFrom (table : RecordTable) (compress : Bool) (position : Nat) (stream : Bytes) :
    Prop where
  isOpen : table.region.IsOpen
  codec : compress = true → table.codec.IsFaithful
  stores : table.region.Stores (table.start + position)
    (Table.storedTable table.codec compress stream)
  stop_le : table.start + position + (Table.storedTable table.codec compress stream).length ≤
    table.stop
  stop_lt : table.stop < addressSpace

/-- Where a stream that is stored from a position on ends, counted from the start of the table. -/
def endOf (table : RecordTable) (compress : Bool) (position : Nat) (stream : Bytes) : Nat :=
  position + (Table.storedTable table.codec compress stream).length

variable {table : RecordTable} {compress : Bool} {position : Nat} {stream : Bytes}

theorem StoresFrom.readBlock (hstores : table.StoresFrom compress position stream)
    (hstream : stream ≠ []) :
    ∃ stored, table.readBlock position = .ok (stream.take metadataBlockSize, stored) ∧
      position < table.size ∧ table.start + position + (2 + stored) ≤ table.stop ∧
      table.StoresFrom compress (position + (2 + stored)) (stream.drop metadataBlockSize) ∧
      table.endOf compress (position + (2 + stored)) (stream.drop metadataBlockSize) =
        table.endOf compress position stream := by
  obtain ⟨hopen, hcodec, hbytes, hstop, hlt⟩ := hstores
  have hend : (Table.storedTable table.codec compress stream).length = _ :=
    congrArg List.length (Table.storedTable_of_ne_nil hstream)
  rw [Table.storedTable_of_ne_nil hstream] at hbytes hstop
  rw [List.length_append] at hstop hend
  obtain ⟨stored, hlength⟩ := Nat.exists_eq_add_of_le
    (Table.length_storedBlock_pos table.codec compress (stream.take metadataBlockSize))
  have hpayload : stream.take metadataBlockSize ≠ [] := by
    have hpositive := List.length_pos_iff.mpr hstream
    rw [← List.length_pos_iff, List.length_take]
    unfold metadataBlockSize
    omega
  have hread : Table.readBlock table.region table.codec (table.start + position) table.stop =
      .ok (stream.take metadataBlockSize, _) :=
    Table.readBlock_of_stores compress hcodec hopen hpayload (List.length_take_le ..) hbytes.left
      (by omega)
  have hnext := hbytes.right
  rw [hlength, Nat.add_sub_cancel_left] at hread
  rw [hlength, Nat.add_assoc] at hnext
  refine ⟨stored, ?_, ?_, by omega, ⟨hopen, hcodec, hnext, by omega, hlt⟩, ?_⟩
  · rw [RecordTable.readBlock, Trapping.add_eq_ok (by omega)]
    exact hread
  · unfold size
    omega
  · unfold endOf
    omega

/-- Bytes of a stored stream are collected over as many blocks as they take. -/
theorem StoresFrom.collect {later unread head rest : Bytes} {next : Nat} (got : Bytes)
    (hstores : table.StoresFrom compress next later) (hbytes : unread ++ later = head ++ rest) :
    ∃ last, table.collect head.length unread next got = .ok (got ++ head, last) ∧
      last.table = table ∧ ∃ left, rest = last.unread ++ left ∧
        table.StoresFrom compress last.next left ∧
        table.endOf compress last.next left = table.endOf compress next later := by
  induction hleft : later.length using Nat.strongRecOn
    generalizing later unread head next got with
  | _ left ih =>
      by_cases hle : head.length ≤ unread.length
      · have htake := congrArg (List.take head.length) hbytes
        have hdrop := congrArg (List.drop head.length) hbytes
        rw [List.take_append_of_le_length hle, List.take_left] at htake
        rw [List.drop_append_of_le_length hle, List.drop_left] at hdrop
        refine ⟨⟨table, unread.drop head.length, next⟩, ?_, rfl, later, hdrop.symm, hstores,
          rfl⟩
        rw [collect_of_le hle, htake]
      · have hlater : later ≠ [] := by
          rintro rfl
          have := congrArg List.length hbytes
          simp only [List.append_nil, List.length_append] at this
          omega
        obtain ⟨stored, hread, hnext, hstop, hrest, hend⟩ := hstores.readBlock hlater
        have hlt := hstores.stop_lt
        have hhead : head = unread ++ head.drop unread.length := by
          have htake := congrArg (List.take unread.length) hbytes
          rw [List.take_left, List.take_append_of_le_length (by omega)] at htake
          conv => lhs; rw [← List.take_append_drop unread.length head, ← htake]
        have hblock : later.take metadataBlockSize ++ later.drop metadataBlockSize =
            head.drop unread.length ++ rest := by
          have hdrop := congrArg (List.drop unread.length) hbytes
          rwa [List.drop_left, List.drop_append_of_le_length (by omega),
            ← List.take_append_drop metadataBlockSize later] at hdrop
        have hpositive := List.length_pos_iff.mpr hlater
        obtain ⟨last, hcollect, hlast⟩ := ih (later.drop metadataBlockSize).length
          (by rw [List.length_drop]; unfold metadataBlockSize; omega) (got ++ unread) hrest
          hblock rfl
        rw [hend] at hlast
        refine ⟨last, ?_, hlast⟩
        rw [List.length_drop, List.append_assoc, ← hhead] at hcollect
        rw [collect_of_lt (by omega), if_neg (by omega), if_neg (by omega), hread, Except.ok_bind]
        simp only [if_neg (show ¬addressSpace ≤ next + (2 + stored) by omega)]
        exact hcollect

/-- A cursor of a table reads what is left of its block and then the stream from the next block
on. -/
def front (table : RecordTable) (compress : Bool) : Front TableCursor where
  Stands cursor bytes := cursor.table = table ∧ ∃ later, cursor.unread ++ later = bytes ∧
    table.StoresFrom compress cursor.next later
  take_of_stands := by
    rintro ⟨_, unread, next⟩ head rest ⟨rfl, later, hbytes, hlater⟩
    obtain ⟨last, hcollect, htable, left, hleft, hstores, -⟩ := hlater.collect [] hbytes
    exact ⟨last, hcollect, htable, left, hleft.symm, hstores⟩

theorem StoresFrom.drop_full {full rest : Bytes}
    (hstores : table.StoresFrom compress position (full ++ rest))
    (hfull : metadataBlockSize ∣ full.length) :
    table.StoresFrom compress (position + (Table.storedTable table.codec compress full).length)
      rest := by
  obtain ⟨hopen, hcodec, hbytes, hstop, hlt⟩ := hstores
  rw [Table.storedTable_append hfull] at hbytes hstop
  rw [List.length_append] at hstop
  have hrest := hbytes.right
  rw [Nat.add_assoc] at hrest
  exact ⟨hopen, hcodec, hrest, by omega, hlt⟩

/-- The place of a position in a stored stream leads to a cursor with the rest of its block, and
the blocks after it are stored. -/
theorem StoresFrom.cursorAt {front after : Bytes}
    (hstores : table.StoresFrom compress 0 (front ++ after)) (hafter : after ≠ [])
    (hsmall : (Table.storedTable table.codec compress
      (Table.fullBefore (front ++ after) front.length)).length < 2 ^ 32) :
    ∃ cursor later,
      table.cursor (Table.placeOf table.codec compress (front ++ after) front.length) =
        .ok cursor ∧
      cursor.table = table ∧ cursor.unread ++ later = after ∧
      table.StoresFrom compress cursor.next later ∧
      table.endOf compress cursor.next later = table.endOf compress 0 (front ++ after) := by
  have hpositive := List.length_pos_iff.mpr hafter
  have hlength : (front ++ after).length = front.length + after.length := List.length_append
  have hrest : (front ++ after).drop front.length = after := List.drop_left
  generalize front ++ after = stream at *
  -- the stream is cut where the block begins that the position is in
  generalize hcut : front.length / metadataBlockSize * metadataBlockSize = cut at *
  have hcutLe : cut ≤ front.length := hcut ▸ Nat.div_mul_le_self _ _
  have hmod : cut + front.length % metadataBlockSize = front.length := by
    rw [← hcut]
    exact Nat.div_add_mod' ..
  have hfull : Table.fullBefore stream front.length = stream.take cut := by
    rw [Table.fullBefore, hcut]
  have hdvd : metadataBlockSize ∣ (stream.take cut).length := by
    rw [List.length_take_of_le (by omega), ← hcut]
    exact Nat.dvd_mul_left _ _
  have hwhole : table.endOf compress 0 stream = table.endOf compress
      (Table.storedTable table.codec compress (stream.take cut)).length (stream.drop cut) := by
    rw [endOf, endOf, Nat.zero_add, ← List.length_append, ← Table.storedTable_append hdvd,
      List.take_append_drop]
  rw [← List.take_append_drop cut stream] at hstores
  have hblock := hstores.drop_full hdvd
  rw [Nat.zero_add] at hblock
  rw [hfull] at hsmall
  have hdrop : stream.drop cut ≠ [] := by
    rw [← List.length_pos_iff, List.length_drop]
    omega
  obtain ⟨stored, hread, hsize, hstop, hnext, hend⟩ := hblock.readBlock hdrop
  have hstopLt := hblock.stop_lt
  have hmodLt := Nat.mod_lt front.length (show 0 < metadataBlockSize by decide)
  have hposition : (Table.placeOf table.codec compress stream front.length).block.toNat =
      (Table.storedTable table.codec compress (stream.take cut)).length := by
    rw [Table.placeOf, UInt32.toNat_ofNat', hfull, Nat.mod_eq_of_lt hsmall]
  have hoffset : (Table.placeOf table.codec compress stream front.length).offset.toNat =
      front.length % metadataBlockSize := by
    rw [Table.placeOf, UInt16.toNat_ofNat']
    unfold metadataBlockSize at *
    omega
  have hinside : front.length % metadataBlockSize ≤
      ((stream.drop cut).take metadataBlockSize).length := by
    rw [List.length_take, List.length_drop]
    omega
  have hunread : Trapping.slice ((stream.drop cut).take metadataBlockSize)
      (front.length % metadataBlockSize) ((stream.drop cut).take metadataBlockSize).length =
      .ok (((stream.drop cut).take metadataBlockSize).drop
        (front.length % metadataBlockSize)) := by
    rw [Trapping.slice_eq_ok hinside (Nat.le_refl _), ← List.length_drop, List.take_length]
  refine ⟨⟨table, ((stream.drop cut).take metadataBlockSize).drop
      (front.length % metadataBlockSize), _⟩, (stream.drop cut).drop metadataBlockSize, ?_, rfl,
    ?_, hnext, hend.trans hwhole.symm⟩
  · rw [RecordTable.cursor, hposition, hread, Except.ok_bind, hoffset]
    refine Except.refuse_eq_ok.mpr ⟨Nat.not_lt_of_le hinside, ?_⟩
    rw [hunread, Except.ok_bind, Trapping.add_eq_ok (by omega)]
    rfl
  · rw [← List.drop_append_of_le_length hinside, List.take_append_drop, List.drop_drop, hmod,
      hrest]

theorem StoresFrom.cursor (hstores : table.StoresFrom compress 0 stream) {ref : RecordRef}
    {record : Bytes} (hrecord : Table.HasRecord table.codec compress stream ref record)
    (hne : record ≠ []) :
    ∃ cursor rest, table.cursor ref = .ok cursor ∧
      (table.front compress).Stands cursor (record ++ rest) := by
  obtain ⟨front, rest, rfl, rfl, hsmall⟩ := hrecord
  have hafter : record ++ rest ≠ [] := fun hnil => hne (List.append_eq_nil_iff.mp hnil).1
  obtain ⟨cursor, later, hcursor, htable, hbytes, hlater, -⟩ := hstores.cursorAt hafter hsmall
  exact ⟨cursor, rest, hcursor, htable, later, hbytes, hlater⟩

end RecordTable

namespace TableWriter

variable {writer : TableWriter} {full pending stream record : Bytes}

/-- Whether a writer has stored full blocks and has a block begun. -/
structure Holds (writer : TableWriter) (full pending : Bytes) : Prop where
  full_dvd : metadataBlockSize ∣ full.length
  pending_lt : pending.length < metadataBlockSize
  output_eq : writer.output.toList = Table.storedTable writer.codec writer.compress full
  pending_eq : writer.pending.toList = pending

theorem flush_eq_ok {output begun : Buffer} {codec : Codec} {compress : Bool}
    (hbegun : begun.toList ≠ []) {last : TableWriter} :
    flush ⟨codec, compress, output, begun⟩ = .ok last ↔
      ∃ block, Table.encodeBlock codec compress begun.toList = .ok block ∧
        last = ⟨codec, compress, output.pushAll block, #[]⟩ := by
  have hempty : ¬begun.isEmpty = true := by simpa using hbegun
  rw [flush, if_neg hempty, Except.bind_eq_ok]
  refine exists_congr fun block => and_congr_right fun _ => ?_
  exact ⟨fun hlast => (Except.ok.inj hlast).symm, fun hlast => congrArg Except.ok hlast.symm⟩

theorem Holds.push (hholds : writer.Holds full pending) {b : UInt8} {last : TableWriter}
    (hpush : writer.push b = .ok last) :
    last.codec = writer.codec ∧ last.compress = writer.compress ∧
      ∃ stored left, stored ++ left = full ++ pending ++ [b] ∧ last.Holds stored left := by
  obtain ⟨codec, compress, output, begun⟩ := writer
  obtain ⟨hfull, hlt, houtput, hbegun⟩ := hholds
  dsimp only at houtput hbegun
  subst hbegun
  have hsize : (begun.push b).size = begun.toList.length + 1 := by simp
  rw [TableWriter.push] at hpush
  split at hpush
  · rename_i hfills
    have hblock : (begun.push b).toList.length = metadataBlockSize := by
      rw [Array.length_toList, hfills]
    have hne : (begun.push b).toList ≠ [] := by simp
    obtain ⟨block, hencode, rfl⟩ := (flush_eq_ok hne).mp hpush
    refine ⟨rfl, rfl, full ++ (begun.push b).toList, [], by simp, ?_, by decide, ?_, rfl⟩
    · rw [List.length_append, hblock]
      exact Nat.dvd_add hfull (Nat.dvd_refl _)
    · rw [Buffer.toList_pushAll, houtput, Table.eq_of_encodeBlock hencode,
        Table.storedTable_append hfull, Table.storedTable_of_length_le hne (Nat.le_of_eq hblock)]
  · rename_i hless
    cases hpush
    refine ⟨rfl, rfl, full, (begun.push b).toList, by simp, hfull, ?_, houtput, rfl⟩
    rw [Array.length_toList]
    omega

/-- Whether a writer was given a stream. -/
structure Wrote (writer : TableWriter) (codec : Codec) (compress : Bool) (stream : Bytes) :
    Prop where
  codec_eq : writer.codec = codec
  compress_eq : writer.compress = compress
  holds : ∃ full pending, full ++ pending = stream ∧ writer.Holds full pending

variable {codec : Codec} {compress : Bool}

theorem wrote_empty (codec : Codec) (compress : Bool) :
    (empty codec compress).Wrote codec compress [] :=
  ⟨rfl, rfl, [], [], rfl, ⟨0, rfl⟩, by decide, by simp [empty, Table.storedTable], rfl⟩

theorem Wrote.foldlM_push (hwrote : writer.Wrote codec compress stream) {last : TableWriter}
    (hpush : record.foldlM TableWriter.push writer = .ok last) :
    last.Wrote codec compress (stream ++ record) := by
  induction record generalizing writer stream with
  | nil =>
      cases hpush
      simpa using hwrote
  | cons b record ih =>
      obtain ⟨rfl, rfl, full, pending, rfl, hholds⟩ := hwrote
      obtain ⟨next, hnext, hrest⟩ := Except.bind_eq_ok.mp hpush
      obtain ⟨hcodec, hcompress, hpushed⟩ := hholds.push hnext
      have hlast := ih (show next.Wrote _ _ _ from ⟨hcodec, hcompress, hpushed⟩) hrest
      rwa [List.append_assoc, List.singleton_append] at hlast

theorem Wrote.position_eq (hwrote : writer.Wrote codec compress stream) :
    writer.position = Table.placeOf codec compress stream stream.length ∧
      (Table.storedTable codec compress (Table.fullBefore stream stream.length)).length =
        writer.output.size := by
  obtain ⟨rfl, rfl, full, pending, rfl, hfull, hlt, houtput, hpending⟩ := hwrote
  have hlength : (full ++ pending).length / metadataBlockSize * metadataBlockSize =
      full.length := by
    obtain ⟨blocks, hblocks⟩ := hfull
    rw [List.length_append, hblocks, Nat.mul_add_div (by decide), Nat.div_eq_of_lt hlt,
      Nat.add_zero, Nat.mul_comm]
  have hbefore : Table.fullBefore (full ++ pending) (full ++ pending).length = full := by
    rw [Table.fullBefore, hlength, List.take_left]
  have hmod : (full ++ pending).length % metadataBlockSize = pending.length := by
    have hsplit := Nat.div_add_mod' (full ++ pending).length metadataBlockSize
    rw [hlength, List.length_append] at hsplit
    rw [List.length_append]
    omega
  have hsize : writer.output.size =
      (Table.storedTable writer.codec writer.compress full).length := by
    rw [← houtput, Array.length_toList]
  have hpendingSize : writer.pending.size = pending.length := by
    rw [← hpending, Array.length_toList]
  rw [Table.placeOf, hbefore, hmod, position, hsize, hpendingSize]
  exact ⟨rfl, rfl⟩

theorem Wrote.append (hwrote : writer.Wrote codec compress stream) {ref : RecordRef}
    {next : TableWriter} (happend : writer.append record = .ok (ref, next)) :
    next.Wrote codec compress (stream ++ record) ∧
      ref = Table.placeOf codec compress stream stream.length ∧
      (Table.storedTable codec compress (Table.fullBefore stream stream.length)).length <
        2 ^ 32 := by
  unfold TableWriter.append at happend
  split at happend
  · cases happend
  · rename_i hsmall
    obtain ⟨last, hpush, happend⟩ := Except.bind_eq_ok.mp happend
    cases happend
    obtain ⟨hposition, hsize⟩ := hwrote.position_eq
    refine ⟨hwrote.foldlM_push hpush, hposition, ?_⟩
    unfold maxOutput at hsmall
    omega

theorem Wrote.hasRecord (hwrote : writer.Wrote codec compress stream) {ref : RecordRef}
    {next : TableWriter} (happend : writer.append record = .ok (ref, next)) :
    Table.HasRecord codec compress (stream ++ record) ref record := by
  obtain ⟨-, rfl, hsmall⟩ := hwrote.append happend
  refine ⟨stream, [], by simp, (Table.placeOf_append (Nat.le_refl _) record).symm, ?_⟩
  rwa [Table.fullBefore_append (Nat.le_refl _)]

theorem Wrote.size_output_le (hwrote : writer.Wrote codec compress stream) :
    writer.output.size ≤ 3 * stream.length := by
  obtain ⟨rfl, rfl, full, pending, rfl, -, -, houtput, -⟩ := hwrote
  have hle := Table.length_storedTable_le writer.codec writer.compress full
  rw [← Array.length_toList, houtput, List.length_append]
  omega

theorem Wrote.eq_of_finish (hwrote : writer.Wrote codec compress stream) {table : Bytes}
    (hfinish : writer.finish = .ok table) : table = Table.storedTable codec compress stream := by
  obtain ⟨rfl, rfl, full, pending, rfl, hfull, hlt, houtput, rfl⟩ := hwrote
  obtain ⟨codec, compress, output, begun⟩ := writer
  obtain ⟨last, hflush, hlast⟩ := Except.bind_eq_ok.mp hfinish
  cases hlast
  rw [Table.storedTable_append hfull]
  by_cases hnil : begun.toList = []
  · obtain rfl : begun = #[] := Array.toList_eq_nil_iff.mp hnil
    cases hflush
    simpa [Table.storedTable] using houtput
  · obtain ⟨block, hencode, rfl⟩ := (flush_eq_ok hnil).mp hflush
    dsimp only at houtput hlt ⊢
    rw [Buffer.toList_pushAll, houtput, Table.eq_of_encodeBlock hencode,
      Table.storedTable_of_length_le hnil (Nat.le_of_lt hlt)]

section Compresses

variable (hcodec : compress = true → codec.Compresses)
include hcodec

theorem exists_flush (output begun : Buffer) :
    ∃ last, flush ⟨codec, compress, output, begun⟩ = .ok last := by
  by_cases hnil : begun.toList = []
  · obtain rfl : begun = #[] := Array.toList_eq_nil_iff.mp hnil
    exact ⟨_, rfl⟩
  · exact ⟨_, (flush_eq_ok hnil).mpr ⟨_, Table.encodeBlock_eq_ok hcodec _, rfl⟩⟩

theorem Wrote.finish (hwrote : writer.Wrote codec compress stream) :
    writer.finish = .ok (Table.storedTable codec compress stream) := by
  obtain ⟨last, hflush⟩ := exists_flush hcodec writer.output writer.pending
  rw [← hwrote.codec_eq, ← hwrote.compress_eq] at hflush
  have hfinish : writer.finish = .ok last.output.toList :=
    Except.bind_eq_ok.mpr ⟨last, hflush, rfl⟩
  rw [hfinish, hwrote.eq_of_finish hfinish]

theorem Wrote.exists_foldlM_push (hwrote : writer.Wrote codec compress stream) (record : Bytes) :
    ∃ last, record.foldlM TableWriter.push writer = .ok last := by
  induction record generalizing writer stream with
  | nil => exact ⟨_, rfl⟩
  | cons b record ih =>
      have hpush : ∃ next, writer.push b = .ok next := by
        obtain ⟨writerCodec, writerCompress, output, begun⟩ := writer
        obtain rfl : writerCodec = codec := hwrote.codec_eq
        obtain rfl : writerCompress = compress := hwrote.compress_eq
        rw [TableWriter.push]
        split
        · exact exists_flush hcodec output _
        · exact ⟨_, rfl⟩
      obtain ⟨next, hnext⟩ := hpush
      have hone : [b].foldlM TableWriter.push writer = .ok next :=
        Except.bind_eq_ok.mpr ⟨next, hnext, rfl⟩
      obtain ⟨last, hlast⟩ := ih (hwrote.foldlM_push hone)
      exact ⟨last, Except.bind_eq_ok.mpr ⟨next, hnext, hlast⟩⟩

theorem Wrote.exists_append (hwrote : writer.Wrote codec compress stream)
    (hroom : writer.output.size ≤ maxOutput) (record : Bytes) :
    ∃ next, writer.append record = .ok (writer.position, next) := by
  obtain ⟨next, hnext⟩ := hwrote.exists_foldlM_push hcodec record
  refine ⟨next, ?_⟩
  rw [TableWriter.append, if_neg (Nat.not_lt_of_le hroom), hnext]
  rfl

end Compresses

end TableWriter

end TreeImage
