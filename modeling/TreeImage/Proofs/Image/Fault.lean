import TreeImage.Image.Resolve
import TreeImage.Proofs.Codec.Basic
import TreeImage.Proofs.Format.Steps
import TreeImage.Proofs.Table.Reader

namespace TreeImage

open Format

namespace Region

theorem check_faults (region : Region) (offset count : Nat) :
    Faults (region.check offset count) := by
  unfold check
  split
  · exact .ok _
  · exact .ite (.error trivial) (.ok _)

theorem gather_faults (storage : Storage) (address count : Nat) (got : Bytes) (calls : Nat) :
    Faults (storage.gather address count got calls) := by
  fun_induction storage.gather address count got calls with
  | case1 => exact .ok _
  | case2 => exact .error trivial
  | case3 => exact .ok _
  | case4 address count got calls hcount haddress part hpart ih => exact ih

theorem read_faults (region : Region) (offset count : Nat) :
    Faults (region.read offset count) := by
  refine Faults.bind ?_ fun transfer _ => .refuse trivial (.ok _)
  exact (region.check_faults offset count).bind fun _ _ => gather_faults _ _ _ _ _

end Region

theorem Codec.IsWary.faults {codec : Codec} (hwary : codec.IsWary) (frame : Bytes) {limit : Nat}
    (hlimit : limit ≤ maxCapacity) : Faults (codec.decompress frame limit) := by
  intro error herror
  obtain ⟨damage, rfl⟩ := hwary frame limit error hlimit herror
  trivial

theorem Table.readBlock_faults {codec : Codec} (hcodec : codec.IsWary) (region : Region)
    (position limit : Nat) : Faults (readBlock region codec position limit) := by
  unfold readBlock
  refine .refuse trivial ((region.read_faults _ _).bind fun header _ => ?_)
  refine .refuse trivial ((Trapping.add_faults _ _).bind fun stop _ => ?_)
  refine .refuse trivial ((region.read_faults _ _).bind fun frame _ => ?_)
  exact .ite (.ok _) ((hcodec.faults _ (by decide)).bind fun _ _ => .ok _)

namespace RecordTable

variable {table : RecordTable}

theorem readBlock_faults (hcodec : table.codec.IsWary) (position : Nat) :
    Faults (table.readBlock position) :=
  (Trapping.add_faults _ _).bind fun _ _ => Table.readBlock_faults hcodec _ _ _

theorem cursor_faults (hcodec : table.codec.IsWary) (ref : RecordRef) :
    Faults (table.cursor ref) := by
  unfold cursor
  refine (readBlock_faults hcodec _).bind fun block _ => .refuse trivial ?_
  refine (Trapping.slice_faults _ _ _).bind fun unread _ => ?_
  exact (Trapping.add_faults _ _).bind fun next _ => .ok _

theorem collect_faults (hcodec : table.codec.IsWary) (count : Nat) (unread : Bytes)
    (next : Nat) (got : Bytes) : Faults (table.collect count unread next got) := by
  induction hleft : table.size - next using Nat.strongRecOn
    generalizing count unread next got with
  | _ left ih =>
      by_cases hle : count ≤ unread.length
      · rw [collect_of_le hle]
        exact .ok _
      · rw [collect_of_lt (by omega)]
        refine .ite (.error trivial) ?_
        split
        · exact .error trivial
        · refine (readBlock_faults hcodec _).bind fun block _ => ?_
          exact .ite (.error trivial) (ih _ (by omega) _ _ _ _ rfl)

theorem faults_bytes (hcodec : table.codec.IsWary) (count : Nat) :
    Decoder.Faults (fun cursor => cursor.table = table)
      (bytes count : Decoder TableCursor Bytes) := by
  rintro cursor rfl
  exact ⟨collect_faults hcodec count _ _ [], fun _ _ => table_of_collect⟩

end RecordTable

namespace Image

variable {image : Image}

theorem readInode_faults (hcodec : image.codec.IsWary) (ref : RecordRef) :
    Faults (image.readInode ref) := by
  refine (RecordTable.cursor_faults hcodec ref).bind fun cursor hcursor => ?_
  refine Faults.bind ?_ fun _ _ => .ok _
  exact (Inode.decode_faults (RecordTable.faults_bytes hcodec) _ cursor
    (RecordTable.table_of_cursor hcursor)).1

theorem readListing_faults (hcodec : image.codec.IsWary) (body : DirectoryBody) :
    Faults (image.readListing body) := by
  unfold readListing
  refine .refuse trivial (.ite (.ok _) ?_)
  refine (RecordTable.cursor_faults hcodec _).bind fun cursor hcursor => ?_
  refine (Trapping.sub_faults _ _).bind fun length _ => ?_
  refine Faults.bind ?_ fun taken _ => Listing.decode_faults taken.1
  exact (RecordTable.faults_bytes hcodec length cursor (RecordTable.table_of_cursor hcursor)).1

theorem root_faults (hcodec : image.codec.IsWary) : Faults image.root := by
  refine (readInode_faults hcodec _).bind fun inode _ => ?_
  split
  · exact .ok _
  · exact .error trivial

end Image

end TreeImage
