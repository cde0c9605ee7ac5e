import TreeImage.Proofs.Format.InodeForm
import TreeImage.Proofs.Format.Steps

namespace TreeImage.Format

/-- What a result tells of the result for the same bytes with more after them.  Where the bytes ran
out it tells nothing. -/
inductive Foretells {α : Type} (more : Bytes) :
    Except Error (α × Bytes) → Except Error (α × Bytes) → Prop
  | ok (value : α) (rest : Bytes) : Foretells more (.ok (value, rest)) (.ok (value, rest ++ more))
  | error (error : Error) : Foretells more (.error error) (.error error)
  | ranOut {wanted left : Nat} (hshort : left < wanted) (longer : Except Error (α × Bytes)) :
      Foretells more (.error (.corruptTable (.recordTruncated wanted left))) longer

theorem Foretells.bind {α β : Type} {more : Bytes} {result longer : Except Error (α × Bytes)}
    {next : α × Bytes → Except Error (β × Bytes)} (hresult : Foretells more result longer)
    (hnext : ∀ value rest, Foretells more (next (value, rest)) (next (value, rest ++ more))) :
    Foretells more (result >>= next) (longer >>= next) := by
  cases hresult with
  | ok value rest => exact hnext value rest
  | error error => exact .error error
  | ranOut hshort longer => exact .ranOut hshort _

theorem Decoder.Twins.foretells {α : Type} {step twin : Decoder Bytes α}
    (htwins : Twins True step twin) (data more : Bytes) :
    Foretells more (step data) (step (data ++ more)) := by
  induction htwins generalizing data with
  | pure value => exact .ok value data
  | bind _ _ hstep hnext => exact (hstep data).bind fun value rest => hnext value rest
  | read count =>
      change Foretells more (RecordSource.take count data) (RecordSource.take count (data ++ more))
      rw [take_bytes]
      split
      · rename_i hshort
        exact .ranOut hshort _
      · rename_i henough
        have hle : count ≤ data.length := Nat.le_of_not_lt henough
        rw [take_bytes, if_neg (by simp; omega), List.take_append_of_le_length hle,
          List.drop_append_of_le_length hle]
        exact .ok _ _
  | refuse damage => exact .error _
  | trap _ cause => exact .error _

namespace Inode

variable {blockSize : Nat} {inode : Inode}

theorem isStorable_of_length (hblockSize : blockSize ≠ 0)
    (hfile : ∀ file, inode.body = .file file →
      file.blockSizes.length = blockCount file.fileSize.toNat blockSize file.hasFragment)
    (hlink : ∀ link, inode.body = .symlink link → link.target.length ≤ maxLinkTarget) :
    inode.body.IsStorable blockSize := by
  cases hbody : inode.body with
  | file file =>
      change wordCount _ _ _ = _
      rw [wordCount, if_neg hblockSize, hfile file hbody]
  | symlink link => exact hlink link hbody
  | directory _ | device _ _ _ _ | channel _ _ _ => exact trivial

theorem decode_of_cut (hbody : inode.body.IsStorable blockSize) {front : Bytes}
    (hfront : front <+: inode.encode) (hcut : front ≠ inode.encode) :
    ∃ wanted left, left < wanted ∧
      decode blockSize front = .error (.corruptTable (.recordTruncated wanted left)) := by
  obtain ⟨more, hmore⟩ := hfront
  have hwhole : decode blockSize (front ++ more) = .ok (inode, []) := by
    rw [hmore]
    exact (decode_reads hbody).eq_of_whole
  have htwins : Decoder.Twins True (decode blockSize : Decoder Bytes Inode)
      (decode blockSize : Decoder Bytes Inode) := twins_decode fun _ => trivial
  have hforetells := htwins.foretells front more
  generalize decode blockSize front = result, decode blockSize (front ++ more) = longer
    at hforetells hwhole
  -- the whole record is read to its end, so its front can only have run out
  cases hforetells with
  | ok value rest =>
      obtain ⟨-, hrest⟩ := Prod.mk.inj (Except.ok.inj hwhole)
      rw [(List.append_eq_nil_iff.mp hrest).2, List.append_nil] at hmore
      exact absurd hmore hcut
  | error error => cases hwhole
  | ranOut hshort => exact ⟨_, _, hshort, rfl⟩

/-- An inode that was written is read back whole, in whatever form it was written, and the bytes
after it are left.  Any cut makes it damaged: the bytes run out. -/
theorem read_back_or_cut (hblockSize : blockSize ≠ 0)
    (hfile : ∀ file, inode.body = .file file →
      file.blockSizes.length = blockCount file.fileSize.toNat blockSize file.hasFragment)
    (hlink : ∀ link, inode.body = .symlink link → link.target.length ≤ maxLinkTarget) :
    (∀ rest, decode blockSize (inode.encode ++ rest) = .ok (inode, rest)) ∧
      ∀ front, front <+: inode.encode → front ≠ inode.encode →
        ∃ wanted left, left < wanted ∧
          decode blockSize front = .error (.corruptTable (.recordTruncated wanted left)) := by
  have hbody := isStorable_of_length hblockSize hfile hlink
  constructor
  · exact (decode_reads hbody).eq_of_bytes
  · intro front hfront hcut
    exact decode_of_cut hbody hfront hcut

/-- A file of two blocks, the data of which begins past what the basic form can say. -/
def sampleFile : Inode :=
  { permissions := 0o644, uidIndex := 0, gidIndex := 0, mtime := 7, inodeNumber := 1
    body := .file ⟨0x100000000, 5000, 0, 1, noFragment, 0, noXattr, [4096, 904]⟩ }

/-- It is read back, and it is damaged without its last byte. -/
theorem read_back_or_cut_file :
    decode 4096 (sampleFile.encode ++ [1, 2]) = .ok (sampleFile, [1, 2]) ∧
      ∃ wanted left, left < wanted ∧
        decode 4096 (sampleFile.encode.take 63) =
          .error (.corruptTable (.recordTruncated wanted left)) := by
  have hfile : ∀ file, sampleFile.body = .file file →
      file.blockSizes.length = blockCount file.fileSize.toNat 4096 file.hasFragment := by
    rintro _ ⟨⟩
    decide
  obtain ⟨hback, hcut⟩ := read_back_or_cut (by decide) hfile nofun
  exact ⟨hback [1, 2], hcut _ (List.take_prefix _ _) (by decide)⟩

end Inode

end TreeImage.Format
