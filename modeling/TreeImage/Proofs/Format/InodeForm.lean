import TreeImage.Format.Inode
import TreeImage.Proofs.Format.Record

namespace TreeImage.Format

/-- An entry of the index of a directory: the first name of a metadata block of its listing. -/
structure IndexEntry where
  position : UInt32
  block : UInt32
  name : Bytes
  deriving DecidableEq, Repr

namespace IndexEntry

def bytes (entry : IndexEntry) : Bytes :=
  word32 entry.position ++ word32 entry.block ++ littleEndian 4 (entry.name.length - 1)
    ++ entry.name

/-- Whether a word holds the length of the name, which is written less one. -/
def IsValid (entry : IndexEntry) : Prop :=
  0 < entry.name.length ∧ entry.name.length ≤ 2 ^ 32

instance (entry : IndexEntry) : Decidable entry.IsValid := inferInstanceAs (Decidable (_ ∧ _))

end IndexEntry

/-- The form of a record.  The index is that of a directory; other records have none. -/
inductive InodeForm
  | basic
  | extended (index : List IndexEntry)
  deriving DecidableEq, Repr

namespace InodeForm

def isExtended : InodeForm → Bool
  | .basic => false
  | .extended _ => true

/-- Whether a form holds the values of a body. -/
def Fits (body : InodeBody) : InodeForm → Prop
  | .basic => body.isExtended = false
  | .extended index => index.length ≤ 0xffff ∧ ∀ entry ∈ index, entry.IsValid

def xattrBytes (form : InodeForm) (xattr : UInt32) : Bytes :=
  if form.isExtended then word32 xattr else []

end InodeForm

/-- Whether a body is read back with a block size: a file has one size word for each of its blocks,
and a link's target is not too long. -/
def InodeBody.IsStorable (blockSize : Nat) : InodeBody → Prop
  | .file body =>
      wordCount body.fileSize.toNat blockSize body.hasFragment = .ok body.blockSizes.length
  | .symlink body => body.target.length ≤ maxLinkTarget
  | _ => True

namespace InodeBody

def fileHead (body : FileBody) : InodeForm → Bytes
  | .basic =>
      word32 body.blocksStart.toUInt32 ++ word32 body.fragment ++ word32 body.fragmentOffset
        ++ word32 body.fileSize.toUInt32
  | .extended _ =>
      word64 body.blocksStart ++ word64 body.fileSize ++ word64 body.sparse
        ++ word32 body.linkCount ++ word32 body.fragment ++ word32 body.fragmentOffset
        ++ word32 body.xattr

def record (form : InodeForm) : InodeBody → Bytes
  | .directory d =>
      match form with
      | .basic =>
          word32 d.startBlock ++ word32 d.linkCount ++ word16 d.fileSize.toUInt16
            ++ word16 d.offset ++ word32 d.parentInode
      | .extended index =>
          word32 d.linkCount ++ word32 d.fileSize ++ word32 d.startBlock ++ word32 d.parentInode
            ++ littleEndian 2 index.length ++ word16 d.offset ++ word32 d.xattr
            ++ index.flatMap IndexEntry.bytes
  | .file f => fileHead f form ++ f.blockSizes.flatMap word32
  | .symlink s =>
      word32 s.linkCount ++ littleEndian 4 s.target.length ++ s.target ++ form.xattrBytes s.xattr
  | .device _ linkCount number xattr =>
      word32 linkCount ++ word32 number ++ form.xattrBytes xattr
  | .channel _ linkCount xattr => word32 linkCount ++ form.xattrBytes xattr

variable {σ : Type} [RecordSource σ] {front : Front σ} {form : InodeForm}

open Decoder (Reads Leads reads_u16 reads_u32 reads_u64 reads_bytes)

theorem toUInt32_toUInt16 {word : UInt32} (hword : word.toNat ≤ 0xffff) :
    word.toUInt16.toUInt32 = word := by
  apply UInt32.toNat_inj.mp
  rw [UInt16.toNat_toUInt32, UInt32.toNat_toUInt16]
  omega

theorem toUInt64_toUInt32 {word : UInt64} (hword : word.toNat ≤ 0xffffffff) :
    word.toUInt32.toUInt64 = word := by
  apply UInt64.toNat_inj.mp
  rw [UInt32.toNat_toUInt64, UInt64.toNat_toUInt32]
  omega

theorem littleEndian_four {n : Nat} (hn : n < 2 ^ 32) :
    littleEndian 4 n = word32 (UInt32.ofNat n) := by
  rw [word32, UInt32.toNat_ofNat_of_lt' hn]

theorem skipIndex_reads {index : List IndexEntry} (hindex : ∀ entry ∈ index, entry.IsValid) :
    Reads front (skipIndex index.length) (index.flatMap IndexEntry.bytes) () := by
  induction index with
  | nil => exact .pure ()
  | cons entry index ih =>
      obtain ⟨hpos, hle⟩ := hindex entry List.mem_cons_self
      have hlength : entry.name.length - 1 < 2 ^ 32 := by omega
      have hname : (UInt32.ofNat (entry.name.length - 1)).toNat + 1 = entry.name.length := by
        rw [UInt32.toNat_ofNat_of_lt' hlength]
        omega
      simp only [List.flatMap_cons, IndexEntry.bytes, littleEndian_four hlength, List.append_assoc]
      refine (reads_u32 _).bind ?_
      refine (reads_u32 _).bind ?_
      refine (reads_u32 _).bind ?_
      rw [hname]
      refine (reads_bytes _).bind ?_
      exact ih fun other hmem => hindex other (List.mem_cons_of_mem entry hmem)

theorem decodeDirectory_reads {body : DirectoryBody} (hform : form.Fits (.directory body)) :
    Reads front (decodeDirectory form.isExtended) (record form (.directory body)) body := by
  cases form with
  | basic =>
      simp only [InodeForm.Fits, isExtended, Bool.or_eq_false_iff, decide_eq_false_iff_not,
        bne_eq_false_iff_eq, Nat.not_lt] at hform
      obtain ⟨hsize, hxattr⟩ := hform
      simp only [record, List.append_assoc]
      refine (reads_u32 _).bind ?_
      refine (reads_u32 _).bind ?_
      refine (reads_u16 _).bind ?_
      refine (reads_u16 _).bind ?_
      refine (reads_u32 _).map ?_
      rw [toUInt32_toUInt16 hsize, ← hxattr]
      exact .pure body
  | extended index =>
      obtain ⟨hlength, hindex⟩ := hform
      have hcount : (UInt16.ofNat index.length).toNat = index.length :=
        UInt16.toNat_ofNat_of_lt' (Nat.lt_succ_of_le hlength)
      simp only [record, List.append_assoc]
      refine (reads_u32 _).bind ?_
      refine (reads_u32 _).bind ?_
      refine (reads_u32 _).bind ?_
      refine (reads_u32 _).bind ?_
      refine (Decoder.reads_u16_littleEndian _).bind ?_
      refine (reads_u16 _).bind ?_
      refine (reads_u32 _).bind ?_
      rw [hcount]
      exact (skipIndex_reads hindex).map (.pure body)

theorem decodeWords_reads (words done : List UInt32) :
    Reads front (decodeWords words.length done) (words.flatMap word32) (done.reverse ++ words) := by
  induction words generalizing done with
  | nil =>
      rw [List.append_nil]
      exact .pure _
  | cons word words ih =>
      have hrest := ih (word :: done)
      rw [List.reverse_cons, List.append_assoc, List.singleton_append] at hrest
      exact (reads_u32 word).bind hrest

variable {blockSize : Nat}

/-- Reads the size words of a file whose other fields are read. -/
def decodeSizes (blockSize : Nat) (body : FileBody) : Decoder σ FileBody := do
  let count ← (wordCount body.fileSize.toNat blockSize body.hasFragment : Except Error Nat)
  let blockSizes ← decodeWords count []
  return { body with blockSizes }

/-- After the fields that differ, a file is read in the same way in both forms. -/
theorem decodeFile_leads {body : FileBody} (hform : form.Fits (.file body)) :
    Leads front (decodeFile blockSize form.isExtended) (fileHead body form)
      (decodeSizes blockSize body) := by
  cases form with
  | basic =>
      obtain ⟨blocksStart, fileSize, sparse, linkCount, fragment, fragmentOffset, xattr, sizes⟩ :=
        body
      simp only [InodeForm.Fits, isExtended, Bool.or_eq_false_iff, decide_eq_false_iff_not,
        bne_eq_false_iff_eq, Nat.not_lt] at hform
      obtain ⟨⟨⟨⟨hstart, hsize⟩, rfl⟩, rfl⟩, rfl⟩ := hform
      have hsizeBack : fileSize.toUInt32.toNat = fileSize.toNat := by
        rw [UInt64.toNat_toUInt32]
        omega
      rw [← List.append_nil (fileHead _ _)]
      simp only [fileHead, List.append_assoc]
      refine (reads_u32 _).leads.trans ?_
      refine (reads_u32 _).leads.trans ?_
      refine (reads_u32 _).leads.trans ?_
      refine (reads_u32 _).leads.trans ?_
      rw [toUInt64_toUInt32 hstart, toUInt64_toUInt32 hsize, hsizeBack]
      exact .refl _
  | extended index =>
      simp only [fileHead, List.append_assoc]
      refine (reads_u64 _).leads.trans ?_
      refine (reads_u64 _).leads.trans ?_
      refine (reads_u64 _).leads.trans ?_
      refine (reads_u32 _).leads.trans ?_
      refine (reads_u32 _).leads.trans ?_
      refine (reads_u32 _).leads.trans ?_
      exact (reads_u32 _).leads

theorem decodeFile_reads {body : FileBody} (hform : form.Fits (.file body))
    (hbody : IsStorable blockSize (.file body)) :
    Reads front (decodeFile blockSize form.isExtended) (record form (.file body)) body := by
  refine (decodeFile_leads hform).reads ?_
  refine (Reads.ofExcept hbody).lift ?_
  exact (decodeWords_reads body.blockSizes []).map (.pure body)

theorem decodeXattr_reads {xattr : UInt32} (hbasic : form = .basic → xattr = noXattr) :
    Reads front (decodeXattr form.isExtended) (form.xattrBytes xattr) xattr := by
  cases form with
  | basic =>
      rw [hbasic rfl]
      exact .pure noXattr
  | extended index => exact reads_u32 xattr

theorem decodeSymlink_reads {body : SymlinkBody} (hform : form.Fits (.symlink body))
    (inodeNumber : UInt32) (hbody : body.target.length ≤ maxLinkTarget) :
    Reads front (decodeSymlink inodeNumber form.isExtended) (record form (.symlink body)) body := by
  have hlength : body.target.length < 2 ^ 32 := Nat.lt_of_le_of_lt hbody (by decide)
  have hxattr : form = .basic → body.xattr = noXattr := by
    rintro rfl
    simpa [InodeForm.Fits, isExtended] using hform
  simp only [record, littleEndian_four hlength, List.append_assoc]
  refine (reads_u32 _).bind ?_
  refine (reads_u32 _).bind ?_
  rw [UInt32.toNat_ofNat_of_lt' hlength, if_neg (Nat.not_lt_of_le hbody)]
  refine (reads_bytes _).bind ?_
  exact (decodeXattr_reads hxattr).map (.pure body)

theorem decode_record_reads {body : InodeBody} (hform : form.Fits body) (inodeNumber : UInt32)
    (hbody : body.IsStorable blockSize) :
    Reads front (decode blockSize inodeNumber form.isExtended body.kind) (body.record form)
      body := by
  cases body with
  | directory body => exact (decodeDirectory_reads hform).map (.pure _)
  | file body => exact (decodeFile_reads hform hbody).map (.pure _)
  | symlink body => exact (decodeSymlink_reads hform inodeNumber hbody).map (.pure _)
  | device kind linkCount number xattr =>
      have hxattr : form = .basic → xattr = noXattr := by
        rintro rfl
        simpa [InodeForm.Fits, isExtended] using hform
      simp only [record, List.append_assoc]
      cases kind
      all_goals
        refine (reads_u32 _).bind ?_
        refine (reads_u32 _).bind ?_
        exact (decodeXattr_reads hxattr).map (.pure _)
  | channel kind linkCount xattr =>
      have hxattr : form = .basic → xattr = noXattr := by
        rintro rfl
        simpa [InodeForm.Fits, isExtended] using hform
      simp only [record]
      cases kind
      all_goals
        refine (reads_u32 _).bind ?_
        exact (decodeXattr_reads hxattr).map (.pure _)

theorem decodeSymlink_leads {body : SymlinkBody} (hlength : body.target.length < 2 ^ 32)
    (hlong : maxLinkTarget < body.target.length) (inodeNumber : UInt32) (extended : Bool) :
    Leads front (decodeSymlink inodeNumber extended)
      (word32 body.linkCount ++ littleEndian 4 body.target.length)
      (damaged (.linkTargetTooLong inodeNumber.toNat body.target.length)) := by
  rw [← List.append_nil (_ ++ _), littleEndian_four hlength, List.append_assoc]
  refine (reads_u32 _).leads.trans ?_
  refine (reads_u32 _).leads.trans ?_
  rw [UInt32.toNat_ofNat_of_lt' hlength, if_pos hlong]
  exact .refl _

theorem decode_record_eq {body : InodeBody} {index : List IndexEntry}
    (hbasic : InodeForm.basic.Fits body) (hindex : (InodeForm.extended index).Fits body)
    (hlink : ∀ link, body = .symlink link → link.target.length < 2 ^ 32) (inodeNumber : UInt32)
    (rest : Bytes) :
    decode blockSize inodeNumber false body.kind (body.record .basic ++ rest) =
      decode blockSize inodeNumber true body.kind (body.record (.extended index) ++ rest) := by
  by_cases hbody : body.IsStorable blockSize
  · exact ((decode_record_reads hbasic inodeNumber hbody).eq_of_bytes rest).trans
      ((decode_record_reads hindex inodeNumber hbody).eq_of_bytes rest).symm
  -- values that are not read back have one outcome too, from where the two forms no longer differ
  · cases body with
    | directory _ | device _ _ _ _ | channel _ _ _ => exact absurd trivial hbody
    | file body =>
        have hsame : ∀ {form : InodeForm}, form.Fits (.file body) →
            decode blockSize inodeNumber form.isExtended .file
                (record form (.file body) ++ rest) =
              (do return file (← decodeSizes blockSize body))
                (body.blockSizes.flatMap word32 ++ rest) := by
          intro form hform
          rw [record, List.append_assoc]
          exact ((decodeFile_leads hform).bind _).eq_of_bytes _
        exact (hsame hbasic).trans (hsame hindex).symm
    | symlink body =>
        have hsame : ∀ form : InodeForm,
            decode blockSize inodeNumber form.isExtended .symlink
                (record form (.symlink body) ++ rest) =
              .error (.corruptTable
                (.linkTargetTooLong inodeNumber.toNat body.target.length)) := by
          intro form
          rw [record, List.append_assoc, List.append_assoc]
          exact ((decodeSymlink_leads (hlink body rfl) (Nat.lt_of_not_le hbody) inodeNumber
            form.isExtended).bind _).eq_of_bytes _
        exact (hsame .basic).trans (hsame (.extended index)).symm

end InodeBody

namespace Inode

variable {σ : Type} [RecordSource σ] {front : Front σ} {form : InodeForm} {blockSize : Nat}

open Decoder (Reads Leads reads_u16 reads_u32)

def codeIn (form : InodeForm) (inode : Inode) : Nat :=
  if form.isExtended then inode.kind.code + EntryKind.extendedOffset else inode.kind.code

def head (form : InodeForm) (inode : Inode) : Bytes :=
  littleEndian 2 (inode.codeIn form) ++ word16 inode.permissions ++ word16 inode.uidIndex
    ++ word16 inode.gidIndex ++ word32 inode.mtime ++ word32 inode.inodeNumber

def record (form : InodeForm) (inode : Inode) : Bytes :=
  inode.head form ++ inode.body.record form

theorem ofCode?_codeIn (form : InodeForm) (inode : Inode) :
    EntryKind.ofCode? (inode.codeIn form) = some inode.kind := by
  unfold codeIn
  split
  · exact EntryKind.ofCode?_code_add _
  · exact EntryKind.ofCode?_code _

theorem code_le (kind : EntryKind) : 0 < kind.code ∧ kind.code ≤ EntryKind.extendedOffset := by
  cases kind
  all_goals decide

theorem toNat_codeIn (form : InodeForm) (inode : Inode) :
    (UInt16.ofNat (inode.codeIn form)).toNat = inode.codeIn form := by
  have hkind := code_le inode.kind
  rw [UInt16.toNat_ofNat', codeIn]
  unfold EntryKind.extendedOffset at *
  split
  all_goals omega

theorem lt_codeIn (form : InodeForm) (inode : Inode) :
    decide (EntryKind.extendedOffset < inode.codeIn form) = form.isExtended := by
  have hkind := code_le inode.kind
  unfold codeIn
  cases form with
  | basic => simpa [InodeForm.isExtended] using hkind.2
  | extended index => simpa [InodeForm.isExtended] using hkind.1

theorem decode_leads (form : InodeForm) (inode : Inode) :
    Leads front (decode blockSize) (inode.head form) (do
      let body ← InodeBody.decode blockSize inode.inodeNumber form.isExtended inode.kind
      return { inode with body }) := by
  simp only [head, List.append_assoc]
  refine (Decoder.reads_u16_littleEndian _).leads.trans ?_
  rw [toNat_codeIn, ofCode?_codeIn, lt_codeIn]
  refine (reads_u16 _).leads.trans ?_
  refine (reads_u16 _).leads.trans ?_
  refine (reads_u16 _).leads.trans ?_
  refine (reads_u32 _).leads.trans ?_
  exact (reads_u32 _).leads

theorem decode_record_reads {inode : Inode} (hform : form.Fits inode.body)
    (hbody : inode.body.IsStorable blockSize) :
    Reads front (decode blockSize) (inode.record form) inode :=
  (decode_leads form inode).reads
    ((InodeBody.decode_record_reads hform inode.inodeNumber hbody).map (.pure inode))

/-- The two forms of an inode are read alike.  Values that the basic form holds are read with the
same outcome from both.  What can be read back is read back, and the bytes after it are left; in the
extended form this does not depend on the index of a directory. -/
theorem forms_read_alike (blockSize : Nat) (inode : Inode) (index : List IndexEntry)
    (hlength : index.length ≤ 0xffff)
    (hvalid : ∀ entry ∈ index, entry.IsValid)
    (hlink : ∀ link, inode.body = .symlink link → link.target.length < 2 ^ 32) (rest : Bytes) :
    (inode.body.isExtended = false →
        decode blockSize (inode.record .basic ++ rest) =
          decode blockSize (inode.record (.extended index) ++ rest)) ∧
      (inode.body.IsStorable blockSize → inode.body.isExtended = false →
        decode blockSize (inode.record .basic ++ rest) = .ok (inode, rest)) ∧
      (inode.body.IsStorable blockSize →
        decode blockSize (inode.record (.extended index) ++ rest) = .ok (inode, rest)) := by
  have hindex : (InodeForm.extended index).Fits inode.body := ⟨hlength, hvalid⟩
  refine ⟨?_, ?_, ?_⟩
  · intro hbasic
    have hfits : InodeForm.basic.Fits inode.body := hbasic
    simp only [record, List.append_assoc]
    rw [(decode_leads .basic inode).eq_of_bytes, (decode_leads (.extended index) inode).eq_of_bytes]
    exact Decoder.bind_congr
      (InodeBody.decode_record_eq hfits hindex hlink inode.inodeNumber rest) _
  · intro hbody hbasic
    have hfits : InodeForm.basic.Fits inode.body := hbasic
    exact (decode_record_reads hfits hbody).eq_of_bytes rest
  · intro hbody
    exact (decode_record_reads hindex hbody).eq_of_bytes rest

def sampleDirectory : Inode :=
  { permissions := 0o755, uidIndex := 0, gidIndex := 1, mtime := 7, inodeNumber := 3
    body := .directory ⟨96, 12, 0xffff, 2, 4, noXattr⟩ }

def sampleIndex : List IndexEntry := [⟨0, 0, [97]⟩, ⟨8192, 8194, [98, 99]⟩]

/-- The largest directory in the basic form is read alike without an index and with one. -/
theorem forms_read_alike_directory :
    decode 4096 (sampleDirectory.record .basic ++ [1, 2]) =
        decode 4096 (sampleDirectory.record (.extended sampleIndex) ++ [1, 2]) ∧
      decode 4096 (sampleDirectory.record .basic ++ [1, 2]) = .ok (sampleDirectory, [1, 2]) ∧
      decode 4096 (sampleDirectory.record (.extended sampleIndex) ++ [1, 2]) =
        .ok (sampleDirectory, [1, 2]) := by
  obtain ⟨hsame, hbasic, hextended⟩ :=
    forms_read_alike 4096 sampleDirectory sampleIndex (by decide) (by decide) nofun [1, 2]
  exact ⟨hsame rfl, hbasic trivial rfl, hextended trivial⟩

end Inode

namespace InodeBody

def form (body : InodeBody) : InodeForm := if body.isExtended then .extended [] else .basic

@[simp] theorem isExtended_form (body : InodeBody) : body.form.isExtended = body.isExtended := by
  unfold form
  cases body.isExtended
  all_goals rfl

theorem fits_form (body : InodeBody) : body.form.Fits body := by
  unfold form
  split
  · exact ⟨Nat.zero_le _, nofun⟩
  · rename_i hbasic
    exact Bool.eq_false_iff.mpr hbasic

theorem encode_eq_record (body : InodeBody) : body.encode = body.record body.form := by
  cases hextended : body.isExtended
  all_goals
    cases body
    all_goals
      simp [encode, record, form, hextended, fileHead, InodeForm.xattrBytes, InodeForm.isExtended,
        word16]

end InodeBody

namespace Inode

theorem encode_eq_record (inode : Inode) : inode.encode = inode.record inode.body.form := by
  have hcode : inode.codeIn inode.body.form = inode.typeCode := by simp [codeIn, typeCode]
  rw [encode, record, head, hcode, InodeBody.encode_eq_record]

theorem decode_reads {σ : Type} [RecordSource σ] {front : Front σ} {blockSize : Nat}
    {inode : Inode} (hbody : inode.body.IsStorable blockSize) :
    Decoder.Reads front (decode blockSize) inode.encode inode := by
  rw [encode_eq_record]
  exact decode_record_reads inode.body.fits_form hbody

theorem encode_ne_nil (inode : Inode) : inode.encode ≠ [] := by
  intro hnil
  have hlength := congrArg List.length hnil
  simp only [encode, List.length_append, length_littleEndian, List.length_nil] at hlength
  omega

end Inode

end TreeImage.Format
