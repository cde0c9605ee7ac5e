import TreeImage.Format.Inode
import TreeImage.Format.Listing
import TreeImage.Proofs.Error.Fault
import TreeImage.Proofs.Error.Report

namespace TreeImage.Format

variable {σ τ : Type} [RecordSource σ] [RecordSource τ] {traps : Prop}

namespace Decoder

/-- Steps over two record sources that are made in the same way; a parameter says whether they may
trap. -/
inductive Twins (traps : Prop) : {α : Type} → Decoder σ α → Decoder τ α → Prop
  | pure {α : Type} (value : α) : Twins traps (pure value) (pure value)
  | bind {α β : Type} {step : Decoder σ α} {twin : Decoder τ α} {next : α → Decoder σ β}
      {twinNext : α → Decoder τ β} (hstep : Twins traps step twin)
      (hnext : ∀ value, Twins traps (next value) (twinNext value)) :
      Twins traps (step >>= next) (twin >>= twinNext)
  | read (count : Nat) : Twins traps (bytes count) (bytes count)
  | refuse {α : Type} (damage : Damage) :
      Twins traps (damaged damage : Decoder σ α) (damaged damage)
  | trap {α : Type} (htraps : traps) (cause : Trap) :
      Twins traps (throw (.trap cause) : Decoder σ α) (throw (.trap cause))

theorem twins_u16 : Twins traps (u16 : Decoder σ _) (u16 : Decoder τ _) :=
  (Twins.read 2).bind fun _ => .pure _

theorem twins_u32 : Twins traps (u32 : Decoder σ _) (u32 : Decoder τ _) :=
  (Twins.read 4).bind fun _ => .pure _

theorem twins_u64 : Twins traps (u64 : Decoder σ _) (u64 : Decoder τ _) :=
  (Twins.read 8).bind fun _ => .pure _

end Decoder

open Decoder

namespace InodeBody

theorem twins_skipIndex (count : Nat) :
    Twins traps (skipIndex count : Decoder σ _) (skipIndex count : Decoder τ _) := by
  induction count with
  | zero => exact .pure ()
  | succ count ih =>
      iterate 3 refine twins_u32.bind fun _ => ?_
      exact (Twins.read _).bind fun _ => ih

theorem twins_decodeDirectory (extended : Bool) :
    Twins traps (decodeDirectory extended : Decoder σ _)
      (decodeDirectory extended : Decoder τ _) := by
  cases extended with
  | true =>
      iterate 4 refine twins_u32.bind fun _ => ?_
      iterate 2 refine twins_u16.bind fun _ => ?_
      refine twins_u32.bind fun _ => ?_
      exact (twins_skipIndex _).bind fun _ => .pure _
  | false =>
      iterate 2 refine twins_u32.bind fun _ => ?_
      iterate 2 refine twins_u16.bind fun _ => ?_
      exact twins_u32.bind fun _ => .pure _

theorem twins_decodeWords (count : Nat) (words : List UInt32) :
    Twins traps (decodeWords count words : Decoder σ _)
      (decodeWords count words : Decoder τ _) := by
  induction count generalizing words with
  | zero => exact .pure _
  | succ count ih => exact twins_u32.bind fun word => ih (word :: words)

theorem twins_wordCount {blockSize : Nat} (hblockSize : blockSize = 0 → traps) (fileSize : Nat)
    (hasFragment : Bool) :
    Twins traps (liftM (wordCount fileSize blockSize hasFragment) : Decoder σ _)
      (liftM (wordCount fileSize blockSize hasFragment) : Decoder τ _) := by
  unfold wordCount
  split
  · rename_i hzero
    exact .trap (hblockSize hzero) _
  · exact .pure _

theorem twins_decodeFile {blockSize : Nat} (hblockSize : blockSize = 0 → traps) (extended : Bool) :
    Twins traps (decodeFile blockSize extended : Decoder σ _)
      (decodeFile blockSize extended : Decoder τ _) := by
  cases extended with
  | true =>
      iterate 3 refine twins_u64.bind fun _ => ?_
      iterate 4 refine twins_u32.bind fun _ => ?_
      refine (twins_wordCount hblockSize _ _).bind fun _ => ?_
      exact (twins_decodeWords _ _).bind fun _ => .pure _
  | false =>
      iterate 4 refine twins_u32.bind fun _ => ?_
      refine (twins_wordCount hblockSize _ _).bind fun _ => ?_
      exact (twins_decodeWords _ _).bind fun _ => .pure _

theorem twins_decodeXattr (extended : Bool) :
    Twins traps (decodeXattr extended : Decoder σ _) (decodeXattr extended : Decoder τ _) := by
  cases extended with
  | true => exact twins_u32
  | false => exact .pure _

theorem twins_decodeSymlink (inodeNumber : UInt32) (extended : Bool) :
    Twins traps (decodeSymlink inodeNumber extended : Decoder σ _)
      (decodeSymlink inodeNumber extended : Decoder τ _) := by
  refine twins_u32.bind fun _ => ?_
  refine twins_u32.bind fun size => ?_
  split
  · exact .refuse _
  · refine (Twins.read _).bind fun _ => ?_
    exact (twins_decodeXattr extended).bind fun _ => .pure _

theorem twins_decode {blockSize : Nat} (hblockSize : blockSize = 0 → traps) (inodeNumber : UInt32)
    (extended : Bool) (kind : EntryKind) :
    Twins traps (decode blockSize inodeNumber extended kind : Decoder σ _)
      (decode blockSize inodeNumber extended kind : Decoder τ _) := by
  cases kind with
  | directory => exact (twins_decodeDirectory extended).bind fun _ => .pure _
  | file => exact (twins_decodeFile hblockSize extended).bind fun _ => .pure _
  | symlink => exact (twins_decodeSymlink inodeNumber extended).bind fun _ => .pure _
  | blockDevice | charDevice =>
      iterate 2 refine twins_u32.bind fun _ => ?_
      exact (twins_decodeXattr extended).bind fun _ => .pure _
  | fifo | socket =>
      refine twins_u32.bind fun _ => ?_
      exact (twins_decodeXattr extended).bind fun _ => .pure _

end InodeBody

/-- The step that reads an inode traps only for want of a block size. -/
theorem Inode.twins_decode {blockSize : Nat} (hblockSize : blockSize = 0 → traps) :
    Twins traps (Inode.decode blockSize : Decoder σ _) (Inode.decode blockSize : Decoder τ _) := by
  refine twins_u16.bind fun code => ?_
  cases EntryKind.ofCode? code.toNat with
  | none => exact .refuse _
  | some kind =>
      iterate 3 refine twins_u16.bind fun _ => ?_
      refine twins_u32.bind fun _ => ?_
      refine twins_u32.bind fun inodeNumber => ?_
      exact (InodeBody.twins_decode hblockSize inodeNumber _ kind).bind fun _ => .pure _

namespace Listing

theorem twins_decodeEntry (block base : UInt32) :
    Twins traps (decodeEntry block base) (decodeEntry block base) := by
  iterate 4 refine twins_u16.bind fun _ => ?_
  refine (Twins.read _).bind fun name => ?_
  split
  · exact .refuse _
  · split
    · exact .refuse _
    · split
      · exact .refuse _
      · split
        · exact .pure _
        · exact .refuse _

theorem twins_decodeEntries (block base : UInt32) (count : Nat) (entries : List ListingEntry) :
    Twins traps (decodeEntries block base count entries)
      (decodeEntries block base count entries) := by
  induction count generalizing entries with
  | zero => exact .pure _
  | succ count ih => exact (twins_decodeEntry block base).bind fun entry => ih (entry :: entries)

theorem twins_decodeRun (entries : List ListingEntry) :
    Twins traps (decodeRun entries) (decodeRun entries) := by
  iterate 3 refine twins_u32.bind fun _ => ?_
  dsimp only
  split
  · exact .refuse _
  · exact twins_decodeEntries _ _ _ entries

end Listing

section

variable {α : Type} {Safe : σ → Prop}
  (htake : ∀ count, Decoder.Faults Safe (bytes count : Decoder σ Bytes))
include htake

theorem Decoder.Twins.faults {step twin : Decoder σ α} (htwins : Twins True step twin) :
    Faults Safe step := by
  induction htwins with
  | pure value => exact .pure value
  | bind _ _ hstep hnext => exact hstep.bind hnext
  | read count => exact htake count
  | refuse damage => exact faults_damaged damage
  | trap _ cause => exact .ofExcept (.error trivial)

theorem Inode.decode_faults (blockSize : Nat) : Decoder.Faults Safe (Inode.decode blockSize) :=
  (twins_decode fun _ => trivial : Decoder.Twins _ _ (decode blockSize)).faults htake

end

variable {storageFails : Prop}

section

variable {α : Type} {guard : Guard σ storageFails}

theorem Decoder.Twins.reports {step twin : Decoder σ α} (htwins : Twins False step twin) :
    Reports guard step := by
  induction htwins with
  | pure value => exact .pure value
  | bind _ _ hstep hnext => exact hstep.bind hnext
  | read count => exact reports_bytes count
  | refuse damage => exact reports_damaged damage
  | trap htraps cause => exact htraps.elim

theorem Inode.decode_reports {blockSize : Nat} (hblockSize : blockSize ≠ 0) :
    Decoder.Reports guard (Inode.decode blockSize) :=
  (twins_decode hblockSize : Decoder.Twins _ _ (decode blockSize)).reports

end

namespace Listing

theorem decodeRuns_faults (fuel : Nat) (entries : List ListingEntry) (data : Bytes) :
    Faults (decodeRuns fuel entries data) := by
  induction fuel generalizing entries data with
  | zero => exact .ok _
  | succ fuel ih =>
      rw [decodeRuns]
      refine .ite (.ok _) ?_
      have hrun := (twins_decodeRun entries).faults Decoder.faults_bytes
      exact (hrun data trivial).1.bind fun read _ => ih read.1 read.2

theorem decode_faults (data : Bytes) : Faults (decode data) :=
  (decodeRuns_faults data.length [] data).map List.reverse

theorem decodeRuns_reports (fuel : Nat) (entries : List ListingEntry) (data : Bytes) :
    Reports storageFails (decodeRuns fuel entries data) := by
  induction fuel generalizing entries data with
  | zero => exact .ok _
  | succ fuel ih =>
      rw [decodeRuns]
      split
      · exact .ok _
      · have hrun : Decoder.Reports (Guard.ofBytes storageFails) (decodeRun entries) :=
          (twins_decodeRun entries).reports
        exact (hrun data trivial).1.bind fun read _ => ih read.1 read.2

theorem decode_reports (data : Bytes) : Reports storageFails (decode data) :=
  (decodeRuns_reports data.length [] data).map List.reverse

end Listing

end TreeImage.Format
