import TreeImage.Build.Builder
import TreeImage.Proofs.Build.Script
import TreeImage.Proofs.Staging.Change

namespace TreeImage

open Build Format Staging

namespace Stage

/-- Whether a builder is done neither with its image nor for. -/
def IsUnderWay (stage : Stage) : Prop := stage ≠ .finalized ∧ stage ≠ .failed

/-- The stage of a builder after writing its image, which had come as far as `reached`. -/
def after (reached : Stage) : Except Error Unit → Stage
  | .ok () => .finalized
  | .error (.trap _) => reached
  | .error _ => .failed

end Stage

namespace Builder

/-- The edits of a builder, with the values they are given. -/
inductive Edit
  | mkdir (path : String)
  | openFile (path : String) (create : Bool)
  | write (handle : FileHandle) (bytes : Bytes)
  | putFile (path : String) (bytes : Bytes)
  | symlink (target path : String)
  | setPermissions (path : String) (mode : UInt16)
  | setOwner (path : String) (uid gid : UInt32)
  | setMtime (path : String) (mtime : UInt32)

def Edit.apply : Edit → Builder → Builder
  | .mkdir path, builder => ((Builder.mkdir path).run builder).2
  | .openFile path create, builder => ((Builder.openFile path create).run builder).2
  | .write handle bytes, builder => ((Builder.write bytes).run (handle, builder)).2.2
  | .putFile path bytes, builder => ((Builder.putFile path bytes).run builder).2
  | .symlink target path, builder => ((Builder.symlink target path).run builder).2
  | .setPermissions path mode, builder => ((Builder.setPermissions path mode).run builder).2
  | .setOwner path uid gid, builder => ((Builder.setOwner path uid gid).run builder).2
  | .setMtime path mtime, builder => ((Builder.setMtime path mtime).run builder).2

def editAll (edits : List Edit) (builder : Builder) : Builder :=
  edits.foldl (fun builder edit => edit.apply builder) builder

/-- Whether a builder takes edits of a well-formed tree for an image in a region. -/
structure Stages (builder : Builder) (region : Region) (blockSize : UInt32) : Prop where
  region_eq : builder.region = region
  blockSize_eq : builder.blockSize = blockSize
  stage_eq : builder.stage = .staging
  wellFormed : builder.tree.WellFormed

variable {region : Region} {blockSize : UInt32} {α β : Type}

def Keeps (step : Action Builder α) : Prop :=
  ∀ (builder : Builder) (region : Region) (blockSize : UInt32),
    builder.Stages region blockSize → (step.run builder).2.Stages region blockSize

theorem Keeps.bind {step : Action Builder α} {next : α → Action Builder β} (hstep : Keeps step)
    (hnext : ∀ value, Keeps (next value)) : Keeps (step >>= next) := by
  intro builder region blockSize hstages
  have hmiddle := hstep builder region blockSize hstages
  rcases hrun : step.run builder with ⟨error | value, middle⟩
  · rw [hrun] at hmiddle
    rwa [Action.run_bind_of_error hrun]
  · rw [hrun] at hmiddle
    rw [Action.run_bind_of_ok hrun]
    exact hnext value middle region blockSize hmiddle

theorem keeps_pure (value : α) : Keeps (pure value) :=
  fun _ _ _ hstages => hstages

theorem keeps_edit {step : Action Tree α} (hkeeps : Tree.Keeps step) : Keeps (edit step) := by
  rintro ⟨_, _, tree, _⟩ region blockSize ⟨rfl, rfl, rfl, htree⟩
  exact ⟨rfl, rfl, rfl, hkeeps tree htree⟩

theorem keeps_putFile (path : String) (bytes : Bytes) : Keeps (putFile path bytes) := by
  refine (keeps_edit (Tree.keeps_openFile path true)).bind fun handle => ?_
  exact keeps_edit fun tree htree => Tree.write_keeps bytes handle htree

theorem Stages.apply {builder : Builder} (hstages : builder.Stages region blockSize)
    (edit : Edit) : (edit.apply builder).Stages region blockSize := by
  cases edit with
  | mkdir path =>
      exact (keeps_edit (Tree.keeps_mkdir path)).bind (fun _ => keeps_pure ()) _ _ _ hstages
  | openFile path create => exact keeps_edit (Tree.keeps_openFile path create) _ _ _ hstages
  | write handle bytes =>
      obtain ⟨_, _, tree, _⟩ := builder
      obtain ⟨rfl, rfl, rfl, htree⟩ := hstages
      exact ⟨rfl, rfl, rfl, Tree.write_keeps bytes handle htree⟩
  | putFile path bytes => exact keeps_putFile path bytes _ _ _ hstages
  | symlink target path =>
      exact (keeps_edit (Tree.keeps_symlink target path)).bind (fun _ => keeps_pure ()) _ _ _
        hstages
  | setPermissions path mode => exact keeps_edit (Tree.keeps_change path _) _ _ _ hstages
  | setOwner path uid gid => exact keeps_edit (Tree.keeps_change path _) _ _ _ hstages
  | setMtime path mtime => exact keeps_edit (Tree.keeps_change path _) _ _ _ hstages

theorem Stages.editAll {builder : Builder} (hstages : builder.Stages region blockSize)
    (edits : List Edit) : (builder.editAll edits).Stages region blockSize := by
  induction edits generalizing builder with
  | nil => exact hstages
  | cons edit edits ih => exact ih (hstages.apply edit)

theorem stages_of_create {storage : Storage} {start size : Nat} {clock : NodeId → UInt32}
    {builder : Builder} (hcreate : create storage start size blockSize clock = .ok builder)
    (edits : List Edit) :
    isBlockSize blockSize.toNat = true ∧
      (builder.editAll edits).Stages (Region.ofStorage storage start size) blockSize := by
  unfold create at hcreate
  split at hcreate
  · cases hcreate
  · rename_i hblockSize
    split at hcreate
    · cases hcreate
    · cases hcreate
      refine ⟨by simpa using hblockSize, Stages.editAll ?_ edits⟩
      exact ⟨rfl, rfl, rfl, Tree.wellFormed_new clock⟩

section Finalize

variable {builder last : Builder} {codecs : Codecs} {codec : Codec} {time : UInt32}
  {options : Options} {result : Except Error Unit} {written : Region}

theorem onRegion_eq {script : Script α} {result : Except Error α}
    (hrun : (Script.run script).run builder.region = (result, written)) :
    (onRegion script).run builder =
      (result, ⟨written, builder.blockSize, builder.tree, builder.stage⟩) := by
  obtain ⟨region, blockSize, tree, stage⟩ := builder
  change onRegion script ⟨region, blockSize, tree, stage⟩ = _
  unfold onRegion
  dsimp only at hrun ⊢
  rw [show script.run region = (result, written) from hrun]

theorem reach_bind (stage : Stage) (next : Unit → Action Builder β) (builder : Builder) :
    (reach stage >>= next).run builder =
      (next ()).run ⟨builder.region, builder.blockSize, builder.tree, stage⟩ := rfl

theorem run_imageScript (codec : Codec) (blockSize time : UInt32) (tree : Tree)
    (options : Options) :
    Script.run (imageScript codec blockSize time tree options) =
      Script.run (Plan.ofTree codec blockSize tree options) >>= fun plan =>
        Script.run (plan.writeTables codec) >>= fun built =>
          Script.run (plan.writeSuperblock codec blockSize time built) := by
  unfold imageScript
  rw [Script.run_bind]
  exact congrArg _ (funext fun plan => Script.run_bind _ _)

/-- The writes of an image are made as by one script. -/
theorem exists_writeImage_eq (hstage : builder.stage = .staging)
    (hrun : (Script.run (imageScript codec builder.blockSize time builder.tree options)).run
      builder.region = (result, written)) :
    ∃ reached : Stage, reached.IsUnderWay ∧
      (writeImage codec builder.blockSize time builder.tree options).run builder =
        (result, ⟨written, builder.blockSize, builder.tree, reached⟩) := by
  rw [run_imageScript] at hrun
  unfold writeImage
  rcases hplan : (Script.run (Plan.ofTree codec builder.blockSize builder.tree options)).run
    builder.region with ⟨error | plan, middle⟩
  · rw [Action.run_bind_of_error hplan] at hrun
    cases hrun
    refine ⟨builder.stage, ?_, Action.run_bind_of_error (onRegion_eq hplan)⟩
    rw [hstage]
    exact ⟨Stage.noConfusion, Stage.noConfusion⟩
  rw [Action.run_bind_of_ok hplan] at hrun
  rw [Action.run_bind_of_ok (onRegion_eq hplan), reach_bind]
  rcases hbuilt : (Script.run (plan.writeTables codec)).run middle with ⟨error | built, ending⟩
  · rw [Action.run_bind_of_error hbuilt] at hrun
    cases hrun
    exact ⟨.dataWritten, ⟨Stage.noConfusion, Stage.noConfusion⟩,
      Action.run_bind_of_error (onRegion_eq hbuilt)⟩
  rw [Action.run_bind_of_ok hbuilt] at hrun
  rw [Action.run_bind_of_ok (onRegion_eq hbuilt), reach_bind]
  exact ⟨.metadataWritten, ⟨Stage.noConfusion, Stage.noConfusion⟩, onRegion_eq hrun⟩

theorem exists_finalize_eq (hstage : builder.stage = .staging)
    (hcodec : options.algorithm.codec codecs = .ok codec)
    (hrun : (imageScript codec builder.blockSize time builder.tree options).run builder.region =
      (result, written)) :
    ∃ reached : Stage, reached.IsUnderWay ∧ (finalize codecs time options).run builder =
      (result, ⟨written, builder.blockSize, builder.tree, reached.after result⟩) := by
  obtain ⟨reached, hreached, hwrite⟩ := exists_writeImage_eq hstage hrun
  refine ⟨reached, hreached, ?_⟩
  obtain ⟨region, blockSize, tree, _⟩ := builder
  obtain rfl : _ = Stage.staging := hstage
  change finalize codecs time options ⟨region, blockSize, tree, .staging⟩ = _
  unfold finalize
  rw [hcodec]
  dsimp only
  dsimp only at hwrite
  rw [hwrite]
  rcases result with error | ⟨⟩
  · cases error <;> rfl
  · rfl

theorem finalize_eq_of_not_codec (hstage : builder.stage = .staging) (time : UInt32)
    (hcodec : ∀ codec, options.algorithm.codec codecs ≠ .ok codec) :
    (finalize codecs time options).run builder =
      (.error (.unsupported (.codec options.algorithm.name)), builder) := by
  obtain ⟨region, blockSize, tree, _⟩ := builder
  obtain rfl : _ = Stage.staging := hstage
  change finalize codecs time options ⟨region, blockSize, tree, .staging⟩ = _
  unfold finalize
  cases hfound : options.algorithm.codec codecs with
  | ok codec => exact absurd hfound (hcodec codec)
  | error error => rw [Algorithm.eq_of_codec_eq_error hfound]

theorem Stages.finalize_eq_ok (hstages : builder.Stages region blockSize)
    (hfinalize : (finalize codecs time options).run builder = (.ok (), last)) :
    ∃ codec, options.algorithm.codec codecs = .ok codec ∧
      (imageScript codec blockSize time builder.tree options).run region =
        (.ok (), last.region) := by
  obtain ⟨rfl, rfl, hstage, -⟩ := hstages
  cases hcodec : options.algorithm.codec codecs with
  | error error =>
      rw [finalize_eq_of_not_codec hstage time (by simp [hcodec])] at hfinalize
      cases hfinalize
  | ok codec =>
      refine ⟨codec, rfl, ?_⟩
      rcases hrun : (imageScript codec builder.blockSize time builder.tree options).run
        builder.region with ⟨result, written⟩
      obtain ⟨reached, -, heq⟩ := exists_finalize_eq hstage hcodec hrun
      rw [heq] at hfinalize
      cases hfinalize
      rfl

end Finalize

end Builder

end TreeImage
