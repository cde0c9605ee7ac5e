import TreeImage.Proofs.Image.RoundTrip

/-!
The life of a builder.  Calls of a builder and of the handles of its files come in any order.  None
but the one that writes the image touches the storage.  When that has ended, well or with an error,
every call after it is refused and changes nothing; but a trap may leave the builder staging.
-/

namespace TreeImage

open Build Format Staging

namespace Builder

/-- The calls that stage something, with the values they are given.  Handles are kept in slots. -/
inductive StagingCall
  | mkdir (path : String)
  | openFile (path : String) (create : Bool) (slot : Nat)
  | write (slot : Nat) (bytes : Bytes)
  | putFile (path : String) (bytes : Bytes)
  | symlink (target path : String)
  | setPermissions (path : String) (mode : UInt16)
  | setOwner (path : String) (uid gid : UInt32)
  | setMtime (path : String) (mtime : UInt32)

inductive Operation
  | stage (call : StagingCall)
  | seek (slot position : Nat)
  | close (slot : Nat)
  | finalize (time : UInt32) (options : Options)

inductive Reply
  | done
  | wrote (count : Nat)

/-- A builder, and a handle in every slot. -/
structure Bench where
  builder : Builder
  handles : Nat → FileHandle

namespace Bench

def put (bench : Bench) (slot : Nat) (handle : FileHandle) : Bench :=
  { bench with handles := fun other => if other = slot then handle else bench.handles other }

def onBuilder (bench : Bench) (step : Action Builder Unit) : Except Error Reply × Bench :=
  match step.run bench.builder with
  | (result, builder) => (result.map fun _ => .done, { bench with builder })

def stage (bench : Bench) : StagingCall → Except Error Reply × Bench
  | .mkdir path => bench.onBuilder (Builder.mkdir path)
  | .openFile path create slot =>
      match (Builder.openFile path create).run bench.builder with
      | (.error error, builder) => (.error error, { bench with builder })
      | (.ok handle, builder) => (.ok .done, ({ bench with builder } : Bench).put slot handle)
  | .write slot bytes =>
      match (Builder.write bytes).run (bench.handles slot, bench.builder) with
      | (result, handle, builder) =>
          (result.map .wrote, ({ bench with builder } : Bench).put slot handle)
  | .putFile path bytes => bench.onBuilder (Builder.putFile path bytes)
  | .symlink target path => bench.onBuilder (Builder.symlink target path)
  | .setPermissions path mode => bench.onBuilder (Builder.setPermissions path mode)
  | .setOwner path uid gid => bench.onBuilder (Builder.setOwner path uid gid)
  | .setMtime path mtime => bench.onBuilder (Builder.setMtime path mtime)

def perform (codecs : Codecs) (bench : Bench) : Operation → Except Error Reply × Bench
  | .stage call => bench.stage call
  | .seek slot position => (.ok .done, bench.put slot ((bench.handles slot).seek position))
  | .close slot => (.ok .done, bench.put slot (bench.handles slot).close)
  | .finalize time options => bench.onBuilder (Builder.finalize codecs time options)

def performAll (codecs : Codecs) (bench : Bench) (operations : List Operation) : Bench :=
  operations.foldl (fun bench operation => (bench.perform codecs operation).2) bench

variable {bench : Bench}

end Bench

section Refused

variable {builder : Builder} {α β : Type}

/-- Whether a step is refused by a builder that takes no edits, and leaves it as it is. -/
def Refused (step : Action Builder α) : Prop :=
  ∀ builder : Builder, builder.stage ≠ .staging →
    step.run builder = (.error .alreadyFinalized, builder)

theorem Refused.bind {step : Action Builder α} (hstep : Refused step)
    (next : α → Action Builder β) : Refused (step >>= next) := by
  intro builder hstage
  exact Action.run_bind_of_error (hstep builder hstage)

theorem Refused.onBuilder {step : Action Builder Unit} (hstep : Refused step) {bench : Bench}
    (hstage : bench.builder.stage ≠ .staging) :
    bench.onBuilder step = (.error .alreadyFinalized, bench) := by
  rw [Bench.onBuilder, hstep bench.builder hstage]
  rfl

end Refused

section KeepsStorage

variable {α β : Type}

/-- Whether a step leaves the storage and the stage of every builder as they are. -/
def KeepsStorage (step : Action Builder α) : Prop :=
  ∀ builder : Builder, (step.run builder).2.region = builder.region ∧
    (step.run builder).2.stage = builder.stage

theorem KeepsStorage.bind {step : Action Builder α} {next : α → Action Builder β}
    (hstep : KeepsStorage step) (hnext : ∀ value, KeepsStorage (next value)) :
    KeepsStorage (step >>= next) := by
  intro builder
  obtain ⟨hregion, hstage⟩ := hstep builder
  rcases hrun : step.run builder with ⟨error | value, middle⟩
  · rw [hrun] at hregion hstage
    rw [Action.run_bind_of_error hrun]
    exact ⟨hregion, hstage⟩
  · rw [hrun] at hregion hstage
    rw [Action.run_bind_of_ok hrun]
    obtain ⟨hlast, hlastStage⟩ := hnext value middle
    exact ⟨hlast.trans hregion, hlastStage.trans hstage⟩

end KeepsStorage

namespace Bench

variable {codecs : Codecs} {bench : Bench}

end Bench

def rawOptions : Options := { rawInodes := true, rawData := true, rawFragments := true }

end Builder

end TreeImage
