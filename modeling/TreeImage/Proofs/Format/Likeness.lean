import TreeImage.Proofs.Format.Record
import TreeImage.Proofs.Format.Steps

namespace TreeImage

/-- Whether two results are related values or the same error. -/
inductive Alike {α β : Type} (Like : α → β → Prop) : Except Error α → Except Error β → Prop
  | error (error : Error) : Alike Like (.error error) (.error error)
  | ok {value : α} {twin : β} (hlike : Like value twin) : Alike Like (.ok value) (.ok twin)

namespace Alike

variable {α β γ δ : Type} {Like : α → β → Prop} {Next : γ → δ → Prop} {result : Except Error α}
  {twin : Except Error β}

theorem bind (halike : Alike Like result twin) {next : α → Except Error γ}
    {twinNext : β → Except Error δ}
    (hnext : ∀ value other, result = .ok value → Like value other →
      Alike Next (next value) (twinNext other)) :
    Alike Next (result >>= next) (twin >>= twinNext) := by
  cases halike with
  | error error => exact .error error
  | ok hlike => exact hnext _ _ rfl hlike

theorem of_eq {other : Except Error α} (hsame : other = result) :
    Alike (fun value twin => twin = value) result other := by
  subst hsame
  cases other with
  | error error => exact .error error
  | ok value => exact .ok rfl

theorem refuse {condition : Prop} [Decidable condition] {error : Error}
    {next : Unit → Except Error γ} {twinNext : Unit → Except Error δ}
    (hnext : ¬condition → Alike Next (next ()) (twinNext ())) :
    Alike Next (if condition then throw error >>= next else next ())
      (if condition then throw error >>= twinNext else twinNext ()) := by
  by_cases hcondition : condition
  · rw [if_pos hcondition, if_pos hcondition]
    exact .error error
  · rw [if_neg hcondition, if_neg hcondition]
    exact hnext hcondition

end Alike

namespace Format

/-- A relation between record sources that give the same bytes, however much is taken. -/
structure Likeness (σ τ : Type) [RecordSource σ] [RecordSource τ] where
  Like : σ → τ → Prop
  take_alike : ∀ {source : σ} {twin : τ} (count : Nat), Like source twin →
    Alike (fun taken other => taken.1 = other.1 ∧ Like taken.2 other.2)
      (RecordSource.take count source) (RecordSource.take count twin)

variable {σ τ α β : Type} [RecordSource σ] [RecordSource τ] {likeness : Likeness σ τ}

namespace Decoder

/-- Whether two steps give the same value from like sources and leave like sources, or fail with
the same error. -/
def Agrees (likeness : Likeness σ τ) (step : Decoder σ α) (twin : Decoder τ α) : Prop :=
  ∀ source other, likeness.Like source other →
    Alike (fun read twinRead => read.1 = twinRead.1 ∧ likeness.Like read.2 twinRead.2)
      (step source) (twin other)

theorem Agrees.pure (value : α) : Agrees likeness (pure value) (pure value) :=
  fun _ _ hlike => .ok ⟨rfl, hlike⟩

theorem Agrees.bind {step : Decoder σ α} {twin : Decoder τ α} {next : α → Decoder σ β}
    {twinNext : α → Decoder τ β} (hstep : Agrees likeness step twin)
    (hnext : ∀ value, Agrees likeness (next value) (twinNext value)) :
    Agrees likeness (step >>= next) (twin >>= twinNext) := by
  intro source other hlike
  refine Alike.bind (hstep source other hlike) ?_
  rintro ⟨value, rest⟩ ⟨_, twinRest⟩ - ⟨rfl, hrest⟩
  exact hnext value rest twinRest hrest

theorem agrees_throw (error : Error) :
    Agrees likeness (throw error : Decoder σ α) (throw error : Decoder τ α) :=
  fun _ _ _ => .error error

theorem agrees_bytes (count : Nat) : Agrees likeness (bytes count) (bytes count) :=
  fun _ _ hlike => likeness.take_alike count hlike

theorem Twins.agrees {step : Decoder σ α} {twin : Decoder τ α} (htwins : Twins True step twin) :
    Agrees likeness step twin := by
  induction htwins with
  | pure value => exact .pure value
  | bind _ _ hstep hnext => exact hstep.bind hnext
  | read count => exact agrees_bytes count
  | refuse damage => exact agrees_throw _
  | trap _ cause => exact agrees_throw _

end Decoder

/-- An inode is read alike from like sources. -/
theorem Inode.decode_agrees (blockSize : Nat) :
    Decoder.Agrees likeness (Inode.decode blockSize) (Inode.decode blockSize) :=
  (twins_decode fun _ => trivial).agrees

end Format

end TreeImage
