import TreeImage.Error.Trapping
import TreeImage.Proofs.Format.Record

namespace TreeImage

/-- Whether an error is a fault. -/
def Error.IsFault : Error → Prop
  | .corruptTable _ | .io _ | .trap _ => True
  | _ => False

def Faults {α : Type} (result : Except Error α) : Prop :=
  ∀ error, result = .error error → error.IsFault

section

variable {α β : Type}

theorem Faults.ok (value : α) : Faults (.ok value : Except Error α) := nofun

theorem Faults.error {error : Error} (hfault : error.IsFault) :
    Faults (.error error : Except Error α) := by
  intro found hfound
  cases hfound
  exact hfault

theorem Faults.bind {result : Except Error α} {next : α → Except Error β}
    (hresult : Faults result) (hnext : ∀ value, result = .ok value → Faults (next value)) :
    Faults (result >>= next) := by
  cases result with
  | error error => exact Faults.error (hresult error rfl)
  | ok value => exact hnext value rfl

theorem Faults.map {result : Except Error α} (hresult : Faults result) (f : α → β) :
    Faults (result.map f) := by
  cases result with
  | error error => exact Faults.error (hresult error rfl)
  | ok value => exact Faults.ok _

theorem Faults.ite {condition : Prop} [Decidable condition] {yes no : Except Error α}
    (hyes : Faults yes) (hno : Faults no) : Faults (if condition then yes else no) := by
  split
  · exact hyes
  · exact hno

/-- A condition that is refused, and what comes after it. -/
theorem Faults.refuse {condition : Prop} [Decidable condition] {error : Error}
    {next : Unit → Except Error β} (hfault : error.IsFault) (hnext : Faults (next ())) :
    Faults (if condition then throw error >>= next else next ()) :=
  .ite (.error hfault) hnext

end

namespace Trapping

theorem add_faults (a b : Nat) : Faults (add a b) := .ite (.ok _) (.error trivial)

theorem sub_faults (a b : Nat) : Faults (sub a b) := .ite (.ok _) (.error trivial)

theorem slice_faults (bytes : Bytes) (start stop : Nat) : Faults (slice bytes start stop) :=
  .ite (.ok _) (.error trivial)

end Trapping

namespace Format

namespace Decoder

variable {σ α β : Type} {Safe : σ → Prop}

/-- Whether a step on a safe source fails only with a fault, and leaves a safe source. -/
def Faults (Safe : σ → Prop) (step : Decoder σ α) : Prop :=
  ∀ source, Safe source → TreeImage.Faults (step source) ∧
    ∀ value last, step source = .ok (value, last) → Safe last

theorem Faults.pure (value : α) : Faults Safe (pure value) := by
  intro source hsafe
  refine ⟨.ok _, ?_⟩
  intro found last hfound
  cases hfound
  exact hsafe

theorem Faults.bind {step : Decoder σ α} {next : α → Decoder σ β} (hstep : Faults Safe step)
    (hnext : ∀ value, Faults Safe (next value)) : Faults Safe (step >>= next) := by
  intro source hsafe
  obtain ⟨hfaults, hkept⟩ := hstep source hsafe
  constructor
  · refine TreeImage.Faults.bind hfaults ?_
    intro found hfound
    exact (hnext found.1 found.2 (hkept _ _ hfound)).1
  · intro value last hvalue
    obtain ⟨middle, rest, hmiddle, hvalue⟩ := bind_eq_ok.mp hvalue
    exact (hnext middle rest (hkept _ _ hmiddle)).2 _ _ hvalue

theorem faults_damaged (damage : Damage) : Faults Safe (damaged damage : Decoder σ α) :=
  fun _ _ => ⟨.error trivial, nofun⟩

theorem Faults.ofExcept {result : Except Error α} (hresult : TreeImage.Faults result) :
    Faults Safe (liftM result : Decoder σ α) := by
  intro source hsafe
  cases result with
  | error error => exact ⟨.error (hresult error rfl), nofun⟩
  | ok value => exact Faults.pure value source hsafe

theorem faults_bytes (count : Nat) :
    Faults (fun _ => True) (bytes count : Decoder Bytes Bytes) := by
  intro source _
  refine ⟨?_, fun _ _ _ => trivial⟩
  change TreeImage.Faults (RecordSource.take count source)
  rw [take_bytes]
  exact .ite (.error trivial) (.ok _)

end Decoder

end Format

end TreeImage
