import TreeImage.Proofs.Format.Record

namespace TreeImage

/-- Whether an error is a report. -/
def Error.IsReport (storageFails : Prop) : Error → Prop
  | .trap _ => False
  | .io _ => storageFails
  | _ => True

def Reports {α : Type} (storageFails : Prop) (result : Except Error α) : Prop :=
  ∀ error, result = .error error → error.IsReport storageFails

section

variable {α β : Type} {storageFails : Prop}

theorem Reports.ok (value : α) : Reports storageFails (.ok value : Except Error α) := by
  intro error herror
  cases herror

theorem Reports.of_eq_ok {result : Except Error α} {value : α} (hresult : result = .ok value) :
    Reports storageFails result := hresult ▸ Reports.ok value

theorem Reports.error {error : Error} (hreport : error.IsReport storageFails) :
    Reports storageFails (.error error : Except Error α) := by
  intro found hfound
  cases hfound
  exact hreport

theorem Reports.bind {result : Except Error α} {next : α → Except Error β}
    (hresult : Reports storageFails result)
    (hnext : ∀ value, result = .ok value → Reports storageFails (next value)) :
    Reports storageFails (result >>= next) := by
  cases result with
  | error error => exact Reports.error (hresult error rfl)
  | ok value => exact hnext value rfl

/-- A condition that is refused with a report, and what comes after it. -/
theorem Reports.refuse {condition : Prop} [Decidable condition] {error : Error}
    {next : Unit → Except Error β} (hreport : error.IsReport storageFails)
    (hnext : ¬condition → Reports storageFails (next ())) :
    Reports storageFails (if condition then throw error >>= next else next ()) := by
  by_cases hcondition : condition
  · rw [if_pos hcondition]
    exact Reports.error hreport
  · rw [if_neg hcondition]
    exact hnext hcondition

theorem Reports.map {result : Except Error α} (hresult : Reports storageFails result)
    (f : α → β) : Reports storageFails (result.map f) := by
  cases result with
  | error error => exact Reports.error (hresult error rfl)
  | ok value => exact Reports.ok _

end

namespace Format

/-- What keeps a record source from failing with anything but a report, however much is taken. -/
structure Guard (σ : Type) [RecordSource σ] (storageFails : Prop) where
  Safe : σ → Prop
  take_reports : ∀ {source : σ} (count : Nat), Safe source →
    Reports storageFails (RecordSource.take count source)
  safe_of_take : ∀ {source last : σ} {count : Nat} {taken : Bytes}, Safe source →
    RecordSource.take count source = .ok (taken, last) → Safe last

/-- A byte string is never at fault for more than its end. -/
def Guard.ofBytes (storageFails : Prop) : Guard Bytes storageFails where
  Safe _ := True
  take_reports count _ := by
    rw [take_bytes]
    split
    · exact Reports.error trivial
    · exact Reports.ok _
  safe_of_take _ _ := trivial

variable {σ α β : Type} [RecordSource σ] {storageFails : Prop}

/-- Whether a step fails only with a report, and leaves a source of which the same holds. -/
def Decoder.Reports (guard : Guard σ storageFails) (step : Decoder σ α) : Prop :=
  ∀ source, guard.Safe source → TreeImage.Reports storageFails (step source) ∧
    ∀ value last, step source = .ok (value, last) → guard.Safe last

namespace Decoder

variable {guard : Guard σ storageFails}

theorem Reports.pure (value : α) : Reports guard (pure value) := by
  intro source hsafe
  refine ⟨TreeImage.Reports.ok _, ?_⟩
  intro found last hfound
  cases hfound
  exact hsafe

theorem Reports.bind {step : Decoder σ α} {next : α → Decoder σ β}
    (hstep : Reports guard step) (hnext : ∀ value, Reports guard (next value)) :
    Reports guard (step >>= next) := by
  intro source hsafe
  obtain ⟨hreports, hkept⟩ := hstep source hsafe
  constructor
  · refine TreeImage.Reports.bind hreports ?_
    intro found hfound
    exact (hnext found.1 found.2 (hkept found.1 found.2 hfound)).1
  · intro value last hvalue
    obtain ⟨middle, rest, hmiddle, hvalue⟩ := bind_eq_ok.mp hvalue
    exact (hnext middle rest (hkept _ _ hmiddle)).2 _ _ hvalue

theorem reports_throw {error : Error} (hreport : error.IsReport storageFails) :
    Reports guard (throw error : Decoder σ α) := by
  intro source _
  refine ⟨TreeImage.Reports.error hreport, ?_⟩
  intro found last hfound
  cases hfound

theorem reports_damaged (damage : Damage) : Reports guard (damaged damage : Decoder σ α) :=
  reports_throw trivial

theorem reports_bytes (count : Nat) : Reports guard (bytes count) :=
  fun _ hsafe => ⟨guard.take_reports count hsafe, fun _ _ htake => guard.safe_of_take hsafe htake⟩

end Decoder

end Format

end TreeImage
