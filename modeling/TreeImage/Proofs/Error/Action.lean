import TreeImage.Error.Basic

namespace TreeImage

theorem Except.bind_eq_ok {ε α β : Type} {x : Except ε α} {f : α → Except ε β} {b : β} :
    x >>= f = .ok b ↔ ∃ a, x = .ok a ∧ f a = .ok b := by
  cases x <;> simp [bind, Except.bind]

@[simp] theorem Except.ok_bind {ε α β : Type} (a : α) (f : α → Except ε β) :
    (Except.ok a >>= f : Except ε β) = f a := rfl

@[simp] theorem Except.error_bind {ε α β : Type} (error : ε) (f : α → Except ε β) :
    (Except.error error >>= f : Except ε β) = .error error := rfl

/-- What comes after a condition that is refused. -/
theorem Except.refuse_eq_ok {ε β : Type} {condition : Prop} [Decidable condition] {error : ε}
    {next : Unit → Except ε β} {b : β} :
    (if condition then throw error >>= next else next ()) = .ok b ↔
      ¬condition ∧ next () = .ok b := by
  by_cases hcondition : condition
  · rw [if_pos hcondition]
    constructor
    · intro h
      cases h
    · intro h
      exact absurd hcondition h.1
  · rw [if_neg hcondition]
    simp [hcondition]

theorem Except.bind_congr_of_ok {ε α β : Type} {x : Except ε α} {f g : α → Except ε β}
    (hsame : ∀ a, x = .ok a → f a = g a) : x >>= f = x >>= g := by
  cases x with
  | error error => rfl
  | ok a => exact hsame a rfl

theorem Except.refuse_congr {ε β : Type} {condition : Prop} [Decidable condition] {error : ε}
    {next other : Unit → Except ε β} (hsame : ¬condition → next () = other ()) :
    (if condition then throw error >>= next else next ()) =
      if condition then throw error >>= other else other () := by
  by_cases hcondition : condition
  · rw [if_pos hcondition, if_pos hcondition]
    rfl
  · rw [if_neg hcondition, if_neg hcondition, hsame hcondition]

theorem Except.eq_ok_of_toOption {ε α : Type} {x : Except ε α} {a : α}
    (hx : x.toOption = some a) : x = .ok a := by
  cases x with
  | error error => cases hx
  | ok found =>
      cases hx
      rfl

theorem Except.exists_eq_error_of_toOption {ε α : Type} {x : Except ε α} (hx : x.toOption = none) :
    ∃ error, x = .error error := by
  cases x with
  | error error => exact ⟨error, rfl⟩
  | ok found => cases hx

theorem Except.mapError_ok {ε ε' α : Type} (f : ε → ε') (a : α) :
    (Except.ok a : Except ε α).mapError f = .ok a := rfl

theorem Except.mapError_eq_ok {ε ε' α : Type} {x : Except ε α} {f : ε → ε'} {a : α} :
    x.mapError f = .ok a ↔ x = .ok a := by
  cases x with
  | error cause =>
      constructor
      · rintro ⟨⟩
      · rintro ⟨⟩
  | ok found =>
      constructor
      · rintro ⟨⟩
        rfl
      · rintro ⟨⟩
        rfl

theorem Except.mapError_eq_error {ε ε' α : Type} {x : Except ε α} {f : ε → ε'} {error : ε'} :
    x.mapError f = .error error ↔ ∃ cause, x = .error cause ∧ error = f cause := by
  cases x with
  | error cause =>
      constructor
      · rintro ⟨⟩
        exact ⟨cause, rfl, rfl⟩
      · rintro ⟨_, ⟨⟩, rfl⟩
        rfl
  | ok found =>
      constructor
      · rintro ⟨⟩
      · rintro ⟨_, ⟨⟩, -⟩

namespace Action

variable {σ α β : Type} {step : Action σ α} {next : α → Action σ β} {state last : σ}

theorem run_bind_of_ok {value : α} (hstep : step.run state = (.ok value, last)) :
    (step >>= next).run state = (next value).run last := by
  simp only [bind, ExceptT.bind, ExceptT.mk, ExceptT.run, StateT.bind] at hstep ⊢
  rw [hstep]
  rfl

theorem run_bind_of_error {error : Error} (hstep : step.run state = (.error error, last)) :
    (step >>= next).run state = (.error error, last) := by
  simp only [bind, ExceptT.bind, ExceptT.mk, ExceptT.run, StateT.bind] at hstep ⊢
  rw [hstep]
  rfl

theorem run_bind_eq_ok {value : β} :
    (step >>= next).run state = (.ok value, last) ↔
      ∃ found middle, step.run state = (.ok found, middle) ∧
        (next found).run middle = (.ok value, last) := by
  constructor
  · intro hrun
    rcases hstep : step.run state with ⟨error | found, middle⟩
    · rw [run_bind_of_error hstep] at hrun
      cases hrun
    · rw [run_bind_of_ok hstep] at hrun
      exact ⟨found, middle, rfl, hrun⟩
  · rintro ⟨found, middle, hstep, hnext⟩
    rw [run_bind_of_ok hstep, hnext]

theorem run_lift (result : Except Error α) (state : σ) :
    (liftM result : Action σ α).run state = (result, state) := rfl

theorem run_get (state : σ) : (get : Action σ σ).run state = (.ok state, state) := rfl

/-- What holds of the state and of what was gathered from it goes on along a list, if every step
that ends well keeps it. -/
theorem run_foldlM_invariant {ι : Type} {f : α → ι → Action σ α}
    {motive : List ι → α → σ → Prop} {rest : List ι}
    (hstep : ∀ done gathered item state found last, item ∈ rest → motive done gathered state →
      (f gathered item).run state = (.ok found, last) → motive (done ++ [item]) found last)
    {done : List ι} {gathered found : α} (hstart : motive done gathered state)
    (hrun : (rest.foldlM f gathered).run state = (.ok found, last)) :
    motive (done ++ rest) found last := by
  induction rest generalizing done gathered state with
  | nil =>
      cases hrun
      rwa [List.append_nil]
  | cons item rest ih =>
      obtain ⟨next, middle, hfirst, hrest⟩ := run_bind_eq_ok.mp hrun
      have hnext := hstep done gathered item state next middle List.mem_cons_self hstart hfirst
      have hlast := ih (fun done gathered item state found last hmem =>
        hstep done gathered item state found last (List.mem_cons_of_mem _ hmem)) hnext hrest
      rwa [List.append_assoc, List.singleton_append] at hlast

theorem run_foldlM_concat {ι : Type} {f : α → ι → Action σ α} {front : List ι} {item : ι}
    {gathered found : α}
    (hrun : ((front ++ [item]).foldlM f gathered).run state = (.ok found, last)) :
    ∃ next middle, (front.foldlM f gathered).run state = (.ok next, middle) ∧
      (f next item).run middle = (.ok found, last) := by
  rw [List.foldlM_append] at hrun
  obtain ⟨next, middle, hfront, hitem⟩ := run_bind_eq_ok.mp hrun
  rw [List.foldlM_cons] at hitem
  obtain ⟨value, ending, hitem, hnil⟩ := run_bind_eq_ok.mp hitem
  cases hnil
  exact ⟨next, middle, hfront, hitem⟩

theorem run_mapM_cons {ι : Type} {f : ι → Action σ α} {item : ι} {rest : List ι}
    {values : List α} (hrun : ((item :: rest).mapM f).run state = (.ok values, last)) :
    ∃ value others middle, (f item).run state = (.ok value, middle) ∧
      (rest.mapM f).run middle = (.ok others, last) ∧ values = value :: others := by
  rw [List.mapM_cons] at hrun
  obtain ⟨value, middle, hitem, hrun⟩ := run_bind_eq_ok.mp hrun
  obtain ⟨others, ending, hrest, hpure⟩ := run_bind_eq_ok.mp hrun
  cases hpure
  exact ⟨value, others, middle, hitem, hrest, rfl⟩

theorem run_forM_invariant {ι : Type} {f : ι → Action σ PUnit} {motive : List ι → σ → Prop}
    {rest : List ι}
    (hstep : ∀ done item state last, item ∈ rest → motive done state →
      (f item).run state = (.ok ⟨⟩, last) → motive (done ++ [item]) last)
    {done : List ι} (hstart : motive done state)
    (hrun : (rest.forM f).run state = (.ok ⟨⟩, last)) : motive (done ++ rest) last := by
  induction rest generalizing done state with
  | nil =>
      cases hrun
      rwa [List.append_nil]
  | cons item rest ih =>
      obtain ⟨⟨⟩, middle, hfirst, hrest⟩ := run_bind_eq_ok.mp hrun
      have hnext := hstep done item state middle List.mem_cons_self hstart hfirst
      have hlast := ih (fun done item state last hmem =>
        hstep done item state last (List.mem_cons_of_mem _ hmem)) hnext hrest
      rwa [List.append_assoc, List.singleton_append] at hlast

theorem run_forM_append {ι : Type} {f : ι → Action σ PUnit} {front rest : List ι}
    (hrun : ((front ++ rest).forM f).run state = (.ok ⟨⟩, last)) :
    ∃ middle, (front.forM f).run state = (.ok ⟨⟩, middle) ∧
      (rest.forM f).run middle = (.ok ⟨⟩, last) := by
  induction front generalizing state with
  | nil => exact ⟨state, rfl, hrun⟩
  | cons first front ih =>
      obtain ⟨⟨⟩, next, hfirst, hnext⟩ := run_bind_eq_ok.mp hrun
      obtain ⟨middle, hfront, hrest⟩ := ih hnext
      exact ⟨middle, run_bind_eq_ok.mpr ⟨⟨⟩, next, hfirst, hfront⟩, hrest⟩

theorem run_forM_append_of_ok {ι : Type} {f : ι → Action σ PUnit} {front : List ι}
    (hfront : (front.forM f).run state = (.ok ⟨⟩, last)) (rest : List ι) :
    ((front ++ rest).forM f).run state = (rest.forM f).run last := by
  induction front generalizing state with
  | nil =>
      cases hfront
      rfl
  | cons first front ih =>
      obtain ⟨⟨⟩, next, hfirst, hnext⟩ := run_bind_eq_ok.mp hfront
      exact (run_bind_of_ok hfirst).trans (ih hnext)

theorem run_forM_append_of_error {ι : Type} {f : ι → Action σ PUnit} {front : List ι}
    {error : Error} (hfront : (front.forM f).run state = (.error error, last)) (rest : List ι) :
    ((front ++ rest).forM f).run state = (.error error, last) := by
  induction front generalizing state with
  | nil => cases hfront
  | cons first front ih =>
      rcases hfirst : (f first).run state with ⟨failed | ⟨⟩, next⟩
      · rw [List.forM, run_bind_of_error hfirst] at hfront
        cases hfront
        exact run_bind_of_error hfirst
      · rw [List.forM, run_bind_of_ok hfirst] at hfront
        exact (run_bind_of_ok hfirst).trans (ih hfront)

def Succeeds (step : Action σ α) : Prop := ∀ state, ∃ value last, step.run state = (.ok value, last)

theorem Succeeds.bind (hstep : Succeeds step) (hnext : ∀ value, Succeeds (next value)) :
    Succeeds (step >>= next) := by
  intro state
  obtain ⟨found, middle, hfound⟩ := hstep state
  obtain ⟨value, last, hvalue⟩ := hnext found middle
  exact ⟨value, last, run_bind_eq_ok.mpr ⟨found, middle, hfound, hvalue⟩⟩

theorem succeeds_pure (value : α) : Succeeds (pure value : Action σ α) :=
  fun state => ⟨value, state, rfl⟩

theorem succeeds_foldlM {ι : Type} {f : α → ι → Action σ α}
    (hstep : ∀ gathered item, Succeeds (f gathered item)) (items : List ι) (gathered : α) :
    Succeeds (items.foldlM f gathered) := by
  induction items generalizing gathered with
  | nil => exact succeeds_pure gathered
  | cons item items ih => exact (hstep gathered item).bind ih

theorem succeeds_forM {ι : Type} {f : ι → Action σ PUnit} (hstep : ∀ item, Succeeds (f item))
    (items : List ι) : Succeeds (items.forM f) := by
  induction items with
  | nil => exact succeeds_pure PUnit.unit
  | cons item items ih => exact (hstep item).bind fun _ => ih

end Action

end TreeImage
