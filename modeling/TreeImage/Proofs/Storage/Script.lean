import TreeImage.Proofs.Storage.Stream

namespace TreeImage.Script

variable {α β : Type} {script : Script α} {next : α → Script β} {writes : List (Nat × Bytes)}

theorem bind_eq_of_ok {found : α} (hscript : script = ⟨writes, .ok found⟩) :
    script >>= next = ⟨writes ++ (next found).writes, (next found).outcome⟩ := by
  rw [hscript]
  rfl

theorem bind_eq_ok {value : β} : script >>= next = ⟨writes, .ok value⟩ ↔
    ∃ front found rest, script = ⟨front, .ok found⟩ ∧ next found = ⟨rest, .ok value⟩ ∧
      writes = front ++ rest := by
  rcases script with ⟨front, error | found⟩
  · constructor
    · rintro ⟨⟩
    · rintro ⟨_, _, _, ⟨⟩, -⟩
  · rw [bind_eq_of_ok rfl]
    constructor
    · intro hbind
      obtain ⟨hwrites, houtcome⟩ := Script.mk.inj hbind
      refine ⟨front, found, (next found).writes, rfl, ?_, hwrites.symm⟩
      rw [← houtcome]
    · rintro ⟨_, _, rest, ⟨⟩, hnext, rfl⟩
      rw [hnext]

theorem exists_outcome_bind (hscript : ∃ found, script.outcome = .ok found)
    (hnext : ∀ found, ∃ value, (next found).outcome = .ok value) :
    ∃ value, (script >>= next).outcome = .ok value := by
  obtain ⟨found, hfound⟩ := hscript
  obtain ⟨value, hvalue⟩ := hnext found
  have hok : script = ⟨script.writes, .ok found⟩ := by rw [← hfound]
  exact ⟨value, by rw [bind_eq_of_ok hok]; exact hvalue⟩

theorem write_bind (offset : Nat) (bytes : Bytes) (next : Unit → Script β) :
    write offset bytes >>= next = ⟨(offset, bytes) :: (next ()).writes, (next ()).outcome⟩ := rfl

theorem write_bind_eq_ok {offset : Nat} {bytes : Bytes} {next : Unit → Script β} {value : β} :
    write offset bytes >>= next = ⟨writes, .ok value⟩ ↔
      ∃ rest, next () = ⟨rest, .ok value⟩ ∧ writes = (offset, bytes) :: rest := by
  rw [write_bind]
  constructor
  · intro hwrite
    obtain ⟨hwrites, houtcome⟩ := Script.mk.inj hwrite
    refine ⟨(next ()).writes, ?_, hwrites.symm⟩
    rw [← houtcome]
  · rintro ⟨rest, hnext, rfl⟩
    rw [hnext]

theorem lift_eq_ok {result : Except Error α} {value : α} :
    (liftM result : Script α) = ⟨writes, .ok value⟩ ↔ result = .ok value ∧ writes = [] := by
  constructor
  · intro hlift
    obtain ⟨hwrites, houtcome⟩ := Script.mk.inj hlift
    exact ⟨houtcome, hwrites.symm⟩
  · rintro ⟨rfl, rfl⟩
    rfl

theorem eq_of_outcome {value : α} (houtcome : script.outcome = .ok value) :
    script = ⟨script.writes, .ok value⟩ := by
  rw [← houtcome]

section Run

variable {region last : Region}

theorem run_of_ok (hwrites : (script.writes.forM fun write => Region.write write.1 write.2).run
    region = (.ok (), last)) : script.run region = (script.outcome, last) :=
  Action.run_bind_of_ok hwrites

theorem run_of_error {error : Error}
    (hwrites : (script.writes.forM fun write => Region.write write.1 write.2).run region =
      (.error error, last)) : script.run region = (.error error, last) :=
  Action.run_bind_of_error hwrites

theorem run_eq_ok {value : α} : script.run region = (.ok value, last) ↔
    script.outcome = .ok value ∧
      (script.writes.forM fun write => Region.write write.1 write.2).run region =
        (.ok (), last) := by
  rcases hwrites : (script.writes.forM fun write => Region.write write.1 write.2).run region with
    ⟨error | ⟨⟩, middle⟩
  · rw [run_of_error hwrites]
    constructor
    · rintro ⟨⟩
    · rintro ⟨-, ⟨⟩⟩
  · rw [run_of_ok hwrites]
    constructor
    · intro hrun
      obtain ⟨houtcome, rfl⟩ := Prod.mk.inj hrun
      exact ⟨houtcome, rfl⟩
    · rintro ⟨houtcome, ⟨⟩⟩
      rw [houtcome]

/-- The writes of one script and then those of the next are made as those of both. -/
theorem run_bind (script : Script α) (next : α → Script β) :
    run (script >>= next) = run script >>= fun found => run (next found) := by
  funext region
  change (script >>= next).run region = (script.run >>= fun found => (next found).run).run region
  rcases script with ⟨front, outcome⟩
  rcases hfront : (front.forM fun write => Region.write write.1 write.2).run region with
    ⟨failed | ⟨⟩, middle⟩
  · have hleft : (Script.run ⟨front, outcome⟩).run region = (.error failed, middle) :=
      run_of_error hfront
    rw [Action.run_bind_of_error hleft]
    cases outcome with
    | error error => exact run_of_error hfront
    | ok found => exact run_of_error (Action.run_forM_append_of_error hfront _)
  · have hleft : (Script.run ⟨front, outcome⟩).run region = (outcome, middle) := run_of_ok hfront
    cases outcome with
    | error error =>
        rw [Action.run_bind_of_error hleft]
        exact run_of_ok hfront
    | ok found =>
        rw [Action.run_bind_of_ok hleft]
        have hboth := Action.run_forM_append_of_ok hfront (next found).writes
        rcases hrest : ((next found).writes.forM fun write => Region.write write.1 write.2).run
          middle with ⟨failed | ⟨⟩, last⟩
        · exact (run_of_error (hboth.trans hrest)).trans (run_of_error hrest).symm
        · exact (run_of_ok (hboth.trans hrest)).trans (run_of_ok hrest).symm

/-- Whether 64 bits can name all bytes that a script writes to a window that starts at `start`. -/
def HasAddresses (start : Nat) (script : Script α) : Prop :=
  ∀ write ∈ script.writes, write.2 ≠ [] → start + write.1 + write.2.length < addressSpace

theorem exists_run_eq (hmoves : region.storage.Moves) (hdeclared : region.declared = none)
    (hbudget : region.storage.budget = none) (haddresses : script.HasAddresses region.start) :
    ∃ last, script.run region = (script.outcome, last) := by
  obtain ⟨_, last, -, -, hresult⟩ := Region.writes_cases hmoves haddresses
  rcases hresult with ⟨hwrites, -⟩ | ⟨-, ⟨write, -, hout⟩ | ⟨hspent, -⟩⟩
  · exact ⟨last, run_of_ok hwrites⟩
  · exact absurd (fun size hsome => nomatch hdeclared.symm.trans hsome) hout
  · exact nomatch hbudget.symm.trans hspent

end Run

end TreeImage.Script
