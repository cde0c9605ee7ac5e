import TreeImage.Proofs.Storage.Stream

namespace TreeImage

namespace Buffer

/-- Whether bytes were put down at an address and nothing else changed, but that zeros fill a gap
below them. -/
structure Receives (before after : Buffer) (address : Nat) (bytes : Bytes) : Prop where
  put : ∀ i < bytes.length, after.toList[address + i]? = bytes[i]?
  gap : bytes ≠ [] → ∀ i, before.size ≤ i → i < address → after.toList[i]? = some 0
  kept : ∀ i < before.size, i < address ∨ address + bytes.length ≤ i →
    after.toList[i]? = before.toList[i]?
  size_eq : after.size =
    if bytes = [] then before.size else max before.size (address + bytes.length)

variable {buffer : Buffer} {address : Nat} {bytes : Bytes}

theorem receives_overwrite (hne : bytes ≠ []) :
    buffer.Receives (buffer.overwrite address bytes) address bytes := by
  refine ⟨?_, ?_, ?_, ?_⟩
  · intro i hi
    rw [getElem?_overwrite_eq, if_neg (by omega), if_pos (by omega), Nat.add_sub_cancel_left]
  · intro _ i hgap hbefore
    rw [getElem?_overwrite_eq, if_pos hbefore,
      List.getElem?_eq_none (by rwa [Array.length_toList]), Option.getD_none]
  · intro i hheld haway
    exact getElem?_overwrite (haway.imp_left fun hbefore => ⟨hbefore, hheld⟩)
  · rw [if_neg hne, size_overwrite]

theorem receives_putAll (buffer : Buffer) (address : Nat) (bytes : Bytes) :
    buffer.Receives (buffer.putAll (addressed address bytes)) address bytes := by
  by_cases hnil : bytes = []
  · subst hnil
    exact ⟨fun i hi => absurd hi (Nat.not_lt_zero i), fun hne => absurd rfl hne,
      fun i _ _ => rfl, rfl⟩
  · rw [putAll_addressed _ _ hnil]
    exact receives_overwrite hnil

end Buffer

namespace Storage

/-- The storage with the same content that moves all it is asked to in one call. -/
def direct (storage : Storage) : Storage := { content := storage.content }

theorem direct_write {storage : Storage} {address : Nat} {bytes : Bytes}
    (hend : address + bytes.length < addressSpace) :
    ∃ stored, storage.direct.write address bytes = (.ok bytes.length, stored) ∧
      stored.content = storage.content.overwrite address bytes := by
  have haccepted : storage.direct.accepted address bytes.length = bytes.length :=
    Nat.min_self bytes.length
  unfold write
  rw [haccepted]
  simp only [direct, Option.isSome_none, Bool.false_eq_true, false_and, if_false,
    if_neg (Nat.not_le_of_lt hend), List.take_length]
  exact ⟨_, rfl, rfl⟩

end Storage

namespace Region

variable {region : Region} {offset count : Nat} {bytes : Bytes}

/-- A read inside the declared size gives what is held, or fails because that is too short. -/
theorem read_cases_of_check (hmoves : region.storage.Moves)
    (hend : region.start + offset + count ≤ addressSpace)
    (hcheck : region.check offset count = .ok ()) :
    region.read offset count = .ok (region.held offset count) ∧
        (region.held offset count).length = count ∨
      (region.held offset count).length < count ∧
        ∃ error, region.read offset count = .error (.io error) := by
  have hle : (region.held offset count).length ≤ count := List.length_take_le ..
  obtain ⟨made, hgather⟩ := hmoves.gather_eq_ok hend [] 0
  rw [List.nil_append] at hgather
  unfold read fetch
  rw [hcheck, Except.ok_bind, hgather, Except.ok_bind]
  by_cases hshort : (region.held offset count).length < count
  · exact .inr ⟨hshort, _, if_pos hshort⟩
  · exact .inl ⟨if_neg hshort, by omega⟩

/-- What a read and a write of some length at an offset do, against one call that moves everything
at once.  The calls of one transfer have different addresses, so that what a call moves may be
different for each of them. -/
structure Transfers (region : Region) (offset : Nat) (bytes : Bytes) : Prop where
  /-- A read succeeds if its range lies in the declared window and in the storage. -/
  read_iff : (∃ data, region.read offset bytes.length = .ok data) ↔
    region.Fits (offset, bytes) ∧ region.start + offset + bytes.length ≤ region.storage.size
  read_eq : ∀ data, region.read offset bytes.length = .ok data →
    data = region.storage.direct.read (region.start + offset) bytes.length
  /-- It fails only with an error of the storage. -/
  read_io : ∀ error, region.read offset bytes.length = .error error → ∃ cause, error = .io cause
  /-- A write succeeds if its range lies in the declared window and the storage accepts it. -/
  write_iff : (∃ last, (write offset bytes).run region = (.ok (), last)) ↔
    region.Fits (offset, bytes) ∧
      ∀ budget, region.storage.budget = some budget → bytes.length ≤ budget
  write_eq : ∀ last, (write offset bytes).run region = (.ok (), last) →
    ∃ stored, region.storage.direct.write (region.start + offset) bytes =
        (.ok bytes.length, stored) ∧ last.storage.content = stored.content
  /-- If the storage accepts only some bytes, the first ones are put down. -/
  stops : region.Fits (offset, bytes) →
    ∀ accepted, region.storage.budget = some accepted → accepted < bytes.length →
      ∃ error last, (write offset bytes).run region = (.error (.io error), last) ∧
        region.storage.content.Receives last.storage.content (region.start + offset)
          (bytes.take accepted)
  /-- Outside the declared window no call is made: whatever the storage is, a read fails in the
  same way, and a write leaves the storage with its number of calls. -/
  outside : ¬region.Fits (offset, bytes) →
    ∃ error, (∀ storage,
        { region with storage }.read offset bytes.length = .error (.io error)) ∧
      (write offset bytes).run region = (.error (.io error), region)

section Reading

variable (hmoves : region.storage.Moves) (hne : bytes ≠ [])
  (hend : region.start + offset + bytes.length < addressSpace)
include hmoves hend

theorem io_of_read_eq_error {error : Error}
    (hread : region.read offset bytes.length = .error error) : ∃ cause, error = .io cause := by
  rcases region.check_cases offset bytes with ⟨-, hcheck⟩ | ⟨-, cause, hcheck⟩
  · rcases read_cases_of_check hmoves (Nat.le_of_lt hend) hcheck with
      ⟨hheld, -⟩ | ⟨-, cause, hshort⟩
    · cases hheld.symm.trans hread
    · exact ⟨cause, Except.error.inj (hread.symm.trans hshort)⟩
  · rw [read, fetch, hcheck] at hread
    exact ⟨cause, (Except.error.inj hread).symm⟩

theorem eq_direct_read_of_read {data : Bytes}
    (hread : region.read offset bytes.length = .ok data) :
    region.Fits (offset, bytes) ∧ data.length = bytes.length ∧
      data = region.storage.direct.read (region.start + offset) bytes.length := by
  have hdirect : region.storage.direct.read (region.start + offset) bytes.length =
      region.held offset bytes.length := by
    rw [Storage.read, Buffer.toList_slice]
    exact congrArg (List.take · _) (Nat.min_self bytes.length)
  rcases region.check_cases offset bytes with ⟨hfits, hcheck⟩ | ⟨-, cause, hcheck⟩
  · rcases read_cases_of_check hmoves (Nat.le_of_lt hend) hcheck with
      ⟨hheld, hlength⟩ | ⟨-, cause, hshort⟩
    · obtain rfl := Except.ok.inj (hheld.symm.trans hread)
      exact ⟨hfits, hlength, hdirect.symm⟩
    · cases hshort.symm.trans hread
  · rw [read, fetch, hcheck] at hread
    cases hread

include hne

theorem exists_read_iff :
    (∃ data, region.read offset bytes.length = .ok data) ↔
      region.Fits (offset, bytes) ∧ region.start + offset + bytes.length ≤ region.storage.size := by
  have hpositive := List.length_pos_iff.mpr hne
  constructor
  · rintro ⟨data, hread⟩
    obtain ⟨hfits, hlength, rfl⟩ := eq_direct_read_of_read hmoves hend hread
    refine ⟨hfits, ?_⟩
    rw [Storage.read, Buffer.toList_slice, List.length_take, List.length_drop,
      Array.length_toList] at hlength
    change min _ (region.storage.size - (region.start + offset)) = bytes.length at hlength
    omega
  · rintro ⟨hfits, hheld⟩
    rw [read_eq_held hmoves (by omega) (by omega), check_eq_ok.mpr hfits]
    exact ⟨_, rfl⟩

end Reading

theorem refused_of_not_fits (hpast : ¬region.Fits (offset, bytes)) :
    ∃ error, (∀ storage, { region with storage }.read offset bytes.length = .error (.io error)) ∧
      (write offset bytes).run region = (.error (.io error), region) := by
  rcases region.check_cases offset bytes with ⟨hfits, -⟩ | ⟨-, error, hcheck⟩
  · exact absurd hfits hpast
  · refine ⟨error, fun storage => ?_, ?_⟩
    · rw [read, fetch]
      exact congrArg (· >>= _ >>= _) hcheck
    · change write offset bytes region = _
      rw [write, hcheck]

/-- Transfers do not depend on how a storage cuts them up, if each call moves at least one byte. -/
theorem transfers_of_moves (hmoves : region.storage.Moves) (hne : bytes ≠ [])
    (hend : region.start + offset + bytes.length < addressSpace) :
    region.Transfers offset bytes := by
  obtain ⟨count, last, hcount, hput, hresult⟩ := write_cases hmoves fun _ => hend
  have htaken : ((addressed (region.start + offset) bytes).take count).length = count :=
    List.length_take_of_le (by rw [length_addressed]; exact hcount)
  refine ⟨exists_read_iff hmoves hne hend, ?_, fun _ => io_of_read_eq_error hmoves hend,
    ?_, ?_, ?_, refused_of_not_fits⟩
  · intro data hread
    exact (eq_direct_read_of_read hmoves hend hread).2.2
  · constructor
    · rintro ⟨written, hrun⟩
      rcases hresult with ⟨hdone, rfl, hfits⟩ | ⟨⟨error, hfailed⟩, -⟩
      · refine ⟨hfits, fun budget hbudget => ?_⟩
        have hle := hput.length_le budget hbudget
        rwa [htaken] at hle
      · exact nomatch (Prod.mk.inj (hfailed.symm.trans hrun)).1
    · rintro ⟨hfits, haccepts⟩
      rcases hresult with ⟨hdone, -⟩ | ⟨-, ⟨hpast, -⟩ | ⟨hbudget, hshort⟩⟩
      · exact ⟨last, hdone⟩
      · exact absurd hfits hpast
      · exact absurd (haccepts count hbudget) (Nat.not_le_of_lt hshort)
  · intro written hrun
    obtain ⟨stored, hdirect, hcontent⟩ := Storage.direct_write hend
    refine ⟨stored, hdirect, ?_⟩
    rcases hresult with ⟨hdone, rfl, -⟩ | ⟨⟨error, hfailed⟩, -⟩
    · obtain ⟨-, rfl⟩ := Prod.mk.inj (hdone.symm.trans hrun)
      rw [hcontent, hput.content_eq, ← length_addressed (region.start + offset) bytes,
        List.take_length, Buffer.putAll_addressed _ _ hne]
    · exact nomatch (Prod.mk.inj (hfailed.symm.trans hrun)).1
  · intro hfits accepted haccepted hshort
    rcases hresult with ⟨-, rfl, -⟩ | ⟨⟨error, hfailed⟩, ⟨hpast, -⟩ | ⟨hbudget, -⟩⟩
    · have hle := hput.length_le accepted haccepted
      rw [htaken] at hle
      exact absurd hle (Nat.not_le_of_lt hshort)
    · exact absurd hfits hpast
    · obtain rfl := Option.some.inj (haccepted.symm.trans hbudget)
      refine ⟨error, last, hfailed, ?_⟩
      rw [hput.content_eq, take_addressed]
      exact Buffer.receives_putAll ..

/-- A window of a storage that moves at most two bytes in one call and accepts three in all. -/
def limitedWindow : Region :=
  ⟨{ content := #[9, 8, 7, 6, 5], grant := fun _ count => min count 2, budget := some 3 }, 1,
    some 4⟩

theorem transfers_limitedWindow :
    limitedWindow.read 0 4 = .ok [8, 7, 6, 5] ∧
      ∃ error last, (write 0 [1, 2, 3, 4]).run limitedWindow = (.error (.io error), last) ∧
        last.storage.content.toList[3]? = some 3 ∧ last.storage.content.toList[4]? = some 5 := by
  have hmoves : limitedWindow.storage.Moves := by
    intro address count hpositive
    change 0 < min count 2
    omega
  have htransfers : limitedWindow.Transfers 0 [1, 2, 3, 4] :=
    transfers_of_moves hmoves (by simp) (show 1 + 0 + 4 < addressSpace by decide)
  have hfits : limitedWindow.Fits (0, [1, 2, 3, 4]) := by
    rintro _ ⟨⟩
    exact Nat.le_refl 4
  constructor
  · obtain ⟨data, hread⟩ := htransfers.read_iff.mpr ⟨hfits, Nat.le_refl 5⟩
    rw [htransfers.read_eq data hread] at hread
    exact hread
  · obtain ⟨error, last, hrun, hreceives⟩ := htransfers.stops hfits 3 rfl (by decide)
    exact ⟨error, last, hrun, hreceives.put 2 (by decide),
      hreceives.kept 4 (by decide) (.inr (by decide))⟩

end Region

end TreeImage
