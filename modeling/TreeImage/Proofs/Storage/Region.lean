import TreeImage.Proofs.Format.Record
import TreeImage.Storage.Region

namespace TreeImage

namespace Storage

/-- A storage in memory: one call moves all it is asked to, and no more than half of all addresses
are in use. -/
structure InMemory (storage : Storage) : Prop where
  moves : ∀ address count, storage.grant address count = count
  size_lt : 2 * storage.size < addressSpace

theorem inMemory_ofBytes {content : Bytes} (hcontent : 2 * content.length < addressSpace) :
    (ofBytes content).InMemory :=
  ⟨fun _ _ => rfl, by simpa [ofBytes, size] using hcontent⟩

variable {storage : Storage}

theorem InMemory.read_eq (hmemory : storage.InMemory) (address count : Nat) :
    storage.read address count = (storage.content.toList.drop address).take count := by
  rw [read, hmemory.moves, Nat.min_self, Buffer.toList_slice]

theorem InMemory.gather_eq_ok (hmemory : storage.InMemory) (count address : Nat)
    (haddress : count ≠ 0 → address < addressSpace) (got : Bytes) (calls : Nat) :
    ∃ made, storage.gather address count got calls =
      .ok ⟨got ++ (storage.content.toList.drop address).take count, made⟩ := by
  induction count using Nat.strongRecOn generalizing address got calls with
  | _ count ih =>
      rw [gather]
      by_cases hcount : count = 0
      · exact ⟨calls, by simp [hcount]⟩
      · have hlt := haddress hcount
        rw [if_neg hcount, if_neg (by omega)]
        simp only [hmemory.read_eq]
        generalize hpart : (storage.content.toList.drop address).take count = part
        have hlength := congrArg List.length hpart
        rw [List.length_take, List.length_drop] at hlength
        have hsize : 2 * storage.content.toList.length < addressSpace := by
          rw [Array.length_toList]
          exact hmemory.size_lt
        by_cases hnil : part = []
        · exact ⟨calls + 1, by simp [hnil]⟩
        · have hpositive := List.length_pos_iff.mpr hnil
          obtain ⟨made, hrest⟩ := ih (count - part.length) (by omega)
            (address + part.length) (fun _ => by omega) (got ++ part) (calls + 1)
          refine ⟨made, ?_⟩
          rw [if_neg hnil, hrest]
          -- either the part is all that was asked for, or nothing is held after it
          have hnone : ((storage.content.toList.drop (address + part.length)).take
              (count - part.length)) = [] := by
            rw [← List.length_eq_zero_iff, List.length_take, List.length_drop]
            omega
          rw [hnone, List.append_nil]

theorem length_le_of_gather {storage : Storage} {address count calls : Nat} {got : Bytes}
    {transfer : Transfer} (hgather : storage.gather address count got calls = .ok transfer) :
    transfer.bytes.length ≤ got.length + count := by
  induction count using Nat.strongRecOn generalizing address got calls with
  | _ count ih =>
      rw [gather] at hgather
      by_cases hcount : count = 0
      · rw [if_pos hcount] at hgather
        cases hgather
        exact Nat.le_add_right _ _
      · have hlength : (storage.read address count).length ≤ count := by
          rw [read, Buffer.toList_slice, List.length_take]
          omega
        rw [if_neg hcount] at hgather
        by_cases hpast : addressSpace ≤ address
        · rw [if_pos hpast] at hgather
          cases hgather
        rw [if_neg hpast] at hgather
        by_cases hnil : storage.read address count = []
        · simp only [if_pos hnil] at hgather
          cases hgather
          exact Nat.le_add_right _ _
        · have hpositive := List.length_pos_iff.mpr hnil
          simp only [if_neg hnil] at hgather
          have hrest := ih (count - (storage.read address count).length) (by omega) hgather
          rw [List.length_append] at hrest
          omega

/-- Whether each call moves at least one of the bytes it is asked to move. -/
def Moves (storage : Storage) : Prop :=
  ∀ address count, 0 < count → 0 < storage.grant address count

theorem InMemory.toMoves {storage : Storage} (hmemory : storage.InMemory) : storage.Moves := by
  intro address count hcount
  rwa [hmemory.moves]

/-- Repeated calls give what is held, up to the count that is asked for, however few a call
moves. -/
theorem Moves.gather_eq_ok {storage : Storage} (hmoves : storage.Moves) {address count : Nat}
    (hend : address + count ≤ addressSpace) (got : Bytes) (calls : Nat) :
    ∃ made, storage.gather address count got calls =
      .ok ⟨got ++ (storage.content.toList.drop address).take count, made⟩ := by
  induction count using Nat.strongRecOn generalizing address got calls with
  | _ count ih =>
      rw [gather]
      by_cases hcount : count = 0
      · exact ⟨calls, by simp [hcount]⟩
      · have hgrant := hmoves address count (Nat.pos_of_ne_zero hcount)
        have hread : storage.read address count = (storage.content.toList.drop address).take
            (min (storage.grant address count) count) := Buffer.toList_slice ..
        have hprefix : storage.read address count <+: storage.content.toList.drop address := by
          rw [hread]
          exact List.take_prefix ..
        have hlength : (storage.read address count).length ≤ count := by
          rw [hread]
          exact Nat.le_trans (List.length_take_le ..) (Nat.min_le_right _ _)
        rw [if_neg hcount, if_neg (by omega)]
        by_cases hnil : storage.read address count = []
        -- a call gives nothing only where nothing is held
        · have hnone : storage.content.toList.drop address = [] := by
            rw [hread, List.take_eq_nil_iff] at hnil
            exact hnil.resolve_left (by omega)
          exact ⟨calls + 1, by simp [hnil, hnone]⟩
        · have hpositive := List.length_pos_iff.mpr hnil
          simp only [if_neg hnil]
          obtain ⟨made, hrest⟩ := ih (count - (storage.read address count).length) (by omega)
            (show address + (storage.read address count).length + _ ≤ _ by omega)
            (got ++ storage.read address count) (calls + 1)
          obtain ⟨later, hheld⟩ := hprefix
          refine ⟨made, ?_⟩
          rw [hrest, List.append_assoc, ← List.drop_drop, ← hheld, List.drop_left,
            List.take_append, List.take_of_length_le hlength]

end Storage

namespace Region

/-- A window of memory, whose end is an address if it is declared. -/
structure InMemory (region : Region) : Prop where
  storage : region.storage.InMemory
  declared_lt : ∀ size, region.declared = some size → region.start + size < addressSpace

theorem declared_ofStorage (storage : Storage) (start size : Nat) :
    (ofStorage storage start size).declared ≠ none ↔ size ≠ 0 := by
  unfold ofStorage
  by_cases hsize : size = 0
  · simp [hsize]
  · simp [hsize]

theorem inMemory_ofStorage {storage : Storage} (hstorage : storage.InMemory) {start size : Nat}
    (hsize : size = 0 ∨ start + size < addressSpace) :
    (ofStorage storage start size).InMemory := by
  refine ⟨hstorage, ?_⟩
  intro declared hdeclared
  unfold ofStorage at hdeclared ⊢
  dsimp only at hdeclared ⊢
  by_cases hzero : size = 0
  · rw [if_pos hzero] at hdeclared
    cases hdeclared
  · rw [if_neg hzero] at hdeclared
    cases hdeclared
    exact hsize.resolve_left hzero

/-- Whether the storage holds the first `limit` bytes of a window that is open at its end. -/
def Holds (region : Region) (limit : Nat) : Prop :=
  region.declared = none → region.start + limit ≤ region.storage.size

theorem Holds.mono {region : Region} {limit less : Nat} (hholds : region.Holds limit)
    (hle : less ≤ limit) : region.Holds less := by
  intro hnone
  have := hholds hnone
  omega

def held (region : Region) (offset count : Nat) : Bytes :=
  (region.storage.content.toList.drop (region.start + offset)).take count

variable {region : Region} {offset count : Nat}

theorem check_eq_ok :
    region.check offset count = .ok () ↔
      ∀ size, region.declared = some size → offset + count ≤ size := by
  unfold check
  cases region.declared with
  | none => simp
  | some size => simp

theorem read_eq_held (hmoves : region.storage.Moves)
    (hheld : region.start + (offset + count) ≤ region.storage.size)
    (hend : region.start + (offset + count) ≤ addressSpace) :
    region.read offset count =
      (region.check offset count).map fun _ => region.held offset count := by
  unfold read fetch
  cases region.check offset count with
  | error error => rfl
  | ok _ =>
      obtain ⟨made, hgather⟩ :=
        hmoves.gather_eq_ok (show region.start + offset + count ≤ _ by omega) [] 0
      have hlength : (region.held offset count).length = count := by
        rw [held, List.length_take, List.length_drop, Array.length_toList]
        unfold Storage.size at hheld
        omega
      rw [Except.ok_bind, hgather, Except.ok_bind, List.nil_append]
      exact Except.refuse_eq_ok.mpr ⟨Nat.not_lt.mpr (Nat.le_of_eq hlength.symm), rfl⟩

theorem length_of_read {data : Bytes} (hread : region.read offset count = .ok data) :
    data.length = count := by
  obtain ⟨transfer, hfetch, hread⟩ := Except.bind_eq_ok.mp hread
  obtain ⟨hshort, hread⟩ := Except.refuse_eq_ok.mp hread
  cases hread
  obtain ⟨-, -, hgather⟩ := Except.bind_eq_ok.mp hfetch
  have hle := Storage.length_le_of_gather hgather
  rw [List.length_nil, Nat.zero_add] at hle
  omega

theorem InMemory.fetch_cases (hmemory : region.InMemory) (hholds : region.Holds (offset + count)) :
    (∃ made, region.fetch offset count = .ok ⟨region.held offset count, made⟩) ∨
      region.declared ≠ none ∧ ∃ error, region.fetch offset count = .error (.io error) := by
  unfold fetch check
  cases hdeclared : region.declared with
  | none =>
      have hsize := hmemory.storage.size_lt
      have hfits := hholds hdeclared
      obtain ⟨made, hgather⟩ := hmemory.storage.gather_eq_ok count
        (region.start + offset) (fun _ => by omega) [] 0
      exact Or.inl ⟨made, hgather⟩
  | some size =>
      have hlt := hmemory.declared_lt size hdeclared
      by_cases hpast : size < offset + count
      · exact Or.inr ⟨by simp, _, by simp only [if_pos hpast]; rfl⟩
      · obtain ⟨made, hgather⟩ := hmemory.storage.gather_eq_ok count
          (region.start + offset) (fun _ => by omega) [] 0
        exact Or.inl ⟨made, by simp only [if_neg hpast]; exact hgather⟩

theorem InMemory.read_cases (hmemory : region.InMemory) (hholds : region.Holds (offset + count)) :
    (region.read offset count = .ok (region.held offset count) ∧
      (region.held offset count).length = count) ∨
      region.declared ≠ none ∧ ∃ error, region.read offset count = .error (.io error) := by
  have hle : (region.held offset count).length ≤ count := List.length_take_le ..
  unfold read
  rcases hmemory.fetch_cases hholds with ⟨made, hfetch⟩ | ⟨hdeclared, error, hfetch⟩
  · rw [hfetch, Except.ok_bind]
    by_cases hshort : (region.held offset count).length < count
    · refine Or.inr ⟨?_, _, by simp only [if_pos hshort]; rfl⟩
      intro hnone
      have hfits := hholds hnone
      unfold held Storage.size at *
      rw [List.length_take, List.length_drop, Array.length_toList] at hshort
      omega
    · exact Or.inl ⟨by simp only [if_neg hshort]; rfl, by omega⟩
  · exact Or.inr ⟨hdeclared, error, by rw [hfetch, Except.error_bind]⟩

theorem InMemory.read_eq_ok (hmemory : region.InMemory) (hholds : region.Holds (offset + count))
    {found : Bytes} (hread : region.read offset count = .ok found) :
    found = region.held offset count ∧ found.length = count := by
  rcases hmemory.read_cases hholds with ⟨hheld, hlength⟩ | ⟨-, error, herror⟩
  · rw [hheld] at hread
    cases hread
    exact ⟨rfl, hlength⟩
  · rw [herror] at hread
    cases hread

theorem start_add_le_of_length_held (hlength : (region.held offset count).length = count)
    (hcount : count ≠ 0) : region.start + offset + count ≤ region.storage.size := by
  rw [held, List.length_take, List.length_drop, Array.length_toList] at hlength
  unfold Storage.size
  omega

end Region

end TreeImage
