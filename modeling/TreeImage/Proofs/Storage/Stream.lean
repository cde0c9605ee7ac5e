import TreeImage.Proofs.Error.Action
import TreeImage.Proofs.Storage.Stored

/-!
Bytes on their way to a storage, one by one.  However many bytes a call moves, and however many a
storage accepts in all, writing puts a prefix of the bytes down, in their order; it stops before
the end only where the storage accepts no more.
-/

namespace TreeImage

def addressed : (address : Nat) → Bytes → List (Nat × UInt8)
  | _, [] => []
  | address, b :: bytes => (address, b) :: addressed (address + 1) bytes

@[simp] theorem length_addressed (address : Nat) (bytes : Bytes) :
    (addressed address bytes).length = bytes.length := by
  induction bytes generalizing address with
  | nil => rfl
  | cons b bytes ih => rw [addressed, List.length_cons, ih, List.length_cons]

@[simp] theorem map_fst_addressed (address : Nat) (bytes : Bytes) :
    (addressed address bytes).map Prod.fst = List.range' address bytes.length := by
  induction bytes generalizing address with
  | nil => rfl
  | cons b bytes ih => rw [addressed, List.map_cons, ih, List.length_cons, List.range'_succ]

theorem addressed_append (address : Nat) (front back : Bytes) :
    addressed address (front ++ back) =
      addressed address front ++ addressed (address + front.length) back := by
  induction front generalizing address with
  | nil => rfl
  | cons b front ih =>
      rw [List.cons_append, addressed, ih, addressed, List.cons_append, List.length_cons,
        Nat.add_assoc, Nat.add_comm 1]

theorem mem_addressed {address : Nat} {bytes : Bytes} {put : Nat × UInt8}
    (hmem : put ∈ addressed address bytes) :
    address ≤ put.1 ∧ put.1 < address + bytes.length := by
  have hfst := List.mem_map_of_mem (f := Prod.fst) hmem
  rwa [map_fst_addressed, List.mem_range'_1] at hfst

theorem take_addressed (address : Nat) (bytes : Bytes) (count : Nat) :
    (addressed address bytes).take count = addressed address (bytes.take count) := by
  induction bytes generalizing address count with
  | nil => rw [List.take_nil, addressed, List.take_nil]
  | cons b bytes ih =>
      cases count with
      | zero => rfl
      | succ count => rw [List.take_succ_cons, addressed, addressed, List.take_succ_cons, ih]

theorem take_addressed_add (address : Nat) {bytes : Bytes} {first : Nat}
    (hfirst : first ≤ bytes.length) (second : Nat) :
    (addressed address bytes).take (first + second) =
      addressed address (bytes.take first) ++
        (addressed (address + first) (bytes.drop first)).take second := by
  have hlength : (bytes.take first).length = first := List.length_take_of_le hfirst
  rw [take_addressed, take_addressed, List.take_add, addressed_append, hlength]

namespace Buffer

def putAll (buffer : Buffer) (stream : List (Nat × UInt8)) : Buffer :=
  stream.foldl (fun buffer (address, b) => buffer.overwrite address [b]) buffer

theorem putAll_append (buffer : Buffer) (front back : List (Nat × UInt8)) :
    buffer.putAll (front ++ back) = (buffer.putAll front).putAll back := List.foldl_append

theorem putAll_addressed (buffer : Buffer) (address : Nat) {bytes : Bytes} (hne : bytes ≠ []) :
    buffer.putAll (addressed address bytes) = buffer.overwrite address bytes := by
  induction bytes generalizing buffer address with
  | nil => exact absurd rfl hne
  | cons b bytes ih =>
      change putAll (buffer.overwrite address [b]) (addressed (address + 1) bytes) = _
      by_cases hnil : bytes = []
      · rw [hnil]
        rfl
      · rw [ih _ _ hnil]
        exact overwrite_append buffer address [b] bytes

theorem getElem?_putAll {stream : List (Nat × UInt8)} {buffer : Buffer} {i : Nat}
    (hheld : i < buffer.size) (haway : i ∉ stream.map Prod.fst) :
    (buffer.putAll stream).toList[i]? = buffer.toList[i]? := by
  induction stream generalizing buffer with
  | nil => rfl
  | cons put stream ih =>
      obtain ⟨address, b⟩ := put
      rw [List.map_cons, List.mem_cons, not_or] at haway
      have hkept : (buffer.overwrite address [b]).toList[i]? = buffer.toList[i]? := by
        refine getElem?_overwrite ?_
        rw [List.length_singleton]
        omega
      have hstill : i < (buffer.overwrite address [b]).size := by
        rw [← Array.length_toList] at hheld ⊢
        exact (List.getElem?_eq_some_iff.mp (hkept.trans (List.getElem?_eq_getElem hheld))).1
      exact (ih hstill haway.2).trans hkept

end Buffer

namespace Storage

theorem accepted_le (storage : Storage) (address count : Nat) :
    storage.accepted address count ≤ count := by
  unfold accepted
  split
  · exact Nat.min_le_right _ _
  · exact Nat.le_trans (Nat.min_le_right _ _) (Nat.min_le_right _ _)

theorem accepted_le_budget {storage : Storage} {budget : Nat}
    (hbudget : storage.budget = some budget) (address count : Nat) :
    storage.accepted address count ≤ budget := by
  rw [accepted, hbudget]
  exact Nat.min_le_left _ _

theorem lt_of_write_call {storage last : Storage} {address count : Nat} {bytes : Bytes}
    (hwrite : storage.write address bytes = (.ok count, last)) :
    count ≤ bytes.length ∧ (count ≠ 0 → address + count < addressSpace) := by
  have hle := storage.accepted_le address bytes.length
  obtain ⟨content, grant, budget, writes⟩ := storage
  unfold write at hwrite
  dsimp only at hwrite
  split at hwrite
  · cases hwrite
    exact ⟨Nat.zero_le _, fun hzero => absurd rfl hzero⟩
  · split at hwrite
    · cases hwrite
    · rename_i hinside
      cases hwrite
      exact ⟨hle, fun _ => Nat.lt_of_not_le hinside⟩

theorem Moves.budget_eq_zero {storage : Storage} (hmoves : storage.Moves) {address count : Nat}
    (hcount : 0 < count) (hnone : storage.accepted address count = 0) :
    storage.budget = some 0 := by
  have hgrant := hmoves address count hcount
  unfold accepted at hnone
  cases hbudget : storage.budget with
  | none =>
      rw [hbudget] at hnone
      dsimp only at hnone
      omega
  | some budget =>
      rw [hbudget] at hnone
      dsimp only at hnone
      congr 1
      omega

end Storage

namespace Region

/-- Whether a write lies inside the declared size. -/
def Fits (region : Region) (write : Nat × Bytes) : Prop :=
  ∀ size, region.declared = some size → write.1 + write.2.length ≤ size

/-- What putting a stream of bytes down makes of a region. -/
structure Deposits (region last : Region) (stream : List (Nat × UInt8)) : Prop where
  start_eq : last.start = region.start
  declared_eq : last.declared = region.declared
  grant_eq : last.storage.grant = region.storage.grant
  content_eq : last.storage.content = region.storage.content.putAll stream
  budget_eq : last.storage.budget = region.storage.budget.map (· - stream.length)
  length_le : ∀ budget, region.storage.budget = some budget → stream.length ≤ budget
  inside : ∀ size, region.declared = some size → ∀ put ∈ stream, put.1 < region.start + size

variable {region middle last : Region} {front back : List (Nat × UInt8)} {offset : Nat}
  {bytes : Bytes}

theorem deposits_nil (region : Region) : region.Deposits region [] :=
  ⟨rfl, rfl, rfl, rfl, by cases region.storage.budget with | none => rfl | some => rfl,
    fun _ _ => Nat.zero_le _, fun _ _ _ hmem => nomatch hmem⟩

theorem Deposits.trans (hfront : region.Deposits middle front)
    (hback : middle.Deposits last back) : region.Deposits last (front ++ back) := by
  refine ⟨hback.start_eq.trans hfront.start_eq, hback.declared_eq.trans hfront.declared_eq,
    hback.grant_eq.trans hfront.grant_eq, ?_, ?_, ?_, ?_⟩
  · rw [hback.content_eq, hfront.content_eq, Buffer.putAll_append]
  · rw [hback.budget_eq, hfront.budget_eq, Option.map_map, List.length_append]
    congr 1
    funext budget
    exact Nat.sub_sub _ _ _
  · intro budget hbudget
    have hfirst := hfront.length_le budget hbudget
    have hleft := hfront.budget_eq
    rw [hbudget] at hleft
    have hsecond : back.length ≤ budget - front.length := hback.length_le _ hleft
    rw [List.length_append]
    omega
  · intro size hsize put hmem
    rcases List.mem_append.mp hmem with hmem | hmem
    · exact hfront.inside size hsize put hmem
    · rw [← hfront.start_eq]
      exact hback.inside size (hfront.declared_eq.trans hsize) put hmem

theorem Deposits.budget_eq_of_left (hdeposits : region.Deposits last front) {left : Nat}
    (hleft : last.storage.budget = some left) :
    region.storage.budget = some (front.length + left) := by
  have hbudget := hdeposits.budget_eq
  rw [hleft] at hbudget
  obtain ⟨budget, hsome, hminus⟩ := Option.map_eq_some_iff.mp hbudget.symm
  have hle := hdeposits.length_le budget hsome
  rw [hsome]
  congr 1
  omega

theorem Deposits.moves (hdeposits : region.Deposits last front) (hmoves : region.storage.Moves) :
    last.storage.Moves := by
  rw [Storage.Moves, hdeposits.grant_eq]
  exact hmoves

theorem write_call_cases (hmoves : region.storage.Moves) (hne : bytes ≠ [])
    (hfits : region.Fits (offset, bytes))
    (hend : region.start + offset + bytes.length < addressSpace) :
    ∃ count storage, count ≤ bytes.length ∧
      region.storage.write (region.start + offset) bytes = (.ok count, storage) ∧
      region.Deposits { region with storage }
        ((addressed (region.start + offset) bytes).take count) ∧
      (count = 0 → region.storage.budget = some 0) := by
  have hle := region.storage.accepted_le (region.start + offset) bytes.length
  have hspent : region.storage.accepted (region.start + offset) bytes.length = 0 → _ :=
    hmoves.budget_eq_zero (List.length_pos_iff.mpr hne)
  have hwithin : ∀ budget, region.storage.budget = some budget → _ :=
    fun _ hbudget => Storage.accepted_le_budget hbudget (region.start + offset) bytes.length
  obtain ⟨⟨content, grant, budget, writes⟩, start, declared⟩ := region
  dsimp only at hend hle hspent hwithin ⊢
  unfold Storage.write
  generalize
    Storage.accepted ⟨content, grant, budget, writes⟩ (start + offset) bytes.length = count at *
  have htaken : ((addressed (start + offset) bytes).take count).length = count :=
    List.length_take_of_le (by rw [length_addressed]; exact hle)
  have hinside : ∀ size, declared = some size →
      ∀ put ∈ (addressed (start + offset) bytes).take count, put.1 < start + size := by
    intro size hsize put hmem
    have hput := mem_addressed (List.mem_of_mem_take hmem)
    have hfit : offset + bytes.length ≤ size := hfits size hsize
    omega
  dsimp only
  by_cases hnone : budget.isSome = true ∧ count = 0
  · obtain ⟨hsome, hzero⟩ := hnone
    rw [if_pos ⟨hsome, hzero⟩]
    refine ⟨0, _, Nat.zero_le _, rfl, ⟨rfl, rfl, rfl, rfl, ?_, fun _ _ => Nat.zero_le _, ?_⟩,
      fun _ => hspent hzero⟩
    · rw [hspent hzero]
      rfl
    · exact fun _ _ _ hmem => nomatch hmem
  · rw [if_neg hnone, if_neg (by omega)]
    have hpositive : bytes.take count ≠ [] := by
      intro hnil
      have hzero : count = 0 := by
        rw [← htaken, take_addressed, hnil]
        rfl
      exact hnone ⟨by rw [hspent hzero]; rfl, hzero⟩
    refine ⟨count, _, hle, rfl, ⟨rfl, rfl, rfl, ?_, ?_, ?_, hinside⟩, hspent⟩
    · rw [take_addressed]
      exact (Buffer.putAll_addressed _ _ hpositive).symm
    · rw [htaken]
    · rw [htaken]
      exact hwithin

/-- Repeated write calls put all bytes down, or as many as the storage accepts. -/
theorem place_cases (hmoves : region.storage.Moves) (hfits : region.Fits (offset, bytes))
    (hend : bytes ≠ [] → region.start + offset + bytes.length < addressSpace) :
    ∃ count last, count ≤ bytes.length ∧
      region.Deposits last ((addressed (region.start + offset) bytes).take count) ∧
      (region.place offset bytes = (.ok (), last) ∧ count = bytes.length ∨
        region.storage.budget = some count ∧ count < bytes.length ∧
          ∃ error, region.place offset bytes = (.error (.io error), last)) := by
  -- a call that moves nothing ends the writing, and any other leaves fewer bytes
  induction hlength : bytes.length using Nat.strongRecOn generalizing region offset bytes with
  | _ length ih =>
      subst hlength
      cases bytes with
      | nil => exact ⟨0, region, Nat.le_refl 0, deposits_nil region, .inl ⟨by rw [place], rfl⟩⟩
      | cons b rest =>
          have hlt := hend (by simp)
          obtain ⟨count, storage, hcount, hwrite, hfirst, hspent⟩ :=
            write_call_cases hmoves (by simp) hfits hlt
          obtain ⟨before, start, declared⟩ := region
          dsimp only at hlt hwrite hfirst hspent ⊢
          rw [place, if_neg (by omega), hwrite]
          cases count with
          | zero => exact ⟨0, _, Nat.zero_le _, hfirst, .inr ⟨hspent rfl, by simp, _, rfl⟩⟩
          | succ count =>
              rw [List.length_cons] at hcount hlt
              have hshorter : (rest.drop count).length < (b :: rest).length := by
                rw [List.length_drop, List.length_cons]
                omega
              have hinside : start + (offset + count + 1) + (rest.drop count).length <
                  addressSpace := by
                rw [List.length_drop]
                omega
              have hstillFits : Fits ⟨storage, start, declared⟩
                  (offset + count + 1, rest.drop count) := by
                intro size hsize
                have hle : offset + (rest.length + 1) ≤ size := hfits size hsize
                rw [List.length_drop]
                omega
              obtain ⟨further, last, hfurther, hsecond, hresult⟩ :=
                ih _ hshorter (hfirst.moves hmoves) hstillFits (fun _ => hinside) rfl
              have hboth := hfirst.trans hsecond
              have htotal : (addressed (start + offset) (b :: rest)).take (count + 1 + further) =
                  (addressed (start + offset) (b :: rest)).take (count + 1) ++
                    (addressed (start + (offset + count + 1)) (rest.drop count)).take further := by
                rw [take_addressed_add _ hcount, ← take_addressed, Nat.add_assoc start,
                  Nat.add_assoc offset]
                rfl
              rw [← htotal] at hboth
              rw [List.length_drop] at hfurther hresult
              refine ⟨count + 1 + further, last, by rw [List.length_cons]; omega, hboth, ?_⟩
              rcases hresult with ⟨hrun, hall⟩ | ⟨hbudget, hpart, error, hrun⟩
              · exact .inl ⟨hrun, by rw [List.length_cons]; omega⟩
              · refine .inr ⟨?_, by rw [List.length_cons]; omega, error, hrun⟩
                have htaken : ((addressed (start + offset) (b :: rest)).take (count + 1)).length =
                    count + 1 := List.length_take_of_le (by rw [length_addressed]; exact hcount)
                rw [hfirst.budget_eq_of_left hbudget, htaken]

theorem Deposits.fits_iff (hdeposits : region.Deposits last front) (write : Nat × Bytes) :
    last.Fits write ↔ region.Fits write := by
  rw [Fits, Fits, hdeposits.declared_eq]

theorem check_cases (region : Region) (offset : Nat) (bytes : Bytes) :
    region.Fits (offset, bytes) ∧ region.check offset bytes.length = .ok () ∨
      ¬region.Fits (offset, bytes) ∧
        ∃ error, region.check offset bytes.length = .error (.io error) := by
  unfold Fits check
  cases region.declared with
  | none => exact .inl ⟨nofun, rfl⟩
  | some size =>
      by_cases hpast : size < offset + bytes.length
      · refine .inr ⟨fun hfits => ?_, _, if_pos hpast⟩
        have hle := hfits size rfl
        dsimp only at hle
        omega
      · refine .inl ⟨?_, if_neg hpast⟩
        rintro _ ⟨⟩
        exact Nat.le_of_not_lt hpast

theorem write_cases (hmoves : region.storage.Moves)
    (hend : bytes ≠ [] → region.start + offset + bytes.length < addressSpace) :
    ∃ count last, count ≤ bytes.length ∧
      region.Deposits last ((addressed (region.start + offset) bytes).take count) ∧
      ((Region.write offset bytes).run region = (.ok (), last) ∧ count = bytes.length ∧
          region.Fits (offset, bytes) ∨
        (∃ error, (Region.write offset bytes).run region = (.error (.io error), last)) ∧
          (¬region.Fits (offset, bytes) ∧ count = 0 ∨
            region.storage.budget = some count ∧ count < bytes.length)) := by
  change ∃ count last, _ ∧ _ ∧ (Region.write offset bytes region = _ ∧ _ ∨
    (∃ error, Region.write offset bytes region = _) ∧ _)
  unfold Region.write
  rcases region.check_cases offset bytes with ⟨hfits, hcheck⟩ | ⟨hpast, error, hcheck⟩
  · obtain ⟨count, last, hcount, hdeposits, hresult⟩ := place_cases hmoves hfits hend
    rw [hcheck]
    refine ⟨count, last, hcount, hdeposits, ?_⟩
    rcases hresult with ⟨hrun, hall⟩ | ⟨hbudget, hpart, hrun⟩
    · exact .inl ⟨hrun, hall, hfits⟩
    · exact .inr ⟨hrun, .inr ⟨hbudget, hpart⟩⟩
  · rw [hcheck]
    exact ⟨0, region, Nat.zero_le _, deposits_nil region,
      .inr ⟨⟨error, rfl⟩, .inl ⟨hpast, rfl⟩⟩⟩

def streamOf (start : Nat) (writes : List (Nat × Bytes)) : List (Nat × UInt8) :=
  writes.flatMap fun write => addressed (start + write.1) write.2

/-- Writes one after the other put all their bytes down, or as many as the storage accepts before a
write that fails. -/
theorem writes_cases {writes : List (Nat × Bytes)} (hmoves : region.storage.Moves)
    (hend : ∀ write ∈ writes, write.2 ≠ [] →
      region.start + write.1 + write.2.length < addressSpace) :
    ∃ count last, count ≤ (streamOf region.start writes).length ∧
      region.Deposits last ((streamOf region.start writes).take count) ∧
      ((writes.forM fun write => Region.write write.1 write.2).run region = (.ok (), last) ∧
          count = (streamOf region.start writes).length ∧ (∀ write ∈ writes, region.Fits write) ∨
        (∃ error, (writes.forM fun write => Region.write write.1 write.2).run region =
            (.error (.io error), last)) ∧
          ((∃ write ∈ writes, ¬region.Fits write) ∨ region.storage.budget = some count ∧
            count < (streamOf region.start writes).length)) := by
  induction writes generalizing region with
  | nil => exact ⟨0, region, Nat.le_refl 0, deposits_nil region, .inl ⟨rfl, rfl, nofun⟩⟩
  | cons write writes ih =>
      obtain ⟨offset, bytes⟩ := write
      obtain ⟨first, middle, hfirst, hput, hresult⟩ :=
        write_cases hmoves (hend _ List.mem_cons_self)
      dsimp only at hfirst hput hresult
      have hstream : streamOf region.start ((offset, bytes) :: writes) =
          addressed (region.start + offset) bytes ++ streamOf region.start writes := rfl
      have hpart : (streamOf region.start ((offset, bytes) :: writes)).take first =
          (addressed (region.start + offset) bytes).take first := by
        rw [hstream, List.take_append_of_le_length (by rw [length_addressed]; exact hfirst)]
      rw [hstream, List.length_append, length_addressed, List.forM]
      rcases hresult with ⟨hrun, rfl, hfits⟩ | ⟨⟨error, hrun⟩, hreason⟩
      · rw [← length_addressed (region.start + offset) bytes, List.take_length] at hput
        rw [Action.run_bind_of_ok hrun]
        obtain ⟨count, last, hcount, hrest, hresult⟩ := ih (hput.moves hmoves) fun write hmem => by
          rw [hput.start_eq]
          exact hend write (List.mem_cons_of_mem _ hmem)
        rw [hput.start_eq] at hcount hrest hresult
        refine ⟨bytes.length + count, last, by omega, ?_, ?_⟩
        · rw [← length_addressed (region.start + offset) bytes, List.take_length_add_append]
          exact hput.trans hrest
        · rcases hresult with ⟨hdone, rfl, hall⟩ | ⟨hfailed, hreason⟩
          · refine .inl ⟨hdone, rfl, ?_⟩
            intro write hmem
            rcases List.mem_cons.mp hmem with rfl | hmem
            · exact hfits
            · exact (hput.fits_iff write).mp (hall write hmem)
          · refine .inr ⟨hfailed, ?_⟩
            rcases hreason with ⟨write, hmem, hpast⟩ | ⟨hbudget, hshort⟩
            · exact .inl ⟨write, List.mem_cons_of_mem _ hmem,
                fun hfits => hpast ((hput.fits_iff write).mpr hfits)⟩
            · refine .inr ⟨?_, by omega⟩
              rw [hput.budget_eq_of_left hbudget, length_addressed]
      · rw [Action.run_bind_of_error hrun]
        refine ⟨first, middle, by omega, ?_, .inr ⟨⟨error, rfl⟩, ?_⟩⟩
        · rw [← hstream, hpart]
          exact hput
        · rcases hreason with ⟨hpast, -⟩ | ⟨hbudget, hshort⟩
          · exact .inl ⟨_, List.mem_cons_self, hpast⟩
          · exact .inr ⟨hbudget, by omega⟩

theorem Lays.streamOf_eq {writes : List (Nat × Bytes)} (hlays : Lays offset writes bytes)
    (start : Nat) : streamOf start writes = addressed (start + offset) bytes := by
  obtain ⟨hfollows, rfl⟩ := hlays
  induction writes generalizing offset with
  | nil => rfl
  | cons write writes ih =>
      obtain ⟨place, bytes⟩ := write
      obtain ⟨rfl, hfollows⟩ := hfollows
      rw [List.flatMap_cons, addressed_append, Nat.add_assoc, ← ih hfollows]
      rfl

theorem Lays.le_iff {writes : List (Nat × Bytes)} (hlays : Lays offset writes bytes)
    (hne : writes ≠ []) (size : Nat) :
    (∀ write ∈ writes, write.1 + write.2.length ≤ size) ↔ offset + bytes.length ≤ size := by
  obtain ⟨hfollows, rfl⟩ := hlays
  induction writes generalizing offset with
  | nil => exact absurd rfl hne
  | cons write writes ih =>
      obtain ⟨place, bytes⟩ := write
      obtain ⟨rfl, hfollows⟩ := hfollows
      rw [List.forall_mem_cons, List.flatMap_cons, List.length_append, ← Nat.add_assoc]
      by_cases hnil : writes = []
      · simp [hnil]
      · rw [ih hnil hfollows]
        dsimp only
        omega

theorem Lays.write_cases {writes : List (Nat × Bytes)} (hlays : Lays offset writes bytes)
    (hne : writes ≠ []) (hmoves : region.storage.Moves)
    (hend : bytes ≠ [] → region.start + offset + bytes.length < addressSpace) :
    ∃ count last, count ≤ bytes.length ∧
      region.Deposits last ((addressed (region.start + offset) bytes).take count) ∧
      ((writes.forM fun write => Region.write write.1 write.2).run region = (.ok (), last) ∧
          count = bytes.length ∧ region.Fits (offset, bytes) ∨
        (∃ error, (writes.forM fun write => Region.write write.1 write.2).run region =
            (.error (.io error), last)) ∧
          (¬region.Fits (offset, bytes) ∨
            region.storage.budget = some count ∧ count < bytes.length)) := by
  have hinside : ∀ write ∈ writes, write.2 ≠ [] →
      region.start + write.1 + write.2.length < addressSpace := by
    intro write hmem hwrite
    have hlt := hend fun hnil =>
      hwrite (List.flatMap_eq_nil_iff.mp (hlays.bytes_eq.trans hnil) write hmem)
    have hle := (hlays.le_iff hne (offset + bytes.length)).mpr (Nat.le_refl _) write hmem
    omega
  have hfits : (∀ write ∈ writes, region.Fits write) ↔ region.Fits (offset, bytes) :=
    ⟨fun hall size hsize => (hlays.le_iff hne size).mp fun write hmem => hall write hmem size hsize,
      fun hfits write hmem size hsize => (hlays.le_iff hne size).mpr (hfits size hsize) write hmem⟩
  obtain ⟨count, last, hcount, hdeposits, hresult⟩ := writes_cases hmoves hinside
  rw [hlays.streamOf_eq] at hdeposits
  rw [hlays.streamOf_eq, length_addressed] at hcount hresult
  refine ⟨count, last, hcount, hdeposits, ?_⟩
  rcases hresult with ⟨hrun, hall, hinside⟩ | ⟨hrun, hreason⟩
  · exact .inl ⟨hrun, hall, hfits.mp hinside⟩
  · refine .inr ⟨hrun, hreason.imp_left ?_⟩
    rintro ⟨write, hmem, hpast⟩ hinside
    exact hpast (hfits.mpr hinside write hmem)

theorem lt_of_place (hplace : region.place offset bytes = (.ok (), last)) :
    last.start = region.start ∧
      (bytes ≠ [] → region.start + offset + bytes.length < addressSpace) := by
  induction hlength : bytes.length using Nat.strongRecOn generalizing region offset bytes with
  | _ length ih =>
      subst hlength
      cases bytes with
      | nil =>
          rw [place] at hplace
          cases hplace
          exact ⟨rfl, fun hne => absurd rfl hne⟩
      | cons b rest =>
          obtain ⟨storage, start, declared⟩ := region
          rw [place] at hplace
          split at hplace
          · cases hplace
          · split at hplace
            · cases hplace
            · cases hplace
            · rename_i count next hwrite
              obtain ⟨hcount, hinside⟩ := Storage.lt_of_write_call hwrite
              have hreached := hinside (Nat.succ_ne_zero count)
              rw [List.length_cons] at hcount ⊢
              obtain ⟨hstart, hrest⟩ := ih (rest.drop count).length
                (by rw [List.length_drop, List.length_cons]; omega) hplace rfl
              refine ⟨hstart, fun _ => ?_⟩
              dsimp only at hrest ⊢
              rw [← List.length_pos_iff, List.length_drop] at hrest
              rcases Nat.lt_or_ge count rest.length with hmore | hdone
              · have hend := hrest (by omega)
                omega
              · omega

theorem Lays.lt_of_writes {writes : List (Nat × Bytes)} (hlays : Lays offset writes bytes)
    (hrun : (writes.forM fun write => Region.write write.1 write.2).run region =
      (.ok (), last)) :
    last.start = region.start ∧
      (bytes ≠ [] → region.start + offset + bytes.length < addressSpace) := by
  obtain ⟨hfollows, rfl⟩ := hlays
  induction writes generalizing region offset with
  | nil =>
      cases hrun
      exact ⟨rfl, fun hne => absurd rfl hne⟩
  | cons write writes ih =>
      obtain ⟨place, bytes⟩ := write
      obtain ⟨rfl, hfollows⟩ := hfollows
      rw [List.forM] at hrun
      obtain ⟨⟨⟩, middle, hwrite, hrun⟩ := Action.run_bind_eq_ok.mp hrun
      change Region.write place bytes region = (.ok (), middle) at hwrite
      unfold Region.write at hwrite
      split at hwrite
      · cases hwrite
      · obtain ⟨hstart, hinside⟩ := lt_of_place hwrite
        obtain ⟨hlast, hrest⟩ := ih hrun hfollows
        refine ⟨hlast.trans hstart, fun hne => ?_⟩
        rw [hstart] at hrest
        rw [List.flatMap_cons] at hne
        rw [List.flatMap_cons, List.length_append]
        dsimp only at hne ⊢
        by_cases hnil : writes.flatMap Prod.snd = []
        · rw [hnil, List.append_nil] at hne
          rw [hnil]
          exact hinside hne
        · have hend := hrest hnil
          omega

theorem Lays.stores_of_run {writes : List (Nat × Bytes)} (hlays : Lays offset writes bytes)
    (hne : writes ≠ []) (hmoves : region.storage.Moves)
    (hrun : (writes.forM fun write => Region.write write.1 write.2).run region =
      (.ok (), last)) :
    region.Fits (offset, bytes) ∧
      region.Deposits last (addressed (region.start + offset) bytes) ∧
      last.Stores offset bytes := by
  have hend := (hlays.lt_of_writes hrun).2
  obtain ⟨count, reached, hcount, hput, ⟨hdone, rfl, hfits⟩ | ⟨⟨error, hfailed⟩, -⟩⟩ :=
    hlays.write_cases hne hmoves hend
  · cases hdone.symm.trans hrun
    rw [← length_addressed (region.start + offset) bytes, List.take_length] at hput
    refine ⟨hfits, hput, ?_, by rwa [hput.start_eq]⟩
    by_cases hnil : bytes = []
    · rw [hnil]
      exact List.nil_prefix
    · rw [hput.content_eq, hput.start_eq, Buffer.putAll_addressed _ _ hnil]
      exact Buffer.prefix_drop_overwrite ..
  · cases hfailed.symm.trans hrun

theorem Deposits.keeps (hput : region.Deposits last (addressed (region.start + offset) bytes))
    {place : Nat} {stored : Bytes} (hstores : region.Stores place stored)
    (haway : place + stored.length ≤ offset ∨ offset + bytes.length ≤ place) :
    last.Stores place stored := by
  refine hstores.of_getElem? hput.start_eq ?_
  intro i hi hinside
  rw [hput.content_eq]
  refine Buffer.getElem?_putAll hinside ?_
  rw [map_fst_addressed, List.mem_range'_1]
  omega

end Region

end TreeImage
