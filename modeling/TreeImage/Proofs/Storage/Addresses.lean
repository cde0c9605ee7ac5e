import TreeImage.Proofs.Storage.Transfer

/-!
The addresses of transfers.  The start of a region and an offset into it are words, and their sum
may be none.  A transfer whose first byte has no address traps before the storage is touched.
Every other transfer reads and writes the bytes at the sum of the two, counted as numbers, and no
byte before the start.
-/

namespace TreeImage

namespace Storage

variable {storage : Storage} {address count : Nat}

theorem read_prefix (storage : Storage) (address count : Nat) :
    storage.read address count <+: (storage.content.toList.drop address).take count := by
  rw [read, Buffer.toList_slice]
  exact List.take_prefix_take_left (Nat.min_le_right _ _)

theorem gather_of_past (hcount : count ≠ 0) (hpast : addressSpace ≤ address) (got : Bytes)
    (calls : Nat) : storage.gather address count got calls = .error (.trap .sum) := by
  rw [gather, if_neg hcount, if_pos hpast]

/-- Repeated calls give the front of what is held, if there are addresses for all that is held. -/
theorem exists_gather_eq_ok (hsize : storage.size < addressSpace)
    (haddress : count ≠ 0 → address < addressSpace) (got : Bytes) (calls : Nat) :
    ∃ moved made, storage.gather address count got calls = .ok ⟨got ++ moved, made⟩ ∧
      moved <+: (storage.content.toList.drop address).take count := by
  -- a call that moves nothing ends the reading, and any other leaves fewer bytes
  induction count using Nat.strongRecOn generalizing address got calls with
  | _ count ih =>
      rw [gather]
      by_cases hcount : count = 0
      · exact ⟨[], calls, by simp [hcount], List.nil_prefix⟩
      · have hlt := haddress hcount
        rw [if_neg hcount, if_neg (Nat.not_le_of_lt hlt)]
        have hpart := storage.read_prefix address count
        generalize storage.read address count = part at hpart
        by_cases hnil : part = []
        · exact ⟨[], calls + 1, by simp [hnil], List.nil_prefix⟩
        · have hpositive := List.length_pos_iff.mpr hnil
          have hheld : storage.content.toList.length = storage.size := Array.length_toList
          have hlength := hpart.length_le
          rw [List.length_take, List.length_drop, hheld] at hlength
          obtain ⟨moved, made, hgather, hmoved⟩ := ih (count - part.length) (by omega)
            (show count - part.length ≠ 0 → address + part.length < addressSpace by omega)
            (got ++ part) (calls + 1)
          refine ⟨part ++ moved, made, ?_, ?_⟩
          · simp only [if_neg hnil]
            rw [hgather, List.append_assoc]
          · obtain ⟨later, hlater⟩ := hpart
            obtain ⟨rest, hrest⟩ := hmoved
            refine ⟨rest, ?_⟩
            rw [List.append_assoc, hrest, ← List.drop_drop, ← List.drop_take, ← hlater,
              List.drop_left]

theorem content_of_write_call {last : Storage} {bytes : Bytes} {result : Except IoError Nat}
    (hwrite : storage.write address bytes = (result, last)) :
    last.content = storage.content ∧ (∀ count, result = .ok count → count = 0) ∨
      ∃ count ≤ bytes.length, result = .ok count ∧
        last.content = storage.content.overwrite address (bytes.take count) := by
  have hle := storage.accepted_le address bytes.length
  obtain ⟨content, grant, budget, writes⟩ := storage
  unfold write at hwrite
  dsimp only at hwrite
  split at hwrite
  · cases hwrite
    exact .inl ⟨rfl, fun count hcount => (Except.ok.inj hcount).symm⟩
  · split at hwrite
    · cases hwrite
      exact .inl ⟨rfl, nofun⟩
    · cases hwrite
      exact .inr ⟨_, hle, rfl, rfl⟩

end Storage

namespace Region

variable {region last : Region} {offset : Nat} {bytes : Bytes} {result : Except Error Unit}

/-- Whether a transfer lies inside the declared size but has no address to begin at. -/
structure PastLast (region : Region) (offset : Nat) (bytes : Bytes) : Prop where
  ne_nil : bytes ≠ []
  fits : region.Fits (offset, bytes)
  past : addressSpace ≤ region.start + offset

section Writing

/-- What repeated write calls leave, however they end: some first bytes are put down where the
transfer begins, and all of them if it succeeds. -/
structure Puts (region last : Region) (offset : Nat) (bytes : Bytes) (result : Except Error Unit) :
    Prop where
  front : last.storage.content = region.storage.content ∨ ∃ count ≤ bytes.length,
    last.storage.content =
      region.storage.content.overwrite (region.start + offset) (bytes.take count)
  whole : result = .ok () → bytes ≠ [] →
    last.storage.content = region.storage.content.overwrite (region.start + offset) bytes
  unmoved : bytes = [] → last = region
  fails : ∀ error, result = .error error →
    (∃ cause, error = .io cause) ∨ bytes ≠ [] ∧ addressSpace ≤ region.start + offset

theorem place_of_past (hne : bytes ≠ []) (hpast : addressSpace ≤ region.start + offset) :
    region.place offset bytes = (.error (.trap .sum), region) := by
  obtain ⟨b, rest, rfl⟩ := List.exists_cons_of_ne_nil hne
  obtain ⟨storage, start, declared⟩ := region
  rw [place]
  exact if_pos hpast

theorem Puts.after {middle : Region} {count : Nat}
    (hrest : Puts middle last (offset + count) (bytes.drop count) result)
    (hstart : middle.start = region.start) (hcount : count ≤ bytes.length)
    (hfirst : middle.storage.content =
      region.storage.content.overwrite (region.start + offset) (bytes.take count))
    (hpositive : count ≠ 0) (hinside : region.start + (offset + count) < addressSpace) :
    Puts region last offset bytes result := by
  have htaken : (bytes.take count).length = count := List.length_take_of_le hcount
  have htwo : ∀ back, middle.storage.content.overwrite (middle.start + (offset + count)) back =
      region.storage.content.overwrite (region.start + offset) (bytes.take count ++ back) := by
    intro back
    rw [hfirst, hstart, ← Buffer.overwrite_append, htaken, Nat.add_assoc]
  refine ⟨.inr ?_, ?_, ?_, ?_⟩
  · rcases hrest.front with hsame | ⟨further, hfurther, hput⟩
    · exact ⟨count, hcount, hsame.trans hfirst⟩
    · rw [List.length_drop] at hfurther
      exact ⟨count + further, by omega, by rw [hput, htwo, ← List.take_add]⟩
  · intro hok _
    by_cases hnil : bytes.drop count = []
    · have hall : bytes.take count = bytes :=
        List.take_of_length_le (List.drop_eq_nil_iff.mp hnil)
      rw [hrest.unmoved hnil, hfirst, hall]
    · rw [hrest.whole hok hnil, htwo, List.take_append_drop]
  · rintro rfl
    exact absurd (Nat.le_zero.mp hcount) hpositive
  · intro error herror
    rcases hrest.fails error herror with hio | ⟨-, hpast⟩
    · exact .inl hio
    · rw [hstart] at hpast
      exact absurd hpast (Nat.not_le_of_lt hinside)

theorem puts_of_stop {next : Storage} {called : Except IoError Nat} (hne : bytes ≠ [])
    (hwrite : region.storage.write (region.start + offset) bytes = (called, next))
    (cause : IoError) :
    Puts region { region with storage := next } offset bytes (.error (.io cause)) := by
  refine ⟨?_, nofun, fun hnil => absurd hnil hne, ?_⟩
  · rcases Storage.content_of_write_call hwrite with ⟨hsame, -⟩ | ⟨count, hle, -, hput⟩
    · exact .inl hsame
    · exact .inr ⟨count, hle, hput⟩
  · rintro _ ⟨⟩
    exact .inl ⟨cause, rfl⟩

theorem puts_of_place (hplace : region.place offset bytes = (result, last)) :
    Puts region last offset bytes result := by
  -- a call that moves nothing ends the writing, and any other leaves fewer bytes
  induction hlength : bytes.length using Nat.strongRecOn generalizing region offset bytes with
  | _ length ih =>
      subst hlength
      cases bytes with
      | nil =>
          rw [place] at hplace
          cases hplace
          refine ⟨.inl rfl, fun _ hne => absurd rfl hne, fun _ => rfl, ?_⟩
          rintro _ ⟨⟩
      | cons b rest =>
          obtain ⟨storage, start, declared⟩ := region
          have hne : b :: rest ≠ [] := List.cons_ne_nil b rest
          rw [place] at hplace
          split at hplace
          · rename_i hpast
            cases hplace
            refine ⟨.inl rfl, ?_, fun hnil => absurd hnil hne, fun _ _ => .inr ⟨hne, hpast⟩⟩
            rintro ⟨⟩
          · split at hplace
            · rename_i cause next hwrite
              cases hplace
              exact puts_of_stop hne hwrite cause
            · rename_i next hwrite
              cases hplace
              exact puts_of_stop hne hwrite _
            · rename_i count next hwrite
              obtain ⟨hle, hinside⟩ := Storage.lt_of_write_call hwrite
              have hreached := hinside (Nat.succ_ne_zero count)
              have hrest : Puts ⟨next, start, declared⟩ last (offset + (count + 1))
                  ((b :: rest).drop (count + 1)) result :=
                ih (rest.drop count).length
                  (by rw [List.length_drop, List.length_cons]; omega) hplace rfl
              rcases Storage.content_of_write_call hwrite with ⟨-, hzero⟩ | ⟨_, _, ⟨⟩, hput⟩
              · exact absurd (hzero _ rfl) (Nat.succ_ne_zero count)
              · exact hrest.after rfl hle hput (Nat.succ_ne_zero count)
                  (show start + (offset + (count + 1)) < addressSpace by omega)

end Writing

/-- What a transfer at an offset touches, whether it succeeds or not. -/
structure StaysInPlace (region : Region) (offset : Nat) (bytes : Bytes) : Prop where
  /-- A read traps just if its first byte has no address. -/
  read_traps_iff : region.read offset bytes.length = .error (.trap .sum) ↔
    region.PastLast offset bytes
  /-- Any other failure is one of the storage or of the declared size. -/
  read_fails : ∀ error, region.read offset bytes.length = .error error →
    error = .trap .sum ∨ ∃ cause, error = .io cause
  /-- What has come when a read ends is the front of what is held from its first address on. -/
  fetch_front : ∀ transfer, region.fetch offset bytes.length = .ok transfer →
    transfer.bytes <+: region.held offset bytes.length
  /-- A read that succeeds gives the bytes at its addresses, one for one. -/
  read_eq : ∀ data, region.read offset bytes.length = .ok data →
    data.length = bytes.length ∧ ∀ i < bytes.length,
      data[i]? = region.storage.content.toList[region.start + offset + i]?
  /-- A write traps just if its first byte has no address. -/
  write_traps_iff : (∃ last, (write offset bytes).run region = (.error (.trap .sum), last)) ↔
    region.PastLast offset bytes
  /-- A trap leaves the storage alone, and any other failure is an error of the storage or of the
  declared size. -/
  write_fails : ∀ error last, (write offset bytes).run region = (.error error, last) →
    error = .trap .sum ∧ last = region ∨ ∃ cause, error = .io cause
  /-- A write that succeeds puts its bytes at its addresses, one for one. -/
  write_puts : ∀ last, (write offset bytes).run region = (.ok (), last) →
    region.storage.content.Receives last.storage.content (region.start + offset) bytes
  /-- However a write ends, the storage holds no other bytes than before, but for some first ones of
  the write at their addresses and zeros in a gap below them. -/
  write_front : ∀ result last, (write offset bytes).run region = (result, last) →
    last.storage.content = region.storage.content ∨ ∃ count ≤ bytes.length,
      last.storage.content =
        region.storage.content.overwrite (region.start + offset) (bytes.take count)
  /-- So no byte before the start is written, and none away from the addresses of the write. -/
  write_keeps : ∀ result last, (write offset bytes).run region = (result, last) →
    ∀ i < region.storage.size,
      i < region.start + offset ∨ region.start + offset + bytes.length ≤ i →
        last.storage.content.toList[i]? = region.storage.content.toList[i]?

section Reading

theorem PastLast.fetch_eq (hpast : region.PastLast offset bytes) :
    region.fetch offset bytes.length = .error (.trap .sum) := by
  have hcount : bytes.length ≠ 0 := fun hzero => hpast.ne_nil (List.length_eq_zero_iff.mp hzero)
  rw [fetch, check_eq_ok.mpr hpast.fits, Except.ok_bind]
  exact Storage.gather_of_past hcount hpast.past [] 0

theorem fetch_cases (hsize : region.storage.size < addressSpace) (offset : Nat) (bytes : Bytes) :
    region.PastLast offset bytes ∨
      (∃ cause, region.fetch offset bytes.length = .error (.io cause)) ∨
        ∃ moved made, region.fetch offset bytes.length = .ok ⟨moved, made⟩ ∧
          moved <+: region.held offset bytes.length := by
  rcases region.check_cases offset bytes with ⟨hfits, hcheck⟩ | ⟨-, cause, hcheck⟩
  · by_cases hpast : bytes ≠ [] ∧ addressSpace ≤ region.start + offset
    · exact .inl ⟨hpast.1, hfits, hpast.2⟩
    · have haddress : bytes.length ≠ 0 → region.start + offset < addressSpace := by
        intro hcount
        refine Nat.lt_of_not_le fun hle => hpast ⟨?_, hle⟩
        exact List.length_pos_iff.mp (Nat.pos_of_ne_zero hcount)
      obtain ⟨moved, made, hgather, hfront⟩ :=
        Storage.exists_gather_eq_ok hsize haddress [] 0
      exact .inr (.inr ⟨moved, made, by rw [fetch, hcheck, Except.ok_bind, hgather]; rfl, hfront⟩)
  · exact .inr (.inl ⟨cause, by rw [fetch, hcheck, Except.error_bind]⟩)

theorem read_of_fetch_eq_error {count : Nat} {error : Error}
    (hfetch : region.fetch offset count = .error error) :
    region.read offset count = .error error := by
  rw [read, hfetch, Except.error_bind]

theorem read_cases_of_fetch {count made : Nat} {moved : Bytes}
    (hfetch : region.fetch offset count = .ok ⟨moved, made⟩)
    (hfront : moved <+: region.held offset count) :
    region.read offset count = .ok moved ∧ moved = region.held offset count ∧
        moved.length = count ∨
      ∃ cause, region.read offset count = .error (.io cause) := by
  have hle : (region.held offset count).length ≤ count := List.length_take_le ..
  rw [read, hfetch, Except.ok_bind]
  by_cases hshort : moved.length < count
  · exact .inr ⟨_, if_pos hshort⟩
  · have hlength := hfront.length_le
    exact .inl ⟨if_neg hshort, hfront.eq_of_length (by omega), by omega⟩

theorem PastLast.read_eq (hpast : region.PastLast offset bytes) :
    region.read offset bytes.length = .error (.trap .sum) :=
  read_of_fetch_eq_error hpast.fetch_eq

theorem read_cases (hsize : region.storage.size < addressSpace) (offset : Nat) (bytes : Bytes) :
    region.PastLast offset bytes ∨
      (∃ cause, region.read offset bytes.length = .error (.io cause)) ∨
        ∃ data, region.read offset bytes.length = .ok data ∧
          data = region.held offset bytes.length ∧ data.length = bytes.length := by
  rcases fetch_cases hsize offset bytes with hpast | ⟨cause, hfetch⟩ | ⟨moved, made, hfetch, hfront⟩
  · exact .inl hpast
  · exact .inr (.inl ⟨cause, read_of_fetch_eq_error hfetch⟩)
  · rcases read_cases_of_fetch hfetch hfront with ⟨hok, hheld⟩ | hfailed
    · exact .inr (.inr ⟨moved, hok, hheld⟩)
    · exact .inr (.inl hfailed)

end Reading

theorem write_front_cases (hrun : (write offset bytes).run region = (result, last)) :
    last = region ∧ (∃ cause, result = .error (.io cause)) ∨
      region.Fits (offset, bytes) ∧ Puts region last offset bytes result := by
  change write offset bytes region = (result, last) at hrun
  unfold write at hrun
  rcases region.check_cases offset bytes with ⟨hfits, hcheck⟩ | ⟨-, cause, hcheck⟩
  · rw [hcheck] at hrun
    exact .inr ⟨hfits, puts_of_place hrun⟩
  · rw [hcheck] at hrun
    cases hrun
    exact .inl ⟨rfl, cause, rfl⟩

theorem PastLast.write_eq (hpast : region.PastLast offset bytes) :
    (write offset bytes).run region = (.error (.trap .sum), region) := by
  change write offset bytes region = _
  rw [write, check_eq_ok.mpr hpast.fits]
  exact place_of_past hpast.ne_nil hpast.past

theorem Puts.keeps (hputs : Puts region last offset bytes result) {i : Nat}
    (hi : i < region.storage.size)
    (haway : i < region.start + offset ∨ region.start + offset + bytes.length ≤ i) :
    last.storage.content.toList[i]? = region.storage.content.toList[i]? := by
  rcases hputs.front with hsame | ⟨count, hle, hput⟩
  · rw [hsame]
  · have htaken : (bytes.take count).length = count := List.length_take_of_le hle
    rw [hput]
    refine Buffer.getElem?_overwrite ?_
    rw [htaken]
    exact haway.imp (fun hbefore => ⟨hbefore, hi⟩) fun hafter => by omega

/-- Where the storage has an address for every byte that it holds, a transfer traps just if its
first byte has none, and otherwise stays at the addresses that are the sums of start and offset. -/
theorem staysInPlace_of_size_lt (hsize : region.storage.size < addressSpace) (offset : Nat)
    (bytes : Bytes) : region.StaysInPlace offset bytes where
  read_traps_iff := by
    refine ⟨fun htrap => ?_, PastLast.read_eq⟩
    rcases read_cases hsize offset bytes with hpast | ⟨cause, hfailed⟩ | ⟨data, hok, -⟩
    · exact hpast
    · cases htrap.symm.trans hfailed
    · cases htrap.symm.trans hok
  read_fails := by
    intro error herror
    rcases read_cases hsize offset bytes with hpast | ⟨cause, hfailed⟩ | ⟨data, hok, -⟩
    · exact .inl (Except.error.inj (herror.symm.trans hpast.read_eq))
    · exact .inr ⟨cause, Except.error.inj (herror.symm.trans hfailed)⟩
    · cases herror.symm.trans hok
  fetch_front := by
    intro transfer htransfer
    rcases fetch_cases hsize offset bytes with
      hpast | ⟨cause, hfetch⟩ | ⟨moved, made, hfetch, hfront⟩
    · cases htransfer.symm.trans hpast.fetch_eq
    · cases htransfer.symm.trans hfetch
    · cases htransfer.symm.trans hfetch
      exact hfront
  read_eq := by
    intro data hdata
    rcases read_cases hsize offset bytes with
      hpast | ⟨cause, hfailed⟩ | ⟨found, hok, hheld, hlength⟩
    · cases hdata.symm.trans hpast.read_eq
    · cases hdata.symm.trans hfailed
    · cases hdata.symm.trans hok
      refine ⟨hlength, fun i hi => ?_⟩
      rw [hheld, held, List.getElem?_take_of_lt hi, List.getElem?_drop]
  write_traps_iff := by
    refine ⟨?_, fun hpast => ⟨region, hpast.write_eq⟩⟩
    rintro ⟨last, hrun⟩
    rcases write_front_cases hrun with ⟨-, cause, ⟨⟩⟩ | ⟨hfits, hputs⟩
    rcases hputs.fails _ rfl with ⟨cause, ⟨⟩⟩ | ⟨hne, hpast⟩
    exact ⟨hne, hfits, hpast⟩
  write_fails := by
    intro error last hrun
    rcases write_front_cases hrun with ⟨-, cause, ⟨⟩⟩ | ⟨hfits, hputs⟩
    · exact .inr ⟨cause, rfl⟩
    · rcases hputs.fails _ rfl with hio | ⟨hne, hpast⟩
      · exact .inr hio
      · have htrap := PastLast.write_eq ⟨hne, hfits, hpast⟩
        cases hrun.symm.trans htrap
        exact .inl ⟨rfl, rfl⟩
  write_puts := by
    intro last hrun
    rcases write_front_cases hrun with ⟨-, cause, ⟨⟩⟩ | ⟨hfits, hputs⟩
    by_cases hnil : bytes = []
    · rw [hputs.unmoved hnil, hnil]
      exact Buffer.receives_putAll region.storage.content _ []
    · rw [hputs.whole rfl hnil]
      exact Buffer.receives_overwrite hnil
  write_front := by
    intro result last hrun
    rcases write_front_cases hrun with ⟨rfl, -⟩ | ⟨-, hputs⟩
    · exact .inl rfl
    · exact hputs.front
  write_keeps := by
    intro result last hrun i hi haway
    rcases write_front_cases hrun with ⟨rfl, -⟩ | ⟨-, hputs⟩
    · rfl
    · exact hputs.keeps hi haway

/-- A write that is stopped short leaves the byte before the window. -/
theorem staysInPlace_limitedWindow :
    limitedWindow.storage.size < addressSpace ∧
      ∀ result last, (write 0 [1, 2, 3, 4]).run limitedWindow = (result, last) →
        last.storage.content.toList[0]? = some 9 := by
  have hsize : limitedWindow.storage.size < addressSpace := by decide
  refine ⟨hsize, fun result last hrun => ?_⟩
  exact (staysInPlace_of_size_lt hsize 0 [1, 2, 3, 4]).write_keeps result last hrun 0 (by decide)
    (.inl (by decide))

def highWindow : Region := ofStorage (Storage.ofBytes [97, 98, 99]) (addressSpace - 1) 0

/-- Start and offset are words, nothing is declared, and yet the access has no address. -/
theorem exists_access_past_last :
    ∃ (region : Region) (offset : Nat) (bytes : Bytes), region.storage.size < addressSpace ∧
      region.start < addressSpace ∧ offset < addressSpace ∧ region.declared = none ∧
        region.read offset bytes.length = .error (.trap .sum) ∧
        (write offset bytes).run region = (.error (.trap .sum), region) := by
  have hpast : highWindow.PastLast 1 [7] := ⟨by simp, nofun, by decide⟩
  exact ⟨highWindow, 1, [7], by decide, by decide, by decide, rfl,
    hpast.read_eq, hpast.write_eq⟩

end Region

end TreeImage
