import Mathlib.Data.Finset.Card
import TreeImage.Build.IdTable
import TreeImage.Proofs.Error.Action

namespace TreeImage.Build.IdTable

variable {table next : IdTable} {id : UInt32}

section Steps

theorem run_index_of_some {place : UInt16} (hplace : table.places[id]? = some place) :
    (index id).run table = (.ok place, table) := by
  obtain ⟨values, places⟩ := table
  change index id ⟨values, places⟩ = _
  dsimp only at hplace
  simp only [index, hplace]

theorem run_index_of_room (hplace : table.places[id]? = none)
    (hroom : table.values.size < maxSize) :
    (index id).run table =
      (.ok (UInt16.ofNat table.values.size),
        ⟨table.values.push id, table.places.insert id (UInt16.ofNat table.values.size)⟩) := by
  obtain ⟨values, places⟩ := table
  change index id ⟨values, places⟩ = _
  dsimp only at hplace hroom
  simp only [index, hplace, if_neg (Nat.not_le_of_lt hroom)]

theorem run_index_of_full (hplace : table.places[id]? = none)
    (hfull : maxSize ≤ table.values.size) :
    (index id).run table = (.error (.unsupported (.distinctIds maxSize)), table) := by
  obtain ⟨values, places⟩ := table
  change index id ⟨values, places⟩ = _
  dsimp only at hplace hfull
  simp only [index, hplace, if_pos hfull]

theorem place_eq (table : IdTable) (id : UInt32) :
    table.place id = ((index id).run table).1.map fun place =>
      (place, ((index id).run table).2) := by
  rw [place]
  change _ = (index id table).1.map fun place => (place, (index id table).2)
  rcases index id table with ⟨error | place, last⟩
  · rfl
  · rfl

theorem place_eq_ok {place : UInt16} :
    table.place id = .ok (place, next) ↔ (index id).run table = (.ok place, next) := by
  rw [place_eq]
  rcases (index id).run table with ⟨error | found, last⟩
  · exact ⟨nofun, nofun⟩
  · rw [Prod.mk.injEq]
    simp [Except.map]

theorem place_eq_error {error : Error} {last : IdTable}
    (hrun : (index id).run table = (.error error, last)) : table.place id = .error error := by
  rw [place_eq, hrun]
  rfl

theorem check_eq_ok : table.check = .ok () ↔ table.values.size ≤ maxSize := by
  unfold check
  by_cases hlarge : maxSize < table.values.size
  · rw [if_pos hlarge]
    exact iff_of_false nofun (Nat.not_le_of_lt hlarge)
  · rw [if_neg hlarge]
    exact iff_of_true rfl (Nat.le_of_not_lt hlarge)

end Steps

/-- Whether the places of a table are those of its values: a place leads to its value, and every
value has the place where it stands. -/
structure Valid (table : IdTable) : Prop where
  size_le : table.values.size ≤ maxSize
  places_iff : ∀ (id : UInt32) (place : UInt16), table.places[id]? = some place ↔
    table.values[place.toNat]? = some id

theorem valid_empty : empty.Valid := by
  refine ⟨Nat.zero_le _, fun id place => ?_⟩
  simp [empty]

theorem toNat_ofNat_of_le {count : Nat} (hle : count ≤ maxSize) :
    (UInt16.ofNat count).toNat = count := by
  unfold maxSize at hle
  rw [UInt16.toNat_ofNat']
  omega

theorem Valid.places_of_getElem? (htable : table.Valid) {position : Nat}
    (hvalue : table.values[position]? = some id) :
    table.places[id]? = some (UInt16.ofNat position) := by
  have hlt := (Array.getElem?_eq_some_iff.mp hvalue).1
  have hsize := htable.size_le
  rw [htable.places_iff, toNat_ofNat_of_le (by omega), hvalue]

theorem Valid.places_eq_none_iff (htable : table.Valid) :
    table.places[id]? = none ↔ id ∉ table.values := by
  constructor
  · intro hnone hmem
    obtain ⟨position, hvalue⟩ := Array.mem_iff_getElem?.mp hmem
    cases hnone.symm.trans (htable.places_of_getElem? hvalue)
  · intro hnot
    cases hplace : table.places[id]? with
    | none => rfl
    | some place =>
        exact absurd (Array.mem_iff_getElem?.mpr ⟨_, (htable.places_iff id place).mp hplace⟩) hnot

theorem Valid.nodup (htable : table.Valid) : table.values.toList.Nodup := by
  refine List.pairwise_iff_getElem.mpr fun first second hfirst hsecond hlt hsame => ?_
  rw [Array.length_toList] at hfirst hsecond
  have hsize := htable.size_le
  rw [Array.getElem_toList, Array.getElem_toList] at hsame
  have hplace := htable.places_of_getElem? (Array.getElem?_eq_getElem hfirst)
  rw [hsame, htable.places_of_getElem? (Array.getElem?_eq_getElem hsecond)] at hplace
  have htoNat := congrArg UInt16.toNat (Option.some.inj hplace)
  rw [toNat_ofNat_of_le (by omega), toNat_ofNat_of_le (by omega)] at htoNat
  omega

theorem Valid.push (htable : table.Valid) (hnew : id ∉ table.values)
    (hroom : table.values.size < maxSize) :
    Valid ⟨table.values.push id,
      table.places.insert id (UInt16.ofNat table.values.size)⟩ := by
  have hlast := toNat_ofNat_of_le (Nat.le_of_lt hroom)
  constructor
  · rw [Array.size_push]
    exact hroom
  · intro other place
    rw [Std.HashMap.getElem?_insert, Array.getElem?_push]
    by_cases hsame : id = other
    · subst hsame
      rw [if_pos (beq_self_eq_true id), Option.some.injEq]
      by_cases hplace : place.toNat = table.values.size
      · rw [if_pos hplace, ← hplace]
        exact ⟨fun _ => rfl, fun _ => UInt16.ofNat_toNat⟩
      · rw [if_neg hplace]
        constructor
        · rintro rfl
          exact absurd hlast hplace
        · intro hvalue
          exact absurd (Array.mem_iff_getElem?.mpr ⟨_, hvalue⟩) hnew
    · rw [if_neg (by simpa using hsame)]
      by_cases hplace : place.toNat = table.values.size
      · rw [if_pos hplace, htable.places_iff, Array.getElem?_eq_none (Nat.le_of_eq hplace.symm),
          Option.some.injEq]
        exact ⟨nofun, fun hother => absurd hother hsame⟩
      · rw [if_neg hplace]
        exact htable.places_iff other place

/-- A table gives the place of a value that it has, puts a new one behind the others, and refuses
that if it is full. -/
theorem Valid.index_cases (htable : table.Valid) (id : UInt32) :
    (∃ place, (index id).run table = (.ok place, table) ∧
        table.values[place.toNat]? = some id) ∨
      (id ∉ table.values ∧ ∃ next,
        (index id).run table = (.ok (UInt16.ofNat table.values.size), next) ∧
          next.values = table.values.push id ∧
          next.values[(UInt16.ofNat table.values.size).toNat]? = some id ∧ next.Valid) ∨
      (id ∉ table.values ∧ table.values.size = maxSize ∧
        (index id).run table = (.error (.unsupported (.distinctIds maxSize)), table)) := by
  cases hplace : table.places[id]? with
  | some place =>
      exact .inl ⟨place, run_index_of_some hplace, (htable.places_iff id place).mp hplace⟩
  | none =>
      have hnew := htable.places_eq_none_iff.mp hplace
      rcases Nat.lt_or_ge table.values.size maxSize with hroom | hfull
      · have hnext := htable.push hnew hroom
        refine .inr (.inl ⟨hnew, _, run_index_of_room hplace hroom, rfl, ?_, hnext⟩)
        rw [← hnext.places_iff, Std.HashMap.getElem?_insert_self]
      · exact .inr (.inr ⟨hnew, Nat.le_antisymm htable.size_le hfull,
          run_index_of_full hplace hfull⟩)

theorem Valid.getElem?_of_index (htable : table.Valid) {place : UInt16}
    (hrun : (index id).run table = (.ok place, next)) :
    next.Valid ∧ next.values[place.toNat]? = some id := by
  rcases htable.index_cases id with ⟨found, hfound, hvalue⟩ | ⟨-, last, hadded, -, hvalue, hlast⟩ |
    ⟨-, -, hrefused⟩
  · cases hfound.symm.trans hrun
    exact ⟨htable, hvalue⟩
  · cases hadded.symm.trans hrun
    exact ⟨hlast, hvalue⟩
  · cases hrefused.symm.trans hrun

theorem Valid.index_eq_error_iff (htable : table.Valid) {error : Error} :
    (index id).run table = (.error error, next) ↔
      (id ∉ table.values ∧ table.values.size = maxSize) ∧
        error = .unsupported (.distinctIds maxSize) ∧ next = table := by
  constructor
  · intro hrun
    rcases htable.index_cases id with ⟨found, hfound, -⟩ | ⟨-, last, hadded, -⟩ |
      ⟨hnew, hfull, hrefused⟩
    · cases hfound.symm.trans hrun
    · cases hadded.symm.trans hrun
    · cases hrefused.symm.trans hrun
      exact ⟨⟨hnew, hfull⟩, rfl, rfl⟩
  · rintro ⟨⟨hnew, hfull⟩, rfl, rfl⟩
    exact run_index_of_full (htable.places_eq_none_iff.mpr hnew) (Nat.le_of_eq hfull.symm)

section Runs

/-- A table after it was asked for the places of values, one after the other. -/
def afterAll (table : IdTable) (ids : List UInt32) : IdTable :=
  ids.foldl (fun table id => ((index id).run table).2) table

/-- What asking keeps: the table stays a dictionary, and its values stay where they are. -/
structure GrowsTo (table next : IdTable) (ids : List UInt32) : Prop where
  valid : next.Valid
  kept : ∀ (position : Nat) (value : UInt32), table.values[position]? = some value →
    next.values[position]? = some value
  asked : ∀ value ∈ next.values, value ∈ table.values ∨ value ∈ ids

theorem Valid.growsTo_index (htable : table.Valid) (id : UInt32) :
    table.GrowsTo ((index id).run table).2 [id] := by
  rcases htable.index_cases id with ⟨place, hrun, -⟩ | ⟨-, next, hrun, hvalues, -, hnext⟩ |
    ⟨-, -, hrun⟩
  · rw [hrun]
    exact ⟨htable, fun _ _ hvalue => hvalue, fun _ => .inl⟩
  · rw [hrun]
    refine ⟨hnext, fun position value hvalue => ?_, fun value hmem => ?_⟩
    · rw [hvalues, Array.getElem?_push,
        if_neg (Nat.ne_of_lt (Array.getElem?_eq_some_iff.mp hvalue).1), hvalue]
    · rw [hvalues] at hmem
      exact (Array.mem_push.mp hmem).imp_right List.mem_singleton.mpr
  · rw [hrun]
    exact ⟨htable, fun _ _ hvalue => hvalue, fun _ => .inl⟩

theorem Valid.place (hvalid : table.Valid) {place : UInt16}
    (hplace : table.place id = .ok (place, next)) :
    next.Valid ∧ next.values[place.toNat]? = some id ∧
      ∀ (position : Nat) (value : UInt32), table.values[position]? = some value →
        next.values[position]? = some value := by
  have hrun := place_eq_ok.mp hplace
  have hgrows := hvalid.growsTo_index id
  rw [hrun] at hgrows
  exact ⟨hgrows.valid, (hvalid.getElem?_of_index hrun).2, hgrows.kept⟩

theorem Valid.growsTo_afterAll (htable : table.Valid) (ids : List UInt32) :
    table.GrowsTo (table.afterAll ids) ids := by
  induction ids generalizing table with
  | nil => exact ⟨htable, fun _ _ hvalue => hvalue, fun _ => .inl⟩
  | cons id ids ih =>
      have hfirst := htable.growsTo_index id
      have hrest := ih hfirst.valid
      refine ⟨hrest.valid, fun position value hvalue => ?_, fun value hmem => ?_⟩
      · exact hrest.kept position value (hfirst.kept position value hvalue)
      · rcases hrest.asked value hmem with hmem | hmem
        · exact (hfirst.asked value hmem).imp_right fun hfirst =>
            List.mem_cons.mpr (.inl (List.mem_singleton.mp hfirst))
        · exact .inr (List.mem_cons_of_mem _ hmem)

/-- What a table answers that was asked for the places of other values before. -/
structure Answers (before : List UInt32) (id : UInt32) : Prop where
  /-- It has no value twice, and none that it was not asked for. -/
  nodup : (empty.afterAll before).values.toList.Nodup
  asked : ∀ value ∈ (empty.afterAll before).values, value ∈ before
  /-- A place leads to its value from then on, and it is given again to who asks for that. -/
  stays : ∀ place next, (index id).run (empty.afterAll before) = (.ok place, next) → ∀ later,
    (next.afterAll later).values[place.toNat]? = some id ∧
      (index id).run (next.afterAll later) = (.ok place, next.afterAll later)
  /-- A value is refused just if it is new and all places are taken. -/
  refuses_iff : (∃ error next, (index id).run (empty.afterAll before) = (.error error, next)) ↔
    id ∉ (empty.afterAll before).values ∧ (empty.afterAll before).values.size = 65535
  /-- Then the table stays as it is. -/
  unchanged : ∀ error next, (index id).run (empty.afterAll before) = (.error error, next) →
    error = .unsupported (.distinctIds 65535) ∧ next = empty.afterAll before

theorem answers (before : List UInt32) (id : UInt32) : Answers before id := by
  have hgrows := valid_empty.growsTo_afterAll before
  have htable := hgrows.valid
  refine ⟨htable.nodup, fun value hmem => ?_, fun place next hrun later => ?_, ?_, ?_⟩
  · exact (hgrows.asked value hmem).resolve_left (by simp [empty])
  · obtain ⟨hnext, hvalue⟩ := htable.getElem?_of_index hrun
    have hlater := hnext.growsTo_afterAll later
    have hkept := hlater.kept _ _ hvalue
    exact ⟨hkept, run_index_of_some ((hlater.valid.places_iff id place).mpr hkept)⟩
  · constructor
    · rintro ⟨error, next, hrun⟩
      exact (htable.index_eq_error_iff.mp hrun).1
    · intro hfull
      exact ⟨_, _, htable.index_eq_error_iff.mpr ⟨hfull, rfl, rfl⟩⟩
  · intro error next hrun
    exact (htable.index_eq_error_iff.mp hrun).2

end Runs

/-- Whether a table is a dictionary of some values, however often each of them comes. -/
structure Holding (table : IdTable) (ids : List UInt32) : Prop where
  valid : table.Valid
  mem_iff : ∀ value, value ∈ table.values ↔ value ∈ ids

theorem holding_empty : empty.Holding [] := ⟨valid_empty, fun value => by simp [empty]⟩

variable {ids : List UInt32}

theorem Holding.card_eq (hholding : table.Holding ids) :
    ids.toFinset.card = table.values.size := by
  have hsame : ids.toFinset = table.values.toList.toFinset := by
    ext value
    rw [List.mem_toFinset, List.mem_toFinset, ← hholding.mem_iff]
    exact Array.mem_toList_iff.symm
  rw [hsame, List.toFinset_card_of_nodup hholding.valid.nodup, Array.length_toList]

theorem Holding.place_cases (hholding : table.Holding ids) (id : UInt32) :
    (∃ place next, table.place id = .ok (place, next) ∧ next.Holding (ids ++ [id])) ∨
      (table.place id = .error (.unsupported (.distinctIds maxSize)) ∧
        maxSize < (ids ++ [id]).toFinset.card) := by
  obtain ⟨htable, hmem⟩ := hholding
  rcases htable.index_cases id with ⟨place, hrun, hvalue⟩ | ⟨-, next, hrun, hvalues, -, hnext⟩ |
    ⟨hnew, hfull, hrun⟩
  · refine .inl ⟨place, table, place_eq_ok.mpr hrun, htable, fun value => ?_⟩
    have hid := (hmem id).mp (Array.mem_iff_getElem?.mpr ⟨_, hvalue⟩)
    rw [hmem, List.mem_append, List.mem_singleton]
    exact ⟨.inl, fun hvalue => hvalue.elim (·) (· ▸ hid)⟩
  · refine .inl ⟨_, next, place_eq_ok.mpr hrun, hnext, fun value => ?_⟩
    rw [hvalues, Array.mem_push, hmem, List.mem_append, List.mem_singleton]
  · refine .inr ⟨place_eq_error hrun, ?_⟩
    have hcard := Holding.card_eq ⟨htable, hmem⟩
    rw [hmem] at hnew
    rw [List.toFinset_append, List.toFinset_cons, List.toFinset_nil, insert_empty_eq,
      Finset.card_union_of_disjoint (by simpa using hnew), hcard, hfull, Finset.card_singleton]
    exact Nat.lt_succ_self _

end TreeImage.Build.IdTable
