import TreeImage.Image.OpenFile
import TreeImage.Proofs.Error.Action
import TreeImage.Proofs.Image.Opening

namespace TreeImage

open Format

namespace OpenFile

variable {file : OpenFile}

theorem blockLength_eq_ok {index length : Nat} :
    file.blockLength index = .ok length ↔
      index * file.blockSize < addressSpace ∧ index * file.blockSize ≤ file.size ∧
        min (file.size - index * file.blockSize) file.blockSize = length := by
  unfold blockLength
  constructor
  · intro h
    obtain ⟨before, hbefore, h⟩ := Except.bind_eq_ok.mp h
    obtain ⟨hfits, rfl⟩ := Trapping.eq_of_mul_eq_ok hbefore
    obtain ⟨left, hleft, h⟩ := Except.bind_eq_ok.mp h
    obtain ⟨hle, rfl⟩ := Trapping.eq_of_sub_eq_ok hleft
    exact ⟨hfits, hle, Except.ok.inj h⟩
  · rintro ⟨hfits, hle, rfl⟩
    rw [Trapping.mul_eq_ok hfits, Except.ok_bind, Trapping.sub_eq_ok hle]
    rfl

theorem size_lt (file : OpenFile) : file.size < addressSpace := file.body.fileSize.toNat_lt

theorem blockLength_of_le {index : Nat} (hindex : index * file.blockSize ≤ file.size) :
    file.blockLength index = .ok (min (file.size - index * file.blockSize) file.blockSize) :=
  blockLength_eq_ok.mpr ⟨Nat.lt_of_le_of_lt hindex file.size_lt, hindex, rfl⟩

theorem blockLength_of_loadBlock {index : Nat} {data : Bytes}
    (hload : file.loadBlock index = .ok data) : file.blockLength index = .ok data.length := by
  unfold loadBlock at hload
  split at hload
  · unfold loadData at hload
    obtain ⟨expected, hexpected, hload⟩ := Except.bind_eq_ok.mp hload
    split at hload
    · cases hload
      rw [List.length_replicate, hexpected]
    · obtain ⟨found, -, hload⟩ := Except.bind_eq_ok.mp hload
      obtain ⟨hlength, hload⟩ := Except.refuse_eq_ok.mp hload
      cases hload
      rw [hexpected, Decidable.not_not.mp hlength]
  · unfold loadTail at hload
    obtain ⟨-, hload⟩ := Except.refuse_eq_ok.mp hload
    obtain ⟨expected, hexpected, hload⟩ := Except.bind_eq_ok.mp hload
    obtain ⟨entry, -, hload⟩ := Except.bind_eq_ok.mp hload
    obtain ⟨fragment, -, hload⟩ := Except.bind_eq_ok.mp hload
    obtain ⟨stop, hstop, hload⟩ := Except.bind_eq_ok.mp hload
    obtain ⟨-, rfl⟩ := Trapping.eq_of_add_eq_ok hstop
    obtain ⟨-, hload⟩ := Except.refuse_eq_ok.mp hload
    obtain ⟨hinside, rfl⟩ := Trapping.eq_of_slice_eq_ok hload
    rw [hexpected, List.length_take, List.length_drop]
    congr 1
    omega

/-- Whether the block that is kept is the one with its index. -/
def CacheIsLoaded (file : OpenFile) : Prop :=
  ∀ index data, file.cache = some (index, data) → file.loadBlock index = .ok data

def keeping (file : OpenFile) (cache : Option (Nat × Bytes)) : OpenFile := { file with cache }

@[simp] theorem loadBlock_keeping (cache : Option (Nat × Bytes)) (index : Nat) :
    (file.keeping cache).loadBlock index = file.loadBlock index := rfl

/-- Whether a step gives a result whatever block is kept, and changes only which one is. -/
def ReadsAs {α : Type} (file : OpenFile) (step : Action OpenFile α) (result : Except Error α) :
    Prop :=
  ∀ cache, (file.keeping cache).CacheIsLoaded →
    ∃ kept, step.run (file.keeping cache) = (result, file.keeping kept) ∧
      (file.keeping kept).CacheIsLoaded

section

variable {α β : Type}

theorem readsAs_lift (result : Except Error α) : file.ReadsAs (liftM result) result :=
  fun cache hcache => ⟨cache, rfl, hcache⟩

theorem ReadsAs.bind {step : Action OpenFile α} {result : Except Error α}
    {next : α → Action OpenFile β} {rest : α → Except Error β} (hstep : file.ReadsAs step result)
    (hnext : ∀ value, file.ReadsAs (next value) (rest value)) :
    file.ReadsAs (step >>= next) (result >>= rest) := by
  intro cache hcache
  obtain ⟨middle, hrun, hmiddle⟩ := hstep cache hcache
  cases result with
  | error error => exact ⟨middle, Action.run_bind_of_error hrun, hmiddle⟩
  | ok value =>
      rw [Action.run_bind_of_ok hrun]
      exact hnext value middle hmiddle

theorem ReadsAs.get {next : OpenFile → Action OpenFile β} {result : Except Error β}
    (hnext : ∀ cache, file.ReadsAs (next (file.keeping cache)) result) :
    file.ReadsAs (MonadState.get >>= next) result := by
  intro cache hcache
  rw [Action.run_bind_of_ok (Action.run_get _)]
  exact hnext cache cache hcache

end

theorem block_readsAs (index : Nat) : file.ReadsAs (block index) (file.loadBlock index) := by
  intro cache hcache
  have hfetch : ∃ kept, (block.fetch index (file.keeping cache)).run (file.keeping cache) =
      (file.loadBlock index, file.keeping kept) ∧ (file.keeping kept).CacheIsLoaded := by
    rw [block.fetch, loadBlock_keeping]
    cases hload : file.loadBlock index with
    | error error => exact ⟨cache, rfl, hcache⟩
    | ok data =>
        refine ⟨some (index, data), rfl, ?_⟩
        intro kept found hkept
        cases hkept
        exact hload
  rw [block, Action.run_bind_of_ok (Action.run_get _)]
  cases hkept : cache with
  | none =>
      subst hkept
      exact hfetch
  | some kept =>
      subst hkept
      obtain ⟨cached, data⟩ := kept
      by_cases hindex : cached = index
      · subst hindex
        have hdata := hcache cached data rfl
        rw [loadBlock_keeping] at hdata
        refine ⟨some (cached, data), ?_, hcache⟩
        simp only [keeping, if_true, hdata]
        rfl
      · simp only [keeping, if_neg hindex]
        exact hfetch

/-- The contents of `count` blocks from an index on, if they can all be loaded. -/
def loadBlocks (file : OpenFile) : (count index : Nat) → Except Error (List Bytes)
  | 0, _ => .ok []
  | count + 1, index => do
      let first ← file.loadBlock index
      let rest ← file.loadBlocks count (index + 1)
      return first :: rest

theorem blocksFrom_readsAs (count index : Nat) :
    file.ReadsAs (blocksFrom count index) (file.loadBlocks count index) := by
  induction count generalizing index with
  | zero => exact readsAs_lift (.ok [])
  | succ count ih =>
      refine (block_readsAs index).bind fun first => ?_
      exact (ih (index + 1)).bind fun rest => readsAs_lift (.ok _)

/-- Consecutive blocks hold the content between the places where the first one starts and the last
one ends. -/
theorem length_of_loadBlocks {count index : Nat} {blocks : List Bytes}
    (hload : file.loadBlocks count index = .ok blocks) :
    blocks.flatten.length + min file.size (index * file.blockSize) =
      min file.size ((index + count) * file.blockSize) := by
  induction count generalizing index blocks with
  | zero =>
      cases hload
      exact Nat.zero_add _
  | succ count ih =>
      obtain ⟨first, hfirst, hload⟩ := Except.bind_eq_ok.mp hload
      obtain ⟨rest, hrest, hload⟩ := Except.bind_eq_ok.mp hload
      cases hload
      obtain ⟨-, hindex, hlength⟩ := blockLength_eq_ok.mp (blockLength_of_loadBlock hfirst)
      have hnext := ih hrest
      rw [Nat.add_right_comm index 1 count, Nat.add_assoc index count 1,
        Nat.add_mul index 1] at hnext
      rw [List.flatten_cons, List.length_append, ← hnext]
      omega

/-- The pure part of a read: the bytes from an offset on, cut out of the blocks that hold them. -/
def bytesAt (file : OpenFile) (offset count : Nat) : Except Error Bytes := do
  let wanted := min count (file.size - offset)
  if wanted = 0 then return []
  let stop ← Trapping.add offset wanted
  let first ← Trapping.div offset file.blockSize
  let last ← Trapping.div (stop - 1) file.blockSize
  let blocks ← file.loadBlocks (last + 1 - first) first
  let within := offset % file.blockSize
  Trapping.slice blocks.flatten within (within + wanted)

theorem readAt_readsAs (offset count : Nat) :
    file.ReadsAs (readAt offset count) (file.bytesAt offset count) := by
  refine .get fun cache => ?_
  have hsize : (file.keeping cache).size = file.size := rfl
  have hblockSize : (file.keeping cache).blockSize = file.blockSize := rfl
  rw [hsize, hblockSize]
  unfold bytesAt
  by_cases hwanted : min count (file.size - offset) = 0
  · simp only [if_pos hwanted]
    exact readsAs_lift (.ok [])
  · simp only [if_neg hwanted]
    refine (readsAs_lift _).bind fun stop => ?_
    refine (readsAs_lift _).bind fun first => ?_
    refine (readsAs_lift _).bind fun last => ?_
    refine (blocksFrom_readsAs _ _).bind fun blocks => ?_
    exact readsAs_lift _

end OpenFile

end TreeImage
