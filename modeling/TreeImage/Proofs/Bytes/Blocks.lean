import TreeImage.Bytes.Blocks

namespace TreeImage

variable {size : Nat} {front rest : Bytes}

theorem blocksOf_append (hsize : size ≠ 0) (hfull : size ∣ front.length) (rest : Bytes) :
    blocksOf size (front ++ rest) = blocksOf size front ++ blocksOf size rest := by
  induction hlength : front.length using Nat.strongRecOn generalizing front with
  | _ length ih =>
      by_cases hfront : front = []
      · simp [hfront]
      · have hpositive := List.length_pos_iff.mpr hfront
        have hle := Nat.le_of_dvd hpositive hfull
        have hne : front ++ rest ≠ [] := fun hnil => hfront (List.append_eq_nil_iff.mp hnil).1
        have hdrop : size ∣ (front.drop size).length := by
          rw [List.length_drop]
          exact Nat.dvd_sub hfull (Nat.dvd_refl size)
        rw [blocksOf_of_ne_nil hsize hfront, blocksOf_of_ne_nil hsize hne,
          List.take_append_of_le_length hle, List.drop_append_of_le_length hle,
          ih _ (by rw [List.length_drop]; omega) hdrop rfl, List.cons_append]

theorem blocksOf_of_length_le (hne : front ≠ []) (hle : front.length ≤ size) :
    blocksOf size front = [front] := by
  have hpositive := List.length_pos_iff.mpr hne
  rw [blocksOf_of_ne_nil (by omega) hne, List.take_of_length_le hle,
    List.drop_of_length_le hle, blocksOf_nil]

theorem ne_nil_of_mem_blocksOf {block : Bytes} (hmem : block ∈ blocksOf size front) :
    block ≠ [] := by
  induction hlength : front.length using Nat.strongRecOn generalizing front with
  | _ length ih =>
      by_cases hsize : size = 0
      · rw [blocksOf, cutBlocks, if_pos (Or.inl hsize)] at hmem
        simp at hmem
      · by_cases hfront : front = []
        · simp [hfront] at hmem
        · have hpositive := List.length_pos_iff.mpr hfront
          rw [blocksOf_of_ne_nil hsize hfront] at hmem
          rcases List.mem_cons.mp hmem with rfl | hrest
          · intro hnil
            have htake := congrArg List.length hnil
            rw [List.length_take, List.length_nil] at htake
            omega
          · exact ih _ (by rw [List.length_drop]; omega) hrest rfl

theorem length_flatMap_of_length {α : Type} {encode : α → Bytes}
    (hencode : ∀ value, (encode value).length = size) (values : List α) :
    (values.flatMap encode).length = values.length * size := by
  induction values with
  | nil => rw [List.flatMap_nil, List.length_nil, List.length_nil, Nat.zero_mul]
  | cons value values ih =>
      rw [List.flatMap_cons, List.length_append, ih, hencode, List.length_cons, Nat.add_one_mul,
        Nat.add_comm]

theorem length_flatten_of_length {blocks : List Bytes}
    (hlength : ∀ block ∈ blocks, block.length = size) :
    blocks.flatten.length = blocks.length * size := by
  induction blocks with
  | nil => rw [List.flatten_nil, List.length_nil, List.length_nil, Nat.zero_mul]
  | cons block blocks ih =>
      rw [List.flatten_cons, List.length_append, hlength block List.mem_cons_self,
        ih fun other hmem => hlength other (List.mem_cons_of_mem _ hmem), List.length_cons,
        Nat.add_one_mul, Nat.add_comm]

theorem blocksOf_flatMap {α : Type} {encode : α → Bytes} (hsize : size ≠ 0)
    (hencode : ∀ value, (encode value).length = size) (values : List α) :
    blocksOf size (values.flatMap encode) = values.map encode := by
  induction values with
  | nil => simp
  | cons value values ih =>
      have hne : encode value ≠ [] := by
        intro hnil
        have := hencode value
        rw [hnil] at this
        exact hsize this.symm
      rw [List.flatMap_cons, blocksOf_append hsize ⟨1, by rw [hencode value, Nat.mul_one]⟩, ih,
        blocksOf_of_length_le hne (Nat.le_of_eq (hencode value))]
      rfl

theorem length_blocksOf (hsize : size ≠ 0) (bytes : Bytes) :
    (blocksOf size bytes).length = (bytes.length + size - 1) / size := by
  induction hlength : bytes.length using Nat.strongRecOn generalizing bytes with
  | _ length ih =>
      by_cases hbytes : bytes = []
      · subst hbytes
        rw [← hlength, blocksOf_nil]
        exact (Nat.div_eq_of_lt (by simp only [List.length_nil]; omega)).symm
      · have hpositive := List.length_pos_iff.mpr hbytes
        rw [blocksOf_of_ne_nil hsize hbytes, List.length_cons,
          ih _ (by rw [List.length_drop]; omega) _ rfl, List.length_drop, hlength]
        by_cases hle : size ≤ length
        · rw [show length + size - 1 = length - size + size - 1 + size by omega,
            Nat.add_div_right _ (Nat.pos_of_ne_zero hsize)]
        · rw [show length - size + size - 1 = size - 1 by omega,
            show length + size - 1 = length - 1 + size by omega,
            Nat.add_div_right _ (Nat.pos_of_ne_zero hsize), Nat.div_eq_of_lt (by omega),
            Nat.div_eq_of_lt (by omega)]

theorem drop_blocksOf (hsize : size ≠ 0) (count : Nat) (bytes : Bytes) :
    (blocksOf size bytes).drop count = blocksOf size (bytes.drop (count * size)) := by
  induction count generalizing bytes with
  | zero => rw [Nat.zero_mul, List.drop_zero, List.drop_zero]
  | succ count ih =>
      by_cases hbytes : bytes = []
      · rw [hbytes, List.drop_nil, blocksOf_nil, List.drop_nil]
      · rw [blocksOf_of_ne_nil hsize hbytes, List.drop_succ_cons, ih, List.drop_drop,
          Nat.add_one_mul, Nat.add_comm]

theorem flatten_take_blocksOf (hsize : size ≠ 0) (count : Nat) (bytes : Bytes) :
    ((blocksOf size bytes).take count).flatten = bytes.take (count * size) := by
  induction count generalizing bytes with
  | zero => rw [Nat.zero_mul, List.take_zero, List.take_zero, List.flatten_nil]
  | succ count ih =>
      by_cases hbytes : bytes = []
      · rw [hbytes, List.take_nil, blocksOf_nil, List.take_nil, List.flatten_nil]
      · rw [blocksOf_of_ne_nil hsize hbytes, List.take_succ_cons, List.flatten_cons, ih,
          Nat.add_one_mul, Nat.add_comm, List.take_add]

theorem eq_of_getElem?_blocksOf (hsize : size ≠ 0) {index : Nat} {bytes block : Bytes}
    (hblock : (blocksOf size bytes)[index]? = some block) :
    index * size < bytes.length ∧ block = (bytes.drop (index * size)).take size := by
  rw [← Nat.add_zero index, ← List.getElem?_drop, drop_blocksOf hsize] at hblock
  by_cases hrest : bytes.drop (index * size) = []
  · rw [hrest, blocksOf_nil] at hblock
    cases hblock
  · rw [blocksOf_of_ne_nil hsize hrest] at hblock
    refine ⟨?_, (Option.some.inj hblock).symm⟩
    rw [List.drop_eq_nil_iff] at hrest
    exact Nat.lt_of_not_le hrest

theorem div_lt_length_blocksOf (hsize : size ≠ 0) {bytes : Bytes} {index : Nat}
    (hindex : index < bytes.length) : index / size < (blocksOf size bytes).length := by
  have hlast : bytes.length + size - 1 = bytes.length - 1 + size := by omega
  rw [length_blocksOf hsize, hlast, Nat.add_div_right _ (Nat.pos_of_ne_zero hsize)]
  exact Nat.lt_succ_of_le (Nat.div_le_div_right (by omega))

/-- A part of a string is cut out of the blocks from that of its first byte to that of its last
byte. -/
theorem slice_blocksOf (hsize : size ≠ 0) {bytes : Bytes} {offset length : Nat}
    (hstop : offset + length ≤ bytes.length) {span : Nat}
    (hspan : (offset + length - 1) / size + 1 - offset / size = span) :
    offset % size + length ≤
        (((blocksOf size bytes).drop (offset / size)).take span).flatten.length ∧
      ((((blocksOf size bytes).drop (offset / size)).take span).flatten.drop
        (offset % size)).take length = (bytes.drop offset).take length := by
  have hfirst := Nat.div_add_mod' offset size
  have hlast := Nat.lt_div_mul_add (a := offset + length - 1) (Nat.pos_of_ne_zero hsize)
  have hcovered : offset % size + length ≤ span * size := by
    rw [← hspan, Nat.sub_mul, Nat.add_one_mul]
    omega
  rw [drop_blocksOf hsize, flatten_take_blocksOf hsize]
  constructor
  · rw [List.length_take, List.length_drop]
    omega
  · rw [List.drop_take, List.drop_drop, hfirst, List.take_take, Nat.min_eq_left (by omega)]

theorem exists_full_blocks (hsize : size ≠ 0) (bytes : Bytes) :
    ∃ full : List Bytes, (∀ block ∈ full, block.length = size) ∧
      (blocksOf size bytes = full ∨
        ∃ tail, tail ≠ [] ∧ tail.length < size ∧ blocksOf size bytes = full ++ [tail]) := by
  induction hlength : bytes.length using Nat.strongRecOn generalizing bytes with
  | _ length ih =>
      by_cases hbytes : bytes = []
      · subst hbytes
        exact ⟨[], fun _ hmem => (nomatch hmem), Or.inl (blocksOf_nil size)⟩
      · have hpositive := List.length_pos_iff.mpr hbytes
        by_cases hshort : bytes.length < size
        · refine ⟨[], fun _ hmem => (nomatch hmem), Or.inr ⟨bytes, hbytes, hshort, ?_⟩⟩
          exact blocksOf_of_length_le hbytes (Nat.le_of_lt hshort)
        · obtain ⟨full, hfull, hrest⟩ :=
            ih _ (by rw [List.length_drop]; omega) (bytes.drop size) rfl
          have hfirst : ∀ block ∈ bytes.take size :: full, block.length = size := by
            intro block hmem
            rcases List.mem_cons.mp hmem with rfl | hmem
            · exact List.length_take_of_le (Nat.le_of_not_lt hshort)
            · exact hfull block hmem
          refine ⟨bytes.take size :: full, hfirst, ?_⟩
          rw [blocksOf_of_ne_nil hsize hbytes]
          rcases hrest with hrest | ⟨tail, hne, hlt, hrest⟩
          · exact Or.inl (by rw [hrest])
          · exact Or.inr ⟨tail, hne, hlt, by rw [hrest, List.cons_append]⟩

end TreeImage
