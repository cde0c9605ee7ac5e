import TreeImage.Proofs.Build.InodeNumbers
import TreeImage.Proofs.Staging.Edit

namespace TreeImage.Staging

open Format

/-- The last decimal digits of a value, in a given number. -/
def digits : (width : Nat) → (value : Nat) → List Char
  | 0, _ => []
  | width + 1, value => digits width (value / 10) ++ [Nat.digitChar (value % 10)]

theorem length_digits (width value : Nat) : (digits width value).length = width := by
  induction width generalizing value with
  | zero => rfl
  | succ width ih => rw [digits, List.length_append, ih, List.length_singleton]

theorem exists_of_mem_digits {width value : Nat} {c : Char} (hmem : c ∈ digits width value) :
    ∃ digit < 10, c = Nat.digitChar digit := by
  induction width generalizing value with
  | zero => cases hmem
  | succ width ih =>
      rcases List.mem_append.mp hmem with hmem | hmem
      · exact ih hmem
      · exact ⟨value % 10, Nat.mod_lt _ (by decide), List.mem_singleton.mp hmem⟩

theorem eq_of_digits_eq {width value other : Nat} (hvalue : value < 10 ^ width)
    (hother : other < 10 ^ width) (hsame : digits width value = digits width other) :
    value = other := by
  induction width generalizing value other with
  | zero => omega
  | succ width ih =>
      obtain ⟨hfront, hlast⟩ := List.append_inj hsame (by rw [length_digits, length_digits])
      have hquotient := ih (by omega) (by omega) hfront
      have hdigit : ∀ a < 10, ∀ b < 10, Nat.digitChar a = Nat.digitChar b → a = b := by decide
      have hremainder := hdigit _ (Nat.mod_lt value (by decide)) _ (Nat.mod_lt other (by decide))
        (List.singleton_inj.mp hlast)
      omega

def numberedNames (width count : Nat) : List String :=
  (List.range count).map fun value => String.ofList (digits width value)

section NumberedNames

variable {width count : Nat} {name : String}

theorem length_numberedNames (width count : Nat) : (numberedNames width count).length = count := by
  rw [numberedNames, List.length_map, List.length_range]

theorem nodup_numberedNames (hcount : count ≤ 10 ^ width) : (numberedNames width count).Nodup := by
  refine List.pairwise_map.mpr (List.nodup_range.imp_of_mem ?_)
  intro value other hvalue hother hne hsame
  have hlt := List.mem_range.mp hvalue
  have hotherLt := List.mem_range.mp hother
  exact hne (eq_of_digits_eq (by omega) (by omega) (String.ofList_injective hsame))

theorem length_of_mem_numberedNames (hmem : name ∈ numberedNames width count) :
    (Text.utf8 name).length = width := by
  obtain ⟨value, -, rfl⟩ := List.mem_map.mp hmem
  have hones : (digits width value).map (fun c => (String.utf8EncodeChar c).length) =
      List.replicate (digits width value).length 1 := by
    refine List.map_eq_replicate_iff.mpr fun c hdigit => ?_
    obtain ⟨digit, hlt, rfl⟩ := exists_of_mem_digits hdigit
    have hsize : ∀ digit < 10, (Nat.digitChar digit).utf8Size = 1 := by decide
    rw [String.length_utf8EncodeChar]
    exact hsize digit hlt
  rw [Text.utf8_eq_flatMap, String.toList_ofList, List.length_flatMap, hones,
    List.sum_replicate_nat, Nat.mul_one, length_digits]

theorem isEntryName_of_mem_numberedNames (hpositive : 0 < width) (hwidth : width ≤ maxNameLength)
    (hmem : name ∈ numberedNames width count) : IsEntryName name := by
  have hlength := length_of_mem_numberedNames hmem
  obtain ⟨value, -, rfl⟩ := List.mem_map.mp hmem
  have hchars : ∀ c ∈ digits width value, c ≠ '/' ∧ c ≠ '.' ∧ c ≠ Char.ofNat 0 := by
    intro c hdigit
    obtain ⟨digit, hlt, rfl⟩ := exists_of_mem_digits hdigit
    have hother : ∀ digit < 10, Nat.digitChar digit ≠ '/' ∧ Nat.digitChar digit ≠ '.' ∧
      Nat.digitChar digit ≠ Char.ofNat 0 := by decide
    exact hother digit hlt
  have hslash : '/' ∉ digits width value := fun hdigit => (hchars _ hdigit).1 rfl
  have hnul : Char.ofNat 0 ∉ digits width value := fun hdigit => (hchars _ hdigit).2.2 rfl
  have hdot : ∀ text : String, '.' ∈ text.toList → String.ofList (digits width value) ≠ text := by
    rintro text hdigit rfl
    rw [String.toList_ofList] at hdigit
    exact (hchars _ hdigit).2.1 rfl
  have hempty : digits width value ≠ [] :=
    List.length_pos_iff.mp (by rw [length_digits]; exact hpositive)
  refine ⟨?_, ?_, by rw [hlength]; exact hwidth⟩
  · simp [Listing.isEntryName, hslash, hempty, hdot "." (by decide), hdot ".." (by decide)]
  · simpa [isStorableName, hnul, hdot ".." (by decide), ← Text.length_utf8, hlength] using hwidth

end NumberedNames

namespace Tree

variable {tree : Tree} {target name : String} {names : List String}

/-- Whether a tree has nothing but links in its root, one for each of some names and all with the
same target. -/
structure IsFlat (tree : Tree) (target : String) (names : List String) : Prop where
  size_eq : tree.size = names.length + 1
  root : ∃ entries, tree.node? root = some (Node.new (.directory entries) (tree.clock Staging.root))
  link : ∀ id < tree.size, id ≠ Staging.root →
    tree.node? id = some (Node.new (.symlink target) (tree.clock id))
  mem_iff : ∀ name, name ∈ names ↔ ∃ child, tree.child? Staging.root name = some child

theorem isFlat_new (clock : NodeId → UInt32) (target : String) : (new clock).IsFlat target [] := by
  refine ⟨rfl, ⟨∅, rfl⟩, fun id hid hne => absurd (Nat.lt_one_iff.mp hid) hne, ?_⟩
  intro name
  refine iff_of_false List.not_mem_nil ?_
  rintro ⟨child, hchild⟩
  obtain ⟨hlow, hhigh⟩ := (wellFormed_new clock).child_lt hchild
  exact absurd (Nat.lt_one_iff.mp hhigh) (Nat.ne_of_gt hlow)

theorem IsFlat.root_isDirectory (hflat : tree.IsFlat target names) :
    tree.isDirectory Staging.root = true := by
  obtain ⟨entries, hroot⟩ := hflat.root
  exact isDirectory_iff.mpr ⟨entries, _, hroot⟩

theorem IsFlat.node?_ne_file (hflat : tree.IsFlat target names) (id : NodeId) (data : Buffer)
    (attributes : Attributes) : tree.node? id ≠ some ⟨.file data, attributes⟩ := by
  intro hfile
  by_cases hroot : id = Staging.root
  · obtain ⟨entries, hnode⟩ := hflat.root
    rw [hroot, hnode] at hfile
    cases hfile
  · rw [hflat.link id (lt_size_of_node? hfile) hroot] at hfile
    cases hfile

theorem IsFlat.insert (hflat : tree.IsFlat target names) (hnew : name ∉ names) :
    (tree.insert Staging.root name (.symlink target)).2.IsFlat target (names ++ [name]) := by
  have hdirectory := hflat.root_isDirectory
  have hroot := lt_size_of_isDirectory hdirectory
  have hfree : tree.child? Staging.root name = none := by
    refine Option.eq_none_iff_forall_ne_some.mpr fun child hchild => ?_
    exact hnew ((hflat.mem_iff name).mpr ⟨child, hchild⟩)
  refine ⟨?_, ?_, ?_, ?_⟩
  · rw [size_insert, hflat.size_eq, List.length_append, List.length_singleton]
  · obtain ⟨entries, hnode⟩ := hflat.root
    refine ⟨entries.insert name tree.size, ?_⟩
    rw [node?_insert hroot, if_pos rfl, hnode]
    rfl
  · intro id hid hne
    rw [size_insert] at hid
    rw [node?_insert hroot, if_neg (Ne.symm hne)]
    split
    · rename_i hsame
      rw [hsame]
      rfl
    · rename_i hold
      exact hflat.link id (Nat.lt_of_le_of_ne (Nat.le_of_lt_succ hid) hold) hne
  · intro other
    rw [List.mem_append, List.mem_singleton, hflat.mem_iff]
    constructor
    · rintro (⟨child, hchild⟩ | rfl)
      · exact ⟨child, child?_insert_of_child? hroot hfree hchild⟩
      · exact ⟨_, child?_insert_self hdirectory⟩
    · rintro ⟨child, hchild⟩
      rcases child?_insert hroot rfl hchild with ⟨-, hname, -⟩ | hold
      · exact .inr hname
      · exact .inl ⟨child, hold⟩

theorem IsFlat.run_symlink (hflat : tree.IsFlat target names) (hnew : name ∉ names)
    (hname : IsEntryName name)
    (htarget : 0 < target.utf8ByteSize ∧ target.utf8ByteSize ≤ maxLinkTarget) :
    (symlink target name).run tree =
      (.ok tree.size, (tree.insert Staging.root name (.symlink target)).2) := by
  have hnames : Staging.names name = .ok [name] := by
    unfold Staging.names
    dsimp only
    rw [hname.segments_eq, if_pos (by simpa using hname.storable)]
  have hparent : tree.parentOf name = .ok (Staging.root, some name) := by
    rw [parentOf, hnames, Except.ok_bind]
    rfl
  have hfree : ¬(tree.child? Staging.root name).isSome = true := by
    rw [Option.isSome_iff_exists, ← hflat.mem_iff]
    exact hnew
  rw [symlink, Action.run_bind_of_ok (Action.run_get tree), hparent,
    Action.run_bind_of_ok (Action.run_lift _ _)]
  dsimp only
  rw [if_neg (by omega), if_neg hfree]
  rfl

/-- The root has an entry for each name, so that a sum over entries is one over names. -/
theorem IsFlat.sum_children (hflat : tree.IsFlat target names) (htree : tree.WellFormed)
    (hnodup : names.Nodup) {width : Nat}
    (hwidth : ∀ name ∈ names, (Text.utf8 name).length = width) (extra : Nat) :
    ((tree.children Staging.root).map fun entry => extra + (Text.utf8 entry.1).length).sum =
      names.length * (extra + width) := by
  have hlow : names.length ≤ (tree.children Staging.root).length := by
    rw [← List.length_map Prod.fst]
    refine hnodup.length_le_of_subset fun name hmem => ?_
    obtain ⟨child, hchild⟩ := (hflat.mem_iff name).mp hmem
    exact List.mem_map.mpr ⟨(name, child), mem_children.mpr hchild, rfl⟩
  have hhigh := Build.length_children_lt htree Staging.root
  rw [hflat.size_eq] at hhigh
  have hlengths : (tree.children Staging.root).map
        (fun entry => extra + (Text.utf8 entry.1).length) =
      List.replicate (tree.children Staging.root).length (extra + width) := by
    refine List.map_eq_replicate_iff.mpr ?_
    rintro ⟨name, child⟩ hmem
    dsimp only
    rw [hwidth name ((hflat.mem_iff name).mpr ⟨child, mem_children.mp hmem⟩)]
  rw [hlengths, List.sum_replicate_nat,
    Nat.le_antisymm (Nat.le_of_lt_succ hhigh) hlow]

end Tree

end TreeImage.Staging
