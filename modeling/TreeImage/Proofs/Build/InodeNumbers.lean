import Mathlib.Data.Set.Function
import Mathlib.Order.Interval.Set.Basic
import TreeImage.Proofs.Build.Tables

namespace TreeImage.Build

open Staging (NodeId Tree root)

variable {tree : Tree} {id child parent : NodeId} {name : String}

section Complete

variable (htree : tree.WellFormed)
include htree

theorem isBelow_root (hid : id < tree.size) : IsBelow tree root id := by
  induction id using Nat.strongRecOn with
  | _ id ih =>
      by_cases hroot : id = root
      · exact hroot ▸ .self
      · obtain ⟨parent, name, hchild⟩ := htree.attached hid hroot
        have hlt := (htree.child_lt hchild).1
        exact .entry (ih parent hlt (Nat.lt_trans hlt hid)) hchild

theorem mem_postOrder_iff : id ∈ postOrder tree ↔ id < tree.size := by
  constructor
  · intro hmem
    rw [postOrder_eq] at hmem
    exact lt_size_of_isBelow htree htree.root_lt (isBelow_of_mem_postOrderOf hmem)
  · intro hid
    exact mem_postOrder_of_isBelow htree (isBelow_root htree hid)

theorem length_postOrder : (postOrder tree).length = tree.size := by
  refine Nat.le_antisymm (length_postOrder_le htree) ?_
  have hsubset : List.range tree.size ⊆ postOrder tree := fun id hmem =>
    (mem_postOrder_iff htree).mpr (List.mem_range.mp hmem)
  have hlength := List.nodup_range.length_le_of_subset hsubset
  rwa [List.length_range] at hlength

theorem exists_postOrder_eq : ∃ front, postOrder tree = front ++ [root] := by
  have hsize : tree.size = tree.size - 1 + 1 := (Nat.sub_add_cancel htree.root_lt).symm
  rw [postOrder_eq, hsize]
  exact ⟨_, rfl⟩

theorem postOrder_root : (postOrder tree)[tree.size - 1]? = some root := by
  have hlength := length_postOrder htree
  obtain ⟨front, hfront⟩ := exists_postOrder_eq htree
  rw [hfront, List.length_append, List.length_singleton] at hlength
  rw [hfront, ← hlength, Nat.add_sub_cancel, List.getElem?_concat_length]

end Complete

theorem EntriesFirst.exists_lt {done order : List NodeId} (hfirst : EntriesFirst tree done order)
    {i : Nat} (hplace : order[i]? = some id) (hchild : tree.child? id name = some child) :
    child ∈ done ∨ ∃ j < i, order[j]? = some child := by
  induction order generalizing done i with
  | nil => cases hplace
  | cons first order ih =>
      cases i with
      | zero =>
          cases hplace
          exact Or.inl (hfirst.1 name child hchild)
      | succ i =>
          rcases ih hfirst.2 hplace with hmem | ⟨j, hj, hfound⟩
          · rcases List.mem_append.mp hmem with hmem | hmem
            · exact Or.inl hmem
            · obtain rfl := List.mem_singleton.mp hmem
              exact Or.inr ⟨0, Nat.succ_pos i, rfl⟩
          · exact Or.inr ⟨j + 1, Nat.succ_lt_succ hj, hfound⟩

namespace Numbering

theorem assign_of_notMem {order : List NodeId} (hid : id ∉ order) (next : Nat)
    (numbers : Array UInt32) : (assign order next numbers)[id]? = numbers[id]? := by
  induction order generalizing next numbers with
  | nil => rfl
  | cons first order ih =>
      have hne : first ≠ id := fun h => hid (h ▸ List.mem_cons_self)
      rw [assign, ih (fun hmem => hid (List.mem_cons_of_mem _ hmem)),
        Array.getElem?_setIfInBounds_ne hne]

theorem assign_of_getElem? {order : List NodeId} (hnodup : order.Nodup) {numbers : Array UInt32}
    (hid : id < numbers.size) {i : Nat} (hplace : order[i]? = some id) (next : Nat) :
    (assign order next numbers)[id]? = some (UInt32.ofNat (next + i)) := by
  induction order generalizing i next numbers with
  | nil => cases hplace
  | cons first order ih =>
      obtain ⟨hfirst, hrest⟩ := List.nodup_cons.mp hnodup
      cases i with
      | zero =>
          cases hplace
          rw [assign, assign_of_notMem hfirst, Array.getElem?_setIfInBounds_self_of_lt hid]
          rfl
      | succ i =>
          rw [assign, ih hrest (by rwa [Array.size_setIfInBounds]) hplace, Nat.add_assoc,
            Nat.add_comm 1 i]

section Numbers

variable (htree : tree.WellFormed) (hnodes : tree.size < 2 ^ 32 - 1)
include htree hnodes

theorem toNat_number {i : Nat} (hplace : (postOrder tree)[i]? = some id) :
    ((ofTree tree).number id).toNat = i + 1 := by
  have hid := (mem_postOrder_iff htree).mp (List.mem_of_getElem? hplace)
  have hi : i < tree.size :=
    length_postOrder htree ▸ (List.getElem?_eq_some_iff.mp hplace).1
  have hassigned : (ofTree tree).numbers[id]? = some (UInt32.ofNat (1 + i)) :=
    assign_of_getElem? (nodup_postOrder htree) (by rwa [Array.size_replicate]) hplace 1
  rw [number, hassigned, Option.getD_some, UInt32.toNat_ofNat', Nat.add_comm]
  exact Nat.mod_eq_of_lt (by omega)

theorem exists_place (hid : id < tree.size) :
    ∃ i < tree.size, (postOrder tree)[i]? = some id ∧ ((ofTree tree).number id).toNat = i + 1 := by
  obtain ⟨i, hplace⟩ := List.mem_iff_getElem?.mp ((mem_postOrder_iff htree).mpr hid)
  exact ⟨i, length_postOrder htree ▸ (List.getElem?_eq_some_iff.mp hplace).1, hplace,
    toNat_number htree hnodes hplace⟩

/-- The numbers from one to the number of nodes are those of the nodes. -/
theorem bijOn_number :
    Set.BijOn (fun id => ((ofTree tree).number id).toNat) (Set.Iio tree.size)
      (Set.Icc 1 tree.size) := by
  refine ⟨?_, ?_, ?_⟩
  · intro id hid
    obtain ⟨i, hi, -, hnumber⟩ := exists_place htree hnodes hid
    change ((ofTree tree).number id).toNat ∈ Set.Icc 1 tree.size
    rw [hnumber]
    exact Set.mem_Icc.mpr ⟨Nat.succ_pos i, hi⟩
  · intro id hid other hother hsame
    obtain ⟨i, -, hplace, hnumber⟩ := exists_place htree hnodes hid
    obtain ⟨j, -, hotherPlace, hotherNumber⟩ := exists_place htree hnodes hother
    have hindex : i = j := Nat.succ.inj (hnumber.symm.trans (hsame.trans hotherNumber))
    rw [hindex, hotherPlace] at hplace
    exact (Option.some.inj hplace).symm
  · intro number hnumber
    obtain ⟨hpositive, hle⟩ := Set.mem_Icc.mp hnumber
    have hlt : number - 1 < (postOrder tree).length := by
      rw [length_postOrder htree]
      omega
    have hplace := List.getElem?_eq_getElem hlt
    refine ⟨_, (mem_postOrder_iff htree).mp (List.mem_of_getElem? hplace), ?_⟩
    exact (toNat_number htree hnodes hplace).trans (Nat.sub_add_cancel hpositive)

theorem number_root : ((ofTree tree).number root).toNat = tree.size := by
  rw [toNat_number htree hnodes (postOrder_root htree)]
  exact Nat.sub_add_cancel htree.root_lt

theorem number_lt_of_child (hchild : tree.child? id name = some child) :
    ((ofTree tree).number child).toNat < ((ofTree tree).number id).toNat := by
  have hid := Tree.lt_size_of_isDirectory (Tree.isDirectory_of_child? hchild)
  obtain ⟨i, -, hplace, hnumber⟩ := exists_place htree hnodes hid
  rcases (entriesFirst_postOrder htree).exists_lt hplace hchild with hmem | ⟨j, hj, hfound⟩
  · cases hmem
  · rw [hnumber, toNat_number htree hnodes hfound]
    exact Nat.succ_lt_succ hj

theorem number_lt_of_isBelow (hbelow : IsBelow tree id child) (hne : child ≠ id) :
    ((ofTree tree).number child).toNat < ((ofTree tree).number id).toNat := by
  induction hbelow with
  | self => exact absurd rfl hne
  | @entry middle child name habove hchild ih =>
      have hlt := number_lt_of_child htree hnodes hchild
      by_cases hmiddle : middle = id
      · rwa [hmiddle] at hlt
      · exact Nat.lt_trans hlt (ih hmiddle)

end Numbers

/-- The parents that a node records: its own number for its entries. -/
theorem adopt_of_child {parents : Array (Option NodeId)} (hchild : tree.child? id name = some child)
    (hlt : child < parents.size) : (adopt tree parents id)[child]? = some (some id) := by
  have hmem := Tree.mem_children.mpr hchild
  unfold adopt
  generalize tree.children id = entries at hmem
  have hkept : ∀ (entries : List (String × NodeId)) (parents : Array (Option NodeId)),
      parents[child]? = some (some id) →
        (entries.foldl (fun parents entry => parents.setIfInBounds entry.2 (some id))
          parents)[child]? = some (some id) := by
    intro entries
    induction entries with
    | nil => exact fun _ h => h
    | cons entry entries ih =>
        intro parents h
        refine ih _ ?_
        rw [Array.getElem?_setIfInBounds]
        split
        · rename_i hsame
          rw [if_pos (hsame ▸ (Array.getElem?_eq_some_iff.mp h).1)]
        · exact h
  induction entries generalizing parents with
  | nil => cases hmem
  | cons entry entries ih =>
      rcases List.mem_cons.mp hmem with rfl | hmem
      · exact hkept entries _ (Array.getElem?_setIfInBounds_self_of_lt hlt)
      · exact ih (by rwa [Array.size_setIfInBounds]) hmem

theorem adopt_of_not_child {parents : Array (Option NodeId)}
    (hchild : ∀ name, tree.child? id name ≠ some child) :
    (adopt tree parents id)[child]? = parents[child]? := by
  have hne : ∀ entry ∈ tree.children id, entry.2 ≠ child := by
    rintro ⟨name, other⟩ hmem rfl
    exact hchild name (Tree.mem_children.mp hmem)
  unfold adopt
  generalize tree.children id = entries at hne
  induction entries generalizing parents with
  | nil => rfl
  | cons entry entries ih =>
      rw [List.foldl_cons, ih fun other hmem => hne other (List.mem_cons_of_mem _ hmem),
        Array.getElem?_setIfInBounds_ne (hne entry List.mem_cons_self)]

theorem size_adopt (parents : Array (Option NodeId)) (id : NodeId) :
    (adopt tree parents id).size = parents.size := by
  unfold adopt
  induction tree.children id generalizing parents with
  | nil => rfl
  | cons entry entries ih => rw [List.foldl_cons, ih, Array.size_setIfInBounds]

theorem foldl_adopt_of_not_child {order : List NodeId}
    (hchild : ∀ id ∈ order, ∀ name, tree.child? id name ≠ some child)
    (parents : Array (Option NodeId)) :
    (order.foldl (adopt tree) parents)[child]? = parents[child]? := by
  induction order generalizing parents with
  | nil => rfl
  | cons id order ih =>
      rw [List.foldl_cons, ih fun other hmem => hchild other (List.mem_cons_of_mem _ hmem),
        adopt_of_not_child (hchild id List.mem_cons_self)]

theorem foldl_adopt_of_child (htree : tree.WellFormed) {order : List NodeId} (hid : id ∈ order)
    (hchild : tree.child? id name = some child) {parents : Array (Option NodeId)}
    (hlt : child < parents.size) :
    (order.foldl (adopt tree) parents)[child]? = some (some id) := by
  induction order generalizing parents with
  | nil => cases hid
  | cons first order ih =>
      rw [List.foldl_cons]
      by_cases hmem : id ∈ order
      · exact ih hmem (by rwa [size_adopt])
      · obtain rfl := (List.mem_cons.mp hid).resolve_right hmem
        rw [foldl_adopt_of_not_child, adopt_of_child hchild hlt]
        intro other hother otherName hotherChild
        exact hmem ((htree.parent_unique hchild hotherChild).1 ▸ hother)

section Parents

variable (htree : tree.WellFormed)
include htree

theorem parent_of_child (hchild : tree.child? id name = some child) :
    (ofTree tree).parent child = some id := by
  have hid := Tree.lt_size_of_isDirectory (Tree.isDirectory_of_child? hchild)
  have hadopted : (ofTree tree).parents[child]? = some (some id) :=
    foldl_adopt_of_child htree ((mem_postOrder_iff htree).mpr hid) hchild (by
      rw [Array.size_replicate]
      exact (htree.child_lt hchild).2)
  rw [parent, hadopted, Option.join_some]

theorem parent_root : (ofTree tree).parent root = none := by
  have hadopted : (ofTree tree).parents[root]? =
      (Array.replicate tree.size (none : Option NodeId))[root]? := by
    refine foldl_adopt_of_not_child ?_ _
    intro id hid name hchild
    exact absurd (htree.child_lt hchild).1 (Nat.not_lt_zero id)
  rw [parent, hadopted, Array.getElem?_replicate, if_pos htree.root_lt]
  rfl

theorem parentNumber_of_child (hchild : tree.child? id name = some child) :
    (ofTree tree).parentNumber child = (ofTree tree).number id := by
  rw [parentNumber, parent_of_child htree hchild]

theorem toNat_parentNumber_root (hnodes : tree.size < 2 ^ 32 - 1) :
    ((ofTree tree).parentNumber root).toNat = tree.size + 1 := by
  have hcount : (ofTree tree).count = tree.size := length_postOrder htree
  rw [parentNumber, parent_root htree, hcount]
  change (UInt32.ofNat tree.size + 1).toNat = tree.size + 1
  rw [UInt32.toNat_add, UInt32.toNat_ofNat']
  change (tree.size % 2 ^ 32 + 1) % 2 ^ 32 = tree.size + 1
  omega

end Parents

end Numbering

theorem length_children_lt (htree : tree.WellFormed) (id : NodeId) :
    (tree.children id).length < tree.size := by
  have hnodup : (root :: (tree.children id).map Prod.snd).Nodup := by
    refine List.nodup_cons.mpr ⟨?_, ?_⟩
    · intro hmem
      obtain ⟨⟨name, child⟩, hchild, hroot⟩ := List.mem_map.mp hmem
      have hlt := (htree.child_lt (Tree.mem_children.mp hchild)).1
      rw [show child = root from hroot] at hlt
      exact Nat.not_lt_zero id hlt
    · refine List.pairwise_map.mpr ((tree.children_sorted id).imp_of_mem ?_)
      rintro ⟨name, child⟩ ⟨otherName, other⟩ hchild hother hlt hsame
      rw [Tree.mem_children] at hchild hother
      rw [show child = other from hsame] at hchild
      obtain ⟨-, rfl⟩ := htree.parent_unique hchild hother
      exact List.lt_irrefl _ hlt
  have hsubset : root :: (tree.children id).map Prod.snd ⊆ List.range tree.size := by
    intro other hmem
    rw [List.mem_range]
    rcases List.mem_cons.mp hmem with rfl | hmem
    · exact htree.root_lt
    · obtain ⟨⟨name, child⟩, hchild, rfl⟩ := List.mem_map.mp hmem
      exact (htree.child_lt (Tree.mem_children.mp hchild)).2
  have hlength := hnodup.length_le_of_subset hsubset
  rwa [List.length_range, List.length_cons, List.length_map] at hlength

theorem toNat_directoryLinks (htree : tree.WellFormed) (hnodes : tree.size < 2 ^ 32 - 1)
    (id : NodeId) :
    (Tables.directoryLinks tree id).toNat =
      2 + (tree.children id).countP fun entry => tree.isDirectory entry.2 := by
  have hlength := length_children_lt htree id
  have hcount := List.countP_le_length
    (p := fun entry : String × NodeId => tree.isDirectory entry.2) (l := tree.children id)
  unfold Tables.directoryLinks
  rw [UInt32.toNat_add, UInt32.toNat_ofNat']
  change (2 + _ % 2 ^ 32) % 2 ^ 32 = _
  omega

end TreeImage.Build
