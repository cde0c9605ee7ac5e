import TreeImage.Build.Numbering
import TreeImage.Proofs.Staging.Tree

namespace TreeImage.Build

open Staging (NodeId Tree)

variable {tree : Tree} {x y child : NodeId} {name : String}

/-- A node is another one or is below it. -/
inductive IsBelow (tree : Tree) (x : NodeId) : NodeId → Prop
  | self : IsBelow tree x x
  | entry {y child : NodeId} {name : String} (habove : IsBelow tree x y)
      (hchild : tree.child? y name = some child) : IsBelow tree x child

section Below

variable (htree : tree.WellFormed)
include htree

theorem IsBelow.le (hbelow : IsBelow tree x y) : x ≤ y := by
  induction hbelow with
  | self => exact Nat.le_refl _
  | entry _ hchild ih => exact Nat.le_trans ih (Nat.le_of_lt (htree.child_lt hchild).1)

theorem IsBelow.linear {other : NodeId} (hbelow : IsBelow tree x y)
    (hother : IsBelow tree other y) : IsBelow tree x other ∨ IsBelow tree other x := by
  induction hbelow with
  | self => exact Or.inr hother
  | entry habove hchild ih =>
      cases hother with
      | self => exact Or.inl (.entry habove hchild)
      | entry hotherAbove hotherChild =>
          obtain ⟨rfl, -⟩ := htree.parent_unique hchild hotherChild
          exact ih hotherAbove

theorem eq_of_isBelow_sibling {other : NodeId} {otherName : String}
    (hchild : tree.child? x name = some child) (hother : tree.child? x otherName = some other)
    (hbelow : IsBelow tree child other) : child = other := by
  cases hbelow with
  | self => rfl
  | entry habove hentry =>
      obtain ⟨rfl, -⟩ := htree.parent_unique hentry hother
      exact absurd (habove.le htree) (Nat.not_le_of_lt (htree.child_lt hchild).1)

end Below

theorem IsBelow.trans {z : NodeId} (hbelow : IsBelow tree x y) (hnext : IsBelow tree y z) :
    IsBelow tree x z := by
  induction hnext with
  | self => exact hbelow
  | entry _ hchild ih => exact .entry ih hchild

theorem isBelow_of_descend {names : List String} {last : NodeId}
    (hdescend : tree.descend x names = some last) : IsBelow tree x last := by
  induction names generalizing x with
  | nil =>
      cases hdescend
      exact .self
  | cons name names ih =>
      obtain ⟨child, hchild, hrest⟩ := Tree.descend_cons_eq_some.mp hdescend
      exact (IsBelow.entry .self hchild).trans (ih hrest)

/-- The post-order of what is below a node, at most `depth` levels of it. -/
def postOrderOf (tree : Tree) : (depth : Nat) → NodeId → List NodeId
  | 0, _ => []
  | depth + 1, id =>
      (tree.children id).flatMap (fun entry => postOrderOf tree depth entry.2) ++ [id]

theorem postOrderBefore_eq (depth : Nat) (id : NodeId) (later : List NodeId) :
    postOrderBefore tree depth id later = postOrderOf tree depth id ++ later := by
  induction depth generalizing id later with
  | zero => rfl
  | succ depth ih =>
      rw [postOrderBefore, postOrderOf, List.append_assoc, List.singleton_append]
      induction tree.children id with
      | nil => rfl
      | cons entry entries ihEntries =>
          rw [List.foldr_cons, ih, ihEntries, List.flatMap_cons, List.append_assoc]

theorem isBelow_of_mem_postOrderOf {depth : Nat} (hmem : y ∈ postOrderOf tree depth x) :
    IsBelow tree x y := by
  induction depth generalizing x with
  | zero => cases hmem
  | succ depth ih =>
      rw [postOrderOf, List.mem_append, List.mem_flatMap, List.mem_singleton] at hmem
      rcases hmem with ⟨⟨name, child⟩, hchild, hmem⟩ | rfl
      · exact (IsBelow.entry .self (Tree.mem_children.mp hchild)).trans (ih hmem)
      · exact .self

theorem nodup_postOrderOf (htree : tree.WellFormed) (depth : Nat) (x : NodeId) :
    (postOrderOf tree depth x).Nodup := by
  induction depth generalizing x with
  | zero => exact List.nodup_nil
  | succ depth ih =>
      rw [postOrderOf, List.nodup_append]
      refine ⟨?_, by simp, ?_⟩
      · refine List.pairwise_flatMap.mpr ⟨fun entry _ => ih entry.2, ?_⟩
        refine (tree.children_sorted x).imp_of_mem ?_
        rintro ⟨name, child⟩ ⟨otherName, other⟩ hchild hother hlt y hy z hz rfl
        rw [Tree.mem_children] at hchild hother
        -- siblings with something in common below them are the same
        have hsame : child = other := by
          rcases (isBelow_of_mem_postOrderOf hy).linear htree (isBelow_of_mem_postOrderOf hz) with
            hbelow | hbelow
          · exact eq_of_isBelow_sibling htree hchild hother hbelow
          · exact (eq_of_isBelow_sibling htree hother hchild hbelow).symm
        subst hsame
        obtain ⟨-, rfl⟩ := htree.parent_unique hchild hother
        exact List.lt_irrefl _ hlt
      · intro y hy z hz
        rw [List.mem_singleton.mp hz]
        rintro rfl
        obtain ⟨⟨name, child⟩, hchild, hmem⟩ := List.mem_flatMap.mp hy
        have hlt := (htree.child_lt (Tree.mem_children.mp hchild)).1
        exact absurd ((isBelow_of_mem_postOrderOf hmem).le htree) (Nat.not_le_of_lt hlt)

/-- Whether every node of an order comes after its entries, some of which were done before. -/
def EntriesFirst (tree : Tree) : (done order : List NodeId) → Prop
  | _, [] => True
  | done, id :: order =>
      (∀ name child, tree.child? id name = some child → child ∈ done) ∧
        EntriesFirst tree (done ++ [id]) order

variable {done order : List NodeId}

theorem EntriesFirst.mono (hfirst : EntriesFirst tree done order) {more : List NodeId}
    (hmore : done ⊆ more) : EntriesFirst tree more order := by
  induction order generalizing done more with
  | nil => exact trivial
  | cons id order ih =>
      refine ⟨fun name child hchild => hmore (hfirst.1 name child hchild), ih hfirst.2 ?_⟩
      intro other hmem
      rcases List.mem_append.mp hmem with hmem | hmem
      · exact List.mem_append_left _ (hmore hmem)
      · exact List.mem_append_right _ hmem

theorem EntriesFirst.append {rest : List NodeId} (hfirst : EntriesFirst tree done order)
    (hrest : EntriesFirst tree (done ++ order) rest) : EntriesFirst tree done (order ++ rest) := by
  induction order generalizing done with
  | nil => rwa [List.append_nil] at hrest
  | cons id order ih =>
      refine ⟨hfirst.1, ih hfirst.2 ?_⟩
      rwa [List.append_assoc, List.singleton_append]

theorem EntriesFirst.flatMap {α : Type} {values : List α} {order : α → List NodeId}
    (horder : ∀ value ∈ values, EntriesFirst tree [] (order value)) :
    EntriesFirst tree [] (values.flatMap order) := by
  induction values with
  | nil => exact trivial
  | cons value values ih =>
      rw [List.flatMap_cons]
      refine (horder value List.mem_cons_self).append ?_
      exact (ih fun other hmem => horder other (List.mem_cons_of_mem _ hmem)).mono
        (List.nil_subset _)

theorem mem_postOrderOf_self {depth : Nat} (hdepth : 0 < depth) : x ∈ postOrderOf tree depth x := by
  cases depth with
  | zero => cases hdepth
  | succ depth => simp [postOrderOf]

/-- With enough levels, all entries come before their directories. -/
theorem entriesFirst_postOrderOf (htree : tree.WellFormed) {depth : Nat}
    (hdepth : tree.size ≤ depth + x) : EntriesFirst tree [] (postOrderOf tree depth x) := by
  induction depth generalizing x with
  | zero => exact trivial
  | succ depth ih =>
      have hentries : ∀ entry ∈ tree.children x, tree.size ≤ depth + entry.2 := by
        rintro ⟨name, child⟩ hmem
        have hlt : x + 1 ≤ child := (htree.child_lt (Tree.mem_children.mp hmem)).1
        exact Nat.le_trans hdepth (by
          rw [Nat.add_assoc, Nat.add_comm 1 x]
          exact Nat.add_le_add_left hlt depth)
      rw [postOrderOf]
      refine (EntriesFirst.flatMap fun entry hmem => ih (hentries entry hmem)).append ⟨?_, trivial⟩
      intro name child hchild
      have hmem := Tree.mem_children.mpr hchild
      have hsize : child < depth + child :=
        Nat.lt_of_lt_of_le (htree.child_lt hchild).2 (hentries _ hmem)
      exact List.mem_flatMap.mpr ⟨(name, child), hmem,
        mem_postOrderOf_self (Nat.pos_of_lt_add_left hsize)⟩

theorem postOrder_eq (tree : Tree) :
    postOrder tree = postOrderOf tree tree.size Staging.root := by
  rw [postOrder, postOrderBefore_eq, List.append_nil]

theorem nodup_postOrder (htree : tree.WellFormed) : (postOrder tree).Nodup := by
  rw [postOrder_eq]
  exact nodup_postOrderOf htree _ _

theorem entriesFirst_postOrder (htree : tree.WellFormed) :
    EntriesFirst tree [] (postOrder tree) := by
  rw [postOrder_eq]
  exact entriesFirst_postOrderOf htree (Nat.le_add_right _ _)

theorem root_mem_postOrder (htree : tree.WellFormed) : Staging.root ∈ postOrder tree := by
  rw [postOrder_eq]
  exact mem_postOrderOf_self htree.root_lt

theorem lt_size_of_isBelow (htree : tree.WellFormed) (hx : x < tree.size)
    (hbelow : IsBelow tree x y) : y < tree.size := by
  cases hbelow with
  | self => exact hx
  | entry _ hchild => exact (htree.child_lt hchild).2

theorem length_postOrder_le (htree : tree.WellFormed) : (postOrder tree).length ≤ tree.size := by
  have hsubset : postOrder tree ⊆ List.range tree.size := by
    intro id hmem
    rw [postOrder_eq] at hmem
    exact List.mem_range.mpr
      (lt_size_of_isBelow htree htree.root_lt (isBelow_of_mem_postOrderOf hmem))
  have hlength := (nodup_postOrder htree).length_le_of_subset hsubset
  rwa [List.length_range] at hlength

theorem EntriesFirst.mem_of_child (hfirst : EntriesFirst tree done order)
    (hdone : ∀ id ∈ done, ∀ name child, tree.child? id name = some child → child ∈ done) :
    ∀ id ∈ done ++ order, ∀ name child, tree.child? id name = some child →
      child ∈ done ++ order := by
  induction order generalizing done with
  | nil =>
      rw [List.append_nil]
      exact hdone
  | cons id order ih =>
      have hrest := ih hfirst.2 (by
        intro other hmem name child hchild
        rcases List.mem_append.mp hmem with hmem | hmem
        · exact List.mem_append_left _ (hdone other hmem name child hchild)
        · rw [List.mem_singleton.mp hmem] at hchild
          exact List.mem_append_left _ (hfirst.1 name child hchild))
      rwa [List.append_assoc, List.singleton_append] at hrest

theorem mem_postOrder_of_child (htree : tree.WellFormed) (hx : x ∈ postOrder tree)
    (hchild : tree.child? x name = some child) : child ∈ postOrder tree :=
  (entriesFirst_postOrder htree).mem_of_child (fun _ hmem => nomatch hmem) x hx name child hchild

theorem mem_postOrder_of_isBelow (htree : tree.WellFormed)
    (hbelow : IsBelow tree Staging.root y) : y ∈ postOrder tree := by
  induction hbelow with
  | self => exact root_mem_postOrder htree
  | entry _ hchild ih => exact mem_postOrder_of_child htree ih hchild

end TreeImage.Build
