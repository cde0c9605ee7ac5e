import TreeImage.Proofs.Error.Action
import TreeImage.Proofs.Staging.Tree

namespace TreeImage

namespace Walk

variable {σ α β : Type}

theorem mem_sortEntries {entries : List Entry} {entry : Entry} :
    entry ∈ sortEntries entries ↔ entry ∈ entries := by
  unfold sortEntries
  simp only [List.mem_map, List.mem_mergeSort]
  constructor
  · rintro ⟨_, ⟨other, hmem, rfl⟩, rfl⟩
    exact hmem
  · exact fun hmem => ⟨_, ⟨entry, hmem, rfl⟩, rfl⟩

theorem visitSiblings_congr {visitOne other : Entry → Action σ Decision} {entries : List Entry}
    (hsame : ∀ entry ∈ entries, visitOne entry = other entry) :
    visitSiblings visitOne entries = visitSiblings other entries := by
  induction entries with
  | nil => rfl
  | cons entry rest ih =>
      have hrest := ih fun next hmem => hsame next (List.mem_cons_of_mem _ hmem)
      rw [visitSiblings, visitSiblings, hsame entry List.mem_cons_self, hrest]

/-- The visitor that answers by all visits so far, and keeps them. -/
def Visitor.ofHistory (answer : List Visit → Except Error Decision) : Visitor (List Visit) :=
  fun visit history => (answer (history ++ [visit]), history ++ [visit])

def Visit.IsClear (visit : Visit) : Prop := visit.entry.isSome = true ∧ visit.failure = none

/-- Whether a step makes clear visits only, and fails only as the visitor does. -/
def Clears (answer : List Visit → Except Error Decision) (step : Action (List Visit) α) : Prop :=
  ∀ history, (∀ visit ∈ history, visit.IsClear) →
    (∀ visit ∈ (step.run history).2, visit.IsClear) ∧
      ∀ error, (step.run history).1 = .error error → answer (step.run history).2 = .error error

variable {answer : List Visit → Except Error Decision}

theorem clears_pure (value : α) : Clears answer (pure value) :=
  fun _ hclear => ⟨hclear, nofun⟩

theorem Clears.bind {step : Action (List Visit) α} {next : α → Action (List Visit) β}
    (hstep : Clears answer step) (hnext : ∀ value, Clears answer (next value)) :
    Clears answer (step >>= next) := by
  intro history hclear
  obtain ⟨hmade, hfailed⟩ := hstep history hclear
  rcases hrun : step.run history with ⟨error | value, middle⟩
  · rw [hrun] at hmade hfailed
    rw [Action.run_bind_of_error hrun]
    exact ⟨hmade, fun _ herror => Except.error.inj herror ▸ hfailed error rfl⟩
  · rw [hrun] at hmade
    rw [Action.run_bind_of_ok hrun]
    exact hnext value middle hmade

theorem clears_visit (path : String) (entry : Entry) :
    Clears answer (Visitor.ofHistory answer ⟨path, some entry, none⟩) := by
  intro history hclear
  refine ⟨?_, fun error herror => herror⟩
  intro visit hmem
  rcases List.mem_append.mp hmem with hmem | hmem
  · exact hclear visit hmem
  · rw [List.mem_singleton.mp hmem]
    exact ⟨rfl, rfl⟩

theorem clears_visitSiblings {visitOne : Entry → Action (List Visit) Decision}
    {entries : List Entry} (hvisit : ∀ entry ∈ entries, Clears answer (visitOne entry)) :
    Clears answer (visitSiblings visitOne entries) := by
  induction entries with
  | nil => exact clears_pure _
  | cons entry rest ih =>
      have hrest := ih fun next hmem => hvisit next (List.mem_cons_of_mem _ hmem)
      rw [visitSiblings]
      refine (hvisit entry List.mem_cons_self).bind fun decision => ?_
      cases decision with
      | proceed => exact hrest
      | skip =>
          dsimp only
          split
          · exact hrest
          · exact clears_pure _
      | stop => exact clears_pure _

end Walk

namespace Staging.Tree

open Walk

variable {σ : Type} {tree : Tree} {path : String} {id : Nat}

/-- Whether entries are those of a directory, in any order. -/
def HasEntries (tree : Tree) (id : NodeId) (entries : List Entry) : Prop :=
  ∀ entry ∈ entries, ∃ child, tree.child? id entry.name = some child ∧ entry.kind = tree.kind child

theorem exists_list (hlookup : tree.lookup path = .ok id)
    (hdirectory : tree.isDirectory id = true) :
    ∃ entries, Walk.list tree.source path = .ok entries ∧ tree.HasEntries id entries := by
  refine ⟨_, by rw [Walk.list, source_of_lookup hlookup hdirectory]; rfl, ?_⟩
  intro entry hmem
  obtain ⟨⟨name, child⟩, hchild, rfl⟩ := List.mem_map.mp (mem_sortEntries.mp hmem)
  exact ⟨child, mem_children.mp hchild, rfl⟩

theorem WellFormed.exists_child (htree : tree.WellFormed) (hlookup : tree.lookup path = .ok id)
    {entries : List Entry} (hentries : tree.HasEntries id entries) {entry : Entry}
    (hmem : entry ∈ entries) (hdirectory : entry.isDirectory = true) :
    ∃ child : Nat, id < child ∧ tree.lookup (Text.joinPath path entry.name) = .ok child ∧
      tree.isDirectory child = true := by
  obtain ⟨child, hchild, hkind⟩ := hentries entry hmem
  refine ⟨child, (htree.child_lt hchild).1, htree.lookup_joinPath hlookup hchild, ?_⟩
  rw [isDirectory_iff_kind, ← hkind]
  exact beq_iff_eq.mp hdirectory

/-- Whether a source lists the directories of a tree as the tree does. -/
def IsListedBy (tree : Tree) (source : Source) : Prop :=
  ∀ path id, tree.lookup path = .ok id → tree.isDirectory id = true →
    source path = tree.source path

/-- What is below a directory is visited the same in both sources.  The induction is on the levels
that are left; an entry is a newer node than its directory, so that none is lacking. -/
theorem visitBelow_eq (htree : tree.WellFormed) {source : Source} (hlisted : tree.IsListedBy source)
    (visit : Visitor σ) {depth other : Nat} (hlookup : tree.lookup path = .ok id)
    (hid : id < tree.size) (hdepth : tree.size ≤ depth + id) (hother : tree.size ≤ other + id)
    {entries : List Entry} (hentries : tree.HasEntries id entries) :
    visitBelow source visit depth path entries =
      visitBelow tree.source visit other path entries := by
  induction depth generalizing other path id entries with
  | zero => omega
  | succ depth ih =>
      obtain ⟨other, rfl⟩ : ∃ less, other = less + 1 := ⟨other - 1, by omega⟩
      rw [visitBelow, visitBelow]
      refine visitSiblings_congr fun entry hmem => ?_
      unfold visitEntry
      by_cases hdirectory : entry.isDirectory = true
      · obtain ⟨child, hlt, hchild, hchildDirectory⟩ :=
          htree.exists_child hlookup hentries hmem hdirectory
        obtain ⟨children, hlist, hchildren⟩ := exists_list hchild hchildDirectory
        have hsame : Walk.list source (Text.joinPath path entry.name) = .ok children := by
          rw [Walk.list, hlisted _ _ hchild hchildDirectory]
          exact hlist
        have hbelow := ih hchild (lt_size_of_isDirectory hchildDirectory)
          (show tree.size ≤ depth + child by omega) (show tree.size ≤ other + child by omega)
          hchildren
        rw [if_pos hdirectory, if_pos hdirectory, hlist, hsame]
        dsimp only
        rw [hbelow]
      · rw [if_neg hdirectory, if_neg hdirectory]

theorem clears_visitBelow (htree : tree.WellFormed) (answer : List Visit → Except Error Decision)
    {depth : Nat} (hlookup : tree.lookup path = .ok id) (hid : id < tree.size)
    (hdepth : tree.size ≤ depth + id) {entries : List Entry}
    (hentries : tree.HasEntries id entries) :
    Clears answer (visitBelow tree.source (Visitor.ofHistory answer) depth path entries) := by
  induction depth generalizing path id entries with
  | zero => omega
  | succ depth ih =>
      rw [visitBelow]
      refine clears_visitSiblings fun entry hmem => ?_
      unfold visitEntry
      by_cases hdirectory : entry.isDirectory = true
      · obtain ⟨child, hlt, hchild, hchildDirectory⟩ :=
          htree.exists_child hlookup hentries hmem hdirectory
        obtain ⟨children, hlist, hchildren⟩ := exists_list hchild hchildDirectory
        rw [if_pos hdirectory, hlist]
        refine (clears_visit _ entry).bind fun decision => ?_
        cases decision with
        | proceed =>
            exact ih hchild (lt_size_of_isDirectory hchildDirectory) (by omega) hchildren
        | skip => exact clears_pure _
        | stop => exact clears_pure _
      · rw [if_neg hdirectory]
        exact clears_visit _ entry

section Root

variable (htree : tree.WellFormed) (hlookup : tree.lookup path = .ok id)
  (hdirectory : tree.isDirectory id = true)
include htree hlookup hdirectory

theorem walk_eq {source : Source} (hlisted : tree.IsListedBy source) {depth : Nat}
    (hdepth : tree.size ≤ depth) (visit : Visitor σ) :
    TreeImage.walk source depth path visit = tree.walk path visit := by
  obtain ⟨entries, hlist, hentries⟩ := exists_list hlookup hdirectory
  have hsame : Walk.list source path = .ok entries := by
    rw [Walk.list, hlisted path id hlookup hdirectory]
    exact hlist
  have hbelow := visitBelow_eq htree hlisted visit hlookup (lt_size_of_isDirectory hdirectory)
    (Nat.le_add_right_of_le hdepth) (Nat.le_add_right tree.size id) hentries
  unfold Tree.walk TreeImage.walk
  rw [hlist, hsame]
  dsimp only
  rw [hbelow]

theorem clears_walk (answer : List Visit → Except Error Decision) :
    Clears answer (tree.walk path (Visitor.ofHistory answer)) := by
  obtain ⟨entries, hlist, hentries⟩ := exists_list hlookup hdirectory
  unfold Tree.walk TreeImage.walk
  rw [hlist]
  refine (clears_visitBelow htree answer hlookup (lt_size_of_isDirectory hdirectory)
    (Nat.le_add_right _ _) hentries).bind fun _ => clears_pure ()

end Root

end Staging.Tree

end TreeImage
