import TreeImage.Proofs.Bytes.Buffer
import TreeImage.Proofs.Error.Action
import TreeImage.Proofs.Format.Record
import TreeImage.Proofs.Staging.Tree
import TreeImage.Staging.Edit

namespace TreeImage

namespace Staging

structure Content.IsNew (content : Content) : Prop where
  entries_eq : content.entries = ∅
  file_le : ∀ data, content = .file data → data.size ≤ maxFileSize
  target_size : ∀ target, content = .symlink target →
    0 < target.utf8ByteSize ∧ target.utf8ByteSize ≤ Format.maxLinkTarget

def Content.bytes : Content → Bytes
  | .file data => data.toList
  | _ => []

namespace Tree

variable {tree : Tree} {parent id child : NodeId} {name : String} {content : Content}

def fileBytes (tree : Tree) (id : NodeId) : Bytes :=
  (tree.node? id).elim [] fun node => node.content.bytes

def withEntry (name : String) (child : NodeId) : Node → Node
  | ⟨.directory entries, attributes⟩ => ⟨.directory (entries.insert name child), attributes⟩
  | node => node

@[simp] theorem bytes_withEntry (name : String) (child : NodeId) (node : Node) :
    (withEntry name child node).content.bytes = node.content.bytes := by
  obtain ⟨content, attributes⟩ := node
  cases content
  all_goals rfl

theorem node?_insert (hparent : parent < tree.size) (id : NodeId) :
    (tree.insert parent name content).2.node? id =
      if parent = id then (tree.node? id).map (withEntry name tree.size)
      else if id = tree.size then some (Node.new content (tree.clock tree.size))
      else tree.node? id := by
  obtain ⟨nodes, clock⟩ := tree
  have hmodify : (Tree.insert ⟨nodes, clock⟩ parent name content).2 =
      ⟨(nodes.push (Node.new content (clock nodes.size))).modify parent
        (withEntry name nodes.size), clock⟩ := by
    refine congrArg (fun update => (⟨(nodes.push (Node.new content (clock nodes.size))).modify
      parent update, clock⟩ : Tree)) (funext ?_)
    rintro ⟨content, attributes⟩
    cases content
    all_goals rfl
  rw [hmodify]
  simp only [node?, size] at hparent ⊢
  rw [Array.getElem?_modify, Array.getElem?_push]
  by_cases hid : parent = id
  · subst hid
    rw [if_pos rfl, if_pos rfl, if_neg (Nat.ne_of_lt hparent)]
  · rw [if_neg hid, if_neg hid]
    rfl

theorem fileBytes_insert (hparent : parent < tree.size) (hbytes : content.bytes = [])
    (id : NodeId) : (tree.insert parent name content).2.fileBytes id = tree.fileBytes id := by
  rw [fileBytes, node?_insert hparent, fileBytes]
  split
  · cases tree.node? id
    · rfl
    · exact bytes_withEntry _ _ _
  · split
    · rename_i hid
      have hnone : tree.node? id = none := Array.getElem?_eq_none (Nat.le_of_eq hid.symm)
      rw [hnone]
      exact hbytes
    · rfl

theorem size_insert (tree : Tree) (parent : NodeId) (name : String) (content : Content) :
    (tree.insert parent name content).2.size = tree.size + 1 := by
  obtain ⟨nodes, clock⟩ := tree
  simp [Tree.insert, size]

/-- The entries of a tree with one more node are the old ones and the new node's. -/
theorem child?_insert (hparent : parent < tree.size) (hcontent : content.entries = ∅)
    {key : String}
    (hchild : (tree.insert parent name content).2.child? id key = some child) :
    id = parent ∧ key = name ∧ child = tree.size ∨ tree.child? id key = some child := by
  obtain ⟨node, hnode, hentry⟩ := Option.bind_eq_some_iff.mp hchild
  rw [node?_insert hparent] at hnode
  split at hnode
  · rename_i hid
    obtain ⟨⟨old, attributes⟩, hold, rfl⟩ := Option.map_eq_some_iff.mp hnode
    cases old with
    | directory entries =>
        change (entries.insert name tree.size)[key]? = some child at hentry
        rw [Std.TreeMap.getElem?_insert] at hentry
        split at hentry
        · rename_i hkey
          cases hentry
          exact Or.inl ⟨hid.symm, (Std.LawfulEqCmp.eq_of_compare hkey).symm, rfl⟩
        · exact Or.inr (Option.bind_eq_some_iff.mpr ⟨_, hold, hentry⟩)
    | file data => exact Or.inr (Option.bind_eq_some_iff.mpr ⟨_, hold, hentry⟩)
    | symlink target => exact Or.inr (Option.bind_eq_some_iff.mpr ⟨_, hold, hentry⟩)
  · split at hnode
    · cases hnode
      rw [Node.new, hcontent, Std.TreeMap.getElem?_emptyc] at hentry
      cases hentry
    · exact Or.inr (Option.bind_eq_some_iff.mpr ⟨node, hnode, hentry⟩)

theorem child?_insert_of_child? (hparent : parent < tree.size)
    (hfree : tree.child? parent name = none) {key : String}
    (hchild : tree.child? id key = some child) :
    (tree.insert parent name content).2.child? id key = some child := by
  obtain ⟨⟨old, attributes⟩, hold, hentry⟩ := Option.bind_eq_some_iff.mp hchild
  have hlt := lt_size_of_node? hold
  refine Option.bind_eq_some_iff.mpr ?_
  rw [node?_insert hparent]
  by_cases hid : parent = id
  · rw [if_pos hid, hold]
    refine ⟨_, rfl, ?_⟩
    cases old with
    | directory entries =>
        have hkey : compare name key ≠ .eq := by
          intro hequal
          rw [hid, Std.LawfulEqCmp.eq_of_compare hequal, hchild] at hfree
          cases hfree
        change (entries.insert name tree.size)[key]? = some child
        rw [Std.TreeMap.getElem?_insert, if_neg hkey]
        exact hentry
    | file data => exact hentry
    | symlink target => exact hentry
  · rw [if_neg hid, if_neg (Nat.ne_of_lt hlt)]
    exact ⟨_, hold, hentry⟩

theorem child?_insert_self (hparent : tree.isDirectory parent = true) :
    (tree.insert parent name content).2.child? parent name = some tree.size := by
  obtain ⟨entries, attributes, hnode⟩ := isDirectory_iff.mp hparent
  refine Option.bind_eq_some_iff.mpr ?_
  rw [node?_insert (lt_size_of_node? hnode), if_pos rfl, hnode]
  exact ⟨_, rfl, Std.TreeMap.getElem?_insert_self⟩

theorem node_of_insert (hparent : parent < tree.size) {node : Node}
    (hnode : (tree.insert parent name content).2.node? id = some node) :
    (∃ old, tree.node? id = some old ∧ (node = old ∨ node = withEntry name tree.size old)) ∨
      node = Node.new content (tree.clock tree.size) := by
  rw [node?_insert hparent] at hnode
  split at hnode
  · obtain ⟨old, hold, rfl⟩ := Option.map_eq_some_iff.mp hnode
    exact Or.inl ⟨old, hold, Or.inr rfl⟩
  · split at hnode
    · cases hnode
      exact Or.inr rfl
    · exact Or.inl ⟨node, hnode, Or.inl rfl⟩

theorem WellFormed.insert (htree : tree.WellFormed) (hdirectory : tree.isDirectory parent = true)
    (hfree : tree.child? parent name = none) (hname : IsEntryName name)
    (hcontent : content.IsNew) : (tree.insert parent name content).2.WellFormed := by
  have hparent := lt_size_of_isDirectory hdirectory
  refine ⟨?_, ?_, ?_, ?_, ?_, ?_, ?_⟩
  · obtain ⟨entries, attributes, hroot⟩ := isDirectory_iff.mp htree.root_isDirectory
    rw [isDirectory_iff, node?_insert hparent, hroot]
    split
    · exact ⟨entries.insert name tree.size, attributes, rfl⟩
    · rw [if_neg (Nat.ne_of_lt htree.root_lt)]
      exact ⟨entries, attributes, rfl⟩
  · intro id key child hchild
    rw [size_insert]
    rcases child?_insert hparent hcontent.entries_eq hchild with ⟨rfl, -, rfl⟩ | hold
    · exact ⟨hparent, Nat.lt_succ_self _⟩
    · exact ⟨(htree.child_lt hold).1, Nat.lt_succ_of_lt (htree.child_lt hold).2⟩
  · intro id other key otherKey child hchild hother
    rcases child?_insert hparent hcontent.entries_eq hchild with ⟨rfl, rfl, hsize⟩ | hold
    · rcases child?_insert hparent hcontent.entries_eq hother with ⟨rfl, rfl, -⟩ | hother
      · exact ⟨rfl, rfl⟩
      · exact absurd hsize (Nat.ne_of_lt (htree.child_lt hother).2)
    · rcases child?_insert hparent hcontent.entries_eq hother with ⟨rfl, rfl, hsize⟩ | hother
      · exact absurd hsize (Nat.ne_of_lt (htree.child_lt hold).2)
      · exact htree.parent_unique hold hother
  · intro id hid hne
    rw [size_insert] at hid
    by_cases hnew : id = tree.size
    · exact ⟨parent, name, hnew ▸ child?_insert_self hdirectory⟩
    · obtain ⟨other, key, hchild⟩ :=
        htree.attached (Nat.lt_of_le_of_ne (Nat.le_of_lt_succ hid) hnew) hne
      exact ⟨other, key, child?_insert_of_child? hparent hfree hchild⟩
  · intro id key child hchild
    rcases child?_insert hparent hcontent.entries_eq hchild with ⟨-, rfl, -⟩ | hold
    · exact hname
    · exact htree.name_storable hold
  · intro id data attributes hfile
    rcases node_of_insert hparent hfile with ⟨⟨old, _⟩, hold, hsame | hentry⟩ | hnew
    · exact htree.file_le (hsame ▸ hold)
    · cases old with
      | file before =>
          cases hentry
          exact htree.file_le hold
      | directory entries => cases hentry
      | symlink target => cases hentry
    · exact hcontent.file_le data (congrArg Node.content hnew).symm
  · intro id target attributes hlink
    rcases node_of_insert hparent hlink with ⟨⟨old, _⟩, hold, hsame | hentry⟩ | hnew
    · exact htree.target_size (hsame ▸ hold)
    · cases old with
      | file before => cases hentry
      | directory entries => cases hentry
      | symlink before =>
          cases hentry
          exact htree.target_size hold
    · exact hcontent.target_size target (congrArg Node.content hnew).symm

def Keeps {α : Type} (edit : Action Tree α) : Prop :=
  ∀ tree : Tree, tree.WellFormed → (edit.run tree).2.WellFormed

theorem isNew_emptyDirectory : Content.emptyDirectory.IsNew :=
  ⟨rfl, fun _ h => (nomatch h), fun _ h => (nomatch h)⟩

theorem isNew_emptyFile : (Content.file #[]).IsNew := by
  refine ⟨rfl, ?_, fun _ h => (nomatch h)⟩
  intro data h
  cases h
  exact Nat.zero_le _

theorem isDirectory_of_enter {path : String} {names : List String} {last : NodeId}
    (hid : tree.isDirectory id = true) (henter : tree.enter path id names = .ok last) :
    tree.isDirectory last = true := by
  induction names generalizing id with
  | nil =>
      cases henter
      exact hid
  | cons name names ih =>
      rw [enter] at henter
      cases hchild : tree.child? id name with
      | none =>
          rw [hchild] at henter
          cases henter
      | some child =>
          rw [hchild] at henter
          dsimp only at henter
          split at henter
          · rename_i hdirectory
            exact ih hdirectory henter
          · cases henter

theorem WellFormed.of_parentOf (htree : tree.WellFormed) {path : String}
    (hparent : tree.parentOf path = .ok (parent, some name)) :
    tree.isDirectory parent = true ∧ IsEntryName name := by
  obtain ⟨segments, hnames, hparent⟩ := Except.bind_eq_ok.mp hparent
  cases hlast : segments.getLast? with
  | none =>
      rw [hlast] at hparent
      cases hparent
  | some last =>
      rw [hlast] at hparent
      obtain ⟨found, henter, hparent⟩ := Except.bind_eq_ok.mp hparent
      cases hparent
      exact ⟨isDirectory_of_enter htree.root_isDirectory henter,
        isEntryName_of_names hnames _ (List.mem_of_getLast? hlast)⟩

theorem WellFormed.modify (htree : tree.WellFormed) (id : NodeId) (update : Node → Node)
    (hupdate : ∀ node, tree.node? id = some node → (update node).content = node.content ∨
      ∃ before after, node.content = .file before ∧ (update node).content = .file after ∧
        after.size ≤ maxFileSize) :
    WellFormed ⟨tree.nodes.modify id update, tree.clock⟩ := by
  refine htree.of_same (Array.size_modify ..) ?_
  intro other node hnode
  rw [node?, Array.getElem?_modify] at hnode
  split at hnode
  · rename_i hid
    subst hid
    obtain ⟨old, hold, rfl⟩ := Option.map_eq_some_iff.mp hnode
    exact ⟨old, hold, hupdate old hold⟩
  · exact ⟨node, hnode, Or.inl rfl⟩

theorem keeps_change (path : String) (update : Attributes → Attributes) :
    Keeps (change path update) := by
  intro tree htree
  rw [change, Action.run_bind_of_ok (Action.run_get tree)]
  cases hlookup : tree.lookup path with
  | error error => exact htree
  | ok id =>
      exact htree.modify id (fun node => ⟨node.content, update node.attributes⟩)
        fun _ _ => Or.inl rfl

theorem WellFormed.overwrite (htree : tree.WellFormed) {start : Nat} {bytes : Bytes}
    (hfits : start + bytes.length ≤ maxFileSize) (id : NodeId) :
    (tree.overwrite id start bytes).WellFormed := by
  refine htree.modify id _ ?_
  rintro ⟨content, attributes⟩ hnode
  cases content with
  | directory entries => exact Or.inl rfl
  | symlink target => exact Or.inl rfl
  | file data =>
      refine Or.inr ⟨data, data.overwrite start bytes, rfl, rfl, ?_⟩
      rw [Buffer.size_overwrite]
      exact Nat.max_le.mpr ⟨htree.file_le hnode, hfits⟩

theorem write_keeps (bytes : Bytes) (handle : FileHandle) (htree : tree.WellFormed) :
    ((write bytes).run (handle, tree)).2.2.WellFormed := by
  rw [write, Action.run_bind_of_ok (Action.run_get _)]
  dsimp only
  split
  · split
    · exact htree
    · rename_i hfits
      exact htree.overwrite (Nat.le_of_not_lt hfits) handle.node
  · exact htree

end Tree

end Staging

end TreeImage
