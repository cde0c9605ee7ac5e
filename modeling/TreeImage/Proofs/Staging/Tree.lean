import TreeImage.Format.Layout
import TreeImage.Proofs.Format.Listing
import TreeImage.Proofs.Text.Path
import TreeImage.Staging.Tree

namespace TreeImage.Staging

structure IsEntryName (name : String) : Prop where
  valid : Format.Listing.isEntryName name = true
  storable : isStorableName name = true
  length_le : (Text.utf8 name).length ≤ maxNameLength

theorem isEntryName_of_names {path : String} {segments : List String}
    (hnames : names path = .ok segments) : ∀ name ∈ segments, IsEntryName name := by
  unfold names at hnames
  dsimp only at hnames
  split at hnames
  · rename_i hall
    cases hnames
    intro name hmem
    have hname := List.all_eq_true.mp hall name hmem
    have hstorable := hname
    simp only [isStorableName, Bool.and_eq_true, bne_iff_ne, decide_eq_true_eq] at hstorable
    have hslash := Text.slash_not_mem_of_mem_segments hmem
    refine ⟨?_, hname, hstorable.1.2⟩
    simp [Format.Listing.isEntryName, Text.ne_of_mem_segments hmem, hstorable.1.1, hslash]
  · cases hnames

theorem IsEntryName.segments_eq {name : String} (hname : IsEntryName name) :
    Text.segments name = [name] :=
  Format.Listing.segments_of_isEntryName hname.valid

namespace Tree

variable {tree : Tree} {id child : NodeId} {name : String}

theorem mem_children : (name, child) ∈ tree.children id ↔ tree.child? id name = some child := by
  unfold children child?
  cases tree.node? id with
  | none => simp
  | some node =>
      simp only [Option.bind_some]
      exact Std.TreeMap.mem_toList_iff_getElem?_eq_some

theorem children_sorted (tree : Tree) (id : NodeId) :
    (tree.children id).Pairwise fun left right => Text.utf8 left.1 < Text.utf8 right.1 := by
  unfold children
  cases tree.node? id with
  | none => exact List.Pairwise.nil
  | some node =>
      refine node.content.entries.ordered_keys_toList.imp ?_
      intro left right hlt
      exact Text.utf8_lt_of_lt (compareOfLessAndEq_eq_lt.mp hlt)

structure WellFormed (tree : Tree) : Prop where
  root_isDirectory : tree.isDirectory root = true
  child_lt : ∀ {id name child}, tree.child? id name = some child → id < child ∧ child < tree.size
  parent_unique : ∀ {id other name otherName child}, tree.child? id name = some child →
    tree.child? other otherName = some child → id = other ∧ name = otherName
  attached : ∀ {id}, id < tree.size → id ≠ root → ∃ parent name, tree.child? parent name = some id
  name_storable : ∀ {id name child}, tree.child? id name = some child → IsEntryName name
  file_le : ∀ {id data attributes}, tree.node? id = some ⟨.file data, attributes⟩ →
    data.size ≤ maxFileSize
  target_size : ∀ {id target attributes}, tree.node? id = some ⟨.symlink target, attributes⟩ →
    0 < target.utf8ByteSize ∧ target.utf8ByteSize ≤ Format.maxLinkTarget

theorem lt_size_of_node? {node : Node} (hnode : tree.node? id = some node) : id < tree.size :=
  (Array.getElem?_eq_some_iff.mp hnode).1

theorem kind_of_node? {node : Node} (hnode : tree.node? id = some node) :
    tree.kind id = node.content.kind := by
  rw [kind, hnode]

theorem isDirectory_iff :
    tree.isDirectory id = true ↔
      ∃ entries attributes, tree.node? id = some ⟨.directory entries, attributes⟩ := by
  unfold isDirectory
  constructor
  · intro hdirectory
    rw [Option.any_eq_true] at hdirectory
    obtain ⟨⟨content, attributes⟩, hnode, hkind⟩ := hdirectory
    cases content with
    | directory entries => exact ⟨entries, attributes, hnode⟩
    | file data => cases hkind
    | symlink target => cases hkind
  · rintro ⟨entries, attributes, hnode⟩
    rw [hnode]
    rfl

theorem lt_size_of_isDirectory (hdirectory : tree.isDirectory id = true) : id < tree.size := by
  obtain ⟨entries, attributes, hnode⟩ := isDirectory_iff.mp hdirectory
  exact lt_size_of_node? hnode

theorem WellFormed.root_lt (htree : tree.WellFormed) : root < tree.size :=
  lt_size_of_isDirectory htree.root_isDirectory

theorem descend_cons_eq_some {names : List String} {last : NodeId} :
    tree.descend id (name :: names) = some last ↔
      ∃ child, tree.child? id name = some child ∧ tree.descend child names = some last := by
  rw [descend]
  cases tree.child? id name with
  | none => simp
  | some child => simp

theorem isDirectory_of_child? (hchild : tree.child? id name = some child) :
    tree.isDirectory id = true := by
  obtain ⟨⟨content, attributes⟩, hnode, hentry⟩ := Option.bind_eq_some_iff.mp hchild
  cases content with
  | directory entries => exact isDirectory_iff.mpr ⟨entries, attributes, hnode⟩
  | file data =>
      change (∅ : Std.TreeMap String NodeId)[name]? = some child at hentry
      rw [Std.TreeMap.getElem?_emptyc] at hentry
      cases hentry
  | symlink target =>
      change (∅ : Std.TreeMap String NodeId)[name]? = some child at hentry
      rw [Std.TreeMap.getElem?_emptyc] at hentry
      cases hentry

theorem children_eq_nil (hdirectory : tree.isDirectory id ≠ true) : tree.children id = [] := by
  refine List.eq_nil_iff_forall_not_mem.mpr ?_
  rintro ⟨name, child⟩ hmem
  exact hdirectory (isDirectory_of_child? (mem_children.mp hmem))

theorem isDirectory_of_descend {names : List String} {last : NodeId}
    (hdescend : tree.descend id names = some last) (hlast : tree.isDirectory last = true) :
    tree.isDirectory id = true := by
  cases names with
  | nil =>
      cases hdescend
      exact hlast
  | cons name names =>
      obtain ⟨child, hchild, -⟩ := descend_cons_eq_some.mp hdescend
      exact isDirectory_of_child? hchild

theorem descend_append_singleton {names : List String} {last : NodeId} :
    tree.descend id (names ++ [name]) = some last ↔
      ∃ parent, tree.descend id names = some parent ∧ tree.child? parent name = some last := by
  induction names generalizing id with
  | nil =>
      rw [List.nil_append, descend_cons_eq_some]
      simp [descend]
  | cons first names ih =>
      rw [List.cons_append, descend_cons_eq_some]
      constructor
      · rintro ⟨child, hchild, hrest⟩
        obtain ⟨parent, hparent, hlast⟩ := ih.mp hrest
        exact ⟨parent, descend_cons_eq_some.mpr ⟨child, hchild, hparent⟩, hlast⟩
      · rintro ⟨parent, hparent, hlast⟩
        obtain ⟨child, hchild, hrest⟩ := descend_cons_eq_some.mp hparent
        exact ⟨child, hchild, ih.mpr ⟨parent, hrest, hlast⟩⟩

theorem lookup_eq_ok {path : String} :
    tree.lookup path = .ok id ↔
      (Text.segments path).all isStorableName = true ∧
        tree.descend root (Text.segments path) = some id := by
  unfold lookup names
  dsimp only
  by_cases hall : (Text.segments path).all isStorableName = true
  · rw [if_pos hall, Except.ok_bind]
    cases tree.descend root (Text.segments path) with
    | none => simp [hall, throw, throwThe, MonadExceptOf.throw]
    | some found => simp [hall, pure, Except.pure]
  · rw [if_neg hall]
    constructor
    · intro h
      cases h
    · exact fun h => absurd h.1 hall

theorem descend_of_lookup {path : String} (hlookup : tree.lookup path = .ok id) :
    (∀ name ∈ Text.segments path, IsEntryName name) ∧
      tree.descend root (Text.segments path) = some id := by
  obtain ⟨hall, hdescend⟩ := lookup_eq_ok.mp hlookup
  have hnames : names path = .ok (Text.segments path) := by
    unfold names
    dsimp only
    rw [if_pos hall]
  exact ⟨isEntryName_of_names hnames, hdescend⟩

theorem WellFormed.lookup_joinPath (htree : tree.WellFormed) {path : String}
    (hlookup : tree.lookup path = .ok id) (hchild : tree.child? id name = some child) :
    tree.lookup (Text.joinPath path name) = .ok child := by
  obtain ⟨hall, hdescend⟩ := lookup_eq_ok.mp hlookup
  have hname := htree.name_storable hchild
  rw [lookup_eq_ok, Text.segments_joinPath path hname.segments_eq, List.all_append, hall]
  refine ⟨?_, descend_append_singleton.mpr ⟨id, hdescend, hchild⟩⟩
  simpa using hname.storable

theorem isDirectory_iff_kind : tree.isDirectory id = true ↔ tree.kind id = .directory := by
  unfold isDirectory kind
  cases tree.node? id with
  | none => simp
  | some node =>
      rw [Option.any_some]
      exact beq_iff_eq

theorem source_of_lookup {path : String} (hlookup : tree.lookup path = .ok id)
    (hdirectory : tree.isDirectory id = true) :
    tree.source path =
      .ok ((tree.children id).map fun (name, child) => ⟨name, tree.kind child⟩) := by
  unfold source
  rw [hlookup, Except.ok_bind, if_pos hdirectory]
  rfl

theorem wellFormed_new (clock : NodeId → UInt32) : (new clock).WellFormed := by
  have hnode : ∀ {id node}, (new clock).node? id = some node →
      node = Node.new .emptyDirectory (clock root) := by
    intro id node hnode
    obtain ⟨hid, rfl⟩ := Array.getElem?_eq_some_iff.mp hnode
    exact List.eq_of_mem_singleton (Array.getElem_mem_toList hid)
  have hchild : ∀ {id name child}, (new clock).child? id name ≠ some child := by
    intro id name child hchild
    obtain ⟨node, hid, hentry⟩ := Option.bind_eq_some_iff.mp hchild
    rw [hnode hid] at hentry
    change (∅ : Std.TreeMap String NodeId)[name]? = some child at hentry
    rw [Std.TreeMap.getElem?_emptyc] at hentry
    cases hentry
  exact ⟨rfl, fun h => absurd h hchild, fun h => absurd h hchild,
    fun hid hne => absurd (Nat.lt_one_iff.mp hid) hne, fun h => absurd h hchild,
    fun h => (nomatch hnode h), fun h => (nomatch hnode h)⟩

/-- A change of nodes that keeps what they are, except for the contents of files. -/
theorem WellFormed.of_same {other : Tree} (htree : tree.WellFormed) (hsize : other.size = tree.size)
    (hsame : ∀ {id node}, other.node? id = some node → ∃ old, tree.node? id = some old ∧
      (node.content = old.content ∨
        ∃ before after, old.content = .file before ∧ node.content = .file after ∧
          after.size ≤ maxFileSize)) : other.WellFormed := by
  have hback : ∀ {id}, id < tree.size → ∃ node, other.node? id = some node := by
    intro id hid
    rw [← hsize] at hid
    exact ⟨_, Array.getElem?_eq_getElem hid⟩
  have hchild : ∀ {id name child}, other.child? id name = some child →
      tree.child? id name = some child := by
    intro id name child hchild
    obtain ⟨node, hnode, hentry⟩ := Option.bind_eq_some_iff.mp hchild
    obtain ⟨old, hold, hcontent | ⟨before, after, hbefore, hafter, -⟩⟩ := hsame hnode
    · exact Option.bind_eq_some_iff.mpr ⟨old, hold, hcontent ▸ hentry⟩
    · rw [hafter] at hentry
      change (∅ : Std.TreeMap String NodeId)[name]? = some child at hentry
      rw [Std.TreeMap.getElem?_emptyc] at hentry
      cases hentry
  have hkept : ∀ {id name child}, tree.child? id name = some child →
      other.child? id name = some child := by
    intro id name child hchild
    obtain ⟨old, hold, hentry⟩ := Option.bind_eq_some_iff.mp hchild
    obtain ⟨node, hnode⟩ := hback (lt_size_of_node? hold)
    obtain ⟨before, hbefore, hcontent | ⟨data, _, hfile, -⟩⟩ := hsame hnode
    · obtain rfl := Option.some.inj (hold.symm.trans hbefore)
      exact Option.bind_eq_some_iff.mpr ⟨node, hnode, hcontent ▸ hentry⟩
    · obtain rfl := Option.some.inj (hold.symm.trans hbefore)
      rw [hfile] at hentry
      change (∅ : Std.TreeMap String NodeId)[name]? = some child at hentry
      rw [Std.TreeMap.getElem?_emptyc] at hentry
      cases hentry
  refine ⟨?_, ?_, ?_, ?_, ?_, ?_, ?_⟩
  · obtain ⟨node, hnode⟩ := hback htree.root_lt
    obtain ⟨entries, attributes, hroot⟩ := isDirectory_iff.mp htree.root_isDirectory
    obtain ⟨old, hold, hcontent | ⟨before, after, hbefore, -⟩⟩ := hsame hnode
    · obtain rfl := Option.some.inj (hold.symm.trans hroot)
      obtain ⟨content, attributes⟩ := node
      obtain rfl : content = .directory entries := hcontent
      exact isDirectory_iff.mpr ⟨entries, attributes, hnode⟩
    · obtain rfl := Option.some.inj (hold.symm.trans hroot)
      cases hbefore
  · intro id name child h
    rw [hsize]
    exact htree.child_lt (hchild h)
  · intro id other name otherName child h h'
    exact htree.parent_unique (hchild h) (hchild h')
  · intro id hid hne
    obtain ⟨parent, name, h⟩ := htree.attached (hsize ▸ hid) hne
    exact ⟨parent, name, hkept h⟩
  · intro id name child h
    exact htree.name_storable (hchild h)
  · intro id data attributes hnode
    obtain ⟨⟨content, _⟩, hold, hcontent | ⟨before, after, -, hafter, hlength⟩⟩ := hsame hnode
    · obtain rfl : Content.file data = content := hcontent
      exact htree.file_le hold
    · cases hafter
      exact hlength
  · intro id target attributes hnode
    obtain ⟨⟨content, _⟩, hold, hcontent | ⟨before, after, -, hafter, -⟩⟩ := hsame hnode
    · obtain rfl : Content.symlink target = content := hcontent
      exact htree.target_size hold
    · cases hafter

end Tree

end TreeImage.Staging
