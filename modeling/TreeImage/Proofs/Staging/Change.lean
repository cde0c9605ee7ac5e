import Mathlib.Logic.Relation
import TreeImage.Proofs.Staging.Edit

namespace TreeImage.Staging.Tree

variable {tree later other : Tree} {parent id child : NodeId} {name : String} {content : Content}

def IsMode (mode : UInt16) : Prop := mode.toNat ≤ modeMask.toNat

theorem isMode_and (mode : UInt16) : IsMode (mode &&& modeMask) := by
  rw [IsMode, UInt16.toNat_and]
  exact Nat.and_le_right

theorem isMode_defaultMode (content : Content) : IsMode content.defaultMode := by
  cases content with
  | directory entries => exact Nat.le_of_ble_eq_true rfl
  | file data => exact Nat.le_of_ble_eq_true rfl
  | symlink target => exact Nat.le_of_ble_eq_true rfl

/-- One change of a tree. -/
inductive Changes (tree : Tree) : Tree → Prop
  | insert {parent : NodeId} {name : String} {content : Content}
      (hdirectory : tree.isDirectory parent = true) (hfree : tree.child? parent name = none)
      (hname : IsEntryName name) (hcontent : content.IsNew) :
      Changes tree (tree.insert parent name content).2
  | setAttributes (id : NodeId) {update : Attributes → Attributes}
      (hmode : ∀ attributes, IsMode attributes.mode → IsMode (update attributes).mode) :
      Changes tree (tree.setAttributes id update)
  | overwrite (id : NodeId) {start : Nat} {bytes : Bytes}
      (hfits : start + bytes.length ≤ maxFileSize) : Changes tree (tree.overwrite id start bytes)

/-- Changes one after the other. -/
abbrev Becomes : Tree → Tree → Prop := Relation.ReflTransGen Changes

theorem node?_modify (tree : Tree) (id : NodeId) (update : Node → Node) (other : NodeId) :
    node? ⟨tree.nodes.modify id update, tree.clock⟩ other =
      if id = other then (tree.node? other).map update else tree.node? other := by
  rw [node?, Array.getElem?_modify]
  rfl

theorem fileBytes_setAttributes (tree : Tree) (id : NodeId) (update : Attributes → Attributes)
    (other : NodeId) : (tree.setAttributes id update).fileBytes other = tree.fileBytes other := by
  have hnode : (tree.setAttributes id update).node? other = _ :=
    node?_modify tree id (fun node => ⟨node.content, update node.attributes⟩) other
  rw [fileBytes, hnode, fileBytes]
  split
  · cases tree.node? other
    all_goals rfl
  · rfl

@[simp] theorem attributes_withEntry (name : String) (child : NodeId) (node : Node) :
    (withEntry name child node).attributes = node.attributes := by
  obtain ⟨content, attributes⟩ := node
  cases content
  all_goals rfl

@[simp] theorem kind_withEntry (name : String) (child : NodeId) (node : Node) :
    (withEntry name child node).content.kind = node.content.kind := by
  obtain ⟨content, attributes⟩ := node
  cases content
  all_goals rfl

section Sound

theorem WellFormed.changes (htree : tree.WellFormed) (hchange : tree.Changes later) :
    later.WellFormed := by
  cases hchange with
  | insert hdirectory hfree hname hcontent => exact htree.insert hdirectory hfree hname hcontent
  | setAttributes id hmode =>
      exact htree.modify id (fun node => ⟨node.content, _⟩) fun _ _ => Or.inl rfl
  | overwrite id hfits => exact htree.overwrite hfits id

theorem WellFormed.becomes (htree : tree.WellFormed) (hbecomes : tree.Becomes later) :
    later.WellFormed := by
  induction hbecomes with
  | refl => exact htree
  | tail _ hchange ih => exact ih.changes hchange

/-- Whether all nodes have modes that the format can hold. -/
def ModesFit (tree : Tree) : Prop :=
  ∀ id node, tree.node? id = some node → IsMode node.attributes.mode

theorem modesFit_new (clock : NodeId → UInt32) : (new clock).ModesFit := by
  intro id node hnode
  obtain ⟨hid, rfl⟩ := Array.getElem?_eq_some_iff.mp hnode
  rw [List.eq_of_mem_singleton (Array.getElem_mem_toList hid)]
  exact isMode_defaultMode _

theorem ModesFit.modify (hmodes : tree.ModesFit) (id : NodeId) (update : Node → Node)
    (hupdate : ∀ node, IsMode node.attributes.mode → IsMode (update node).attributes.mode) :
    ModesFit ⟨tree.nodes.modify id update, tree.clock⟩ := by
  intro other node hnode
  rw [node?_modify] at hnode
  split at hnode
  · obtain ⟨old, hold, rfl⟩ := Option.map_eq_some_iff.mp hnode
    exact hupdate old (hmodes other old hold)
  · exact hmodes other node hnode

theorem ModesFit.changes (hmodes : tree.ModesFit) (hchange : tree.Changes later) :
    later.ModesFit := by
  cases hchange with
  | insert hdirectory hfree hname hcontent =>
      intro id node hnode
      rcases node_of_insert (lt_size_of_isDirectory hdirectory) hnode with
        ⟨old, hold, rfl | rfl⟩ | rfl
      · exact hmodes id _ hold
      · rw [attributes_withEntry]
        exact hmodes id old hold
      · exact isMode_defaultMode _
  | setAttributes id hmode =>
      exact hmodes.modify id (fun node => ⟨node.content, _⟩) fun node => hmode node.attributes
  | overwrite id hfits =>
      refine hmodes.modify id _ ?_
      rintro ⟨content, attributes⟩ hfit
      cases content
      all_goals exact hfit

theorem ModesFit.becomes (hmodes : tree.ModesFit) (hbecomes : tree.Becomes later) :
    later.ModesFit := by
  induction hbecomes with
  | refl => exact hmodes
  | tail _ hchange ih => exact ih.changes hchange

end Sound

section Growth

/-- Whether a tree has all that another one has: its entries, and its nodes with their kinds. -/
structure GrowsTo (tree later : Tree) : Prop where
  node : ∀ {id node}, tree.node? id = some node →
    ∃ grown, later.node? id = some grown ∧ grown.content.kind = node.content.kind
  child : ∀ {id name child}, tree.child? id name = some child → later.child? id name = some child

theorem GrowsTo.refl (tree : Tree) : tree.GrowsTo tree :=
  ⟨fun hnode => ⟨_, hnode, rfl⟩, fun hchild => hchild⟩

theorem GrowsTo.trans (hgrows : tree.GrowsTo later) (hfurther : later.GrowsTo other) :
    tree.GrowsTo other := by
  refine ⟨?_, fun hchild => hfurther.child (hgrows.child hchild)⟩
  intro id node hnode
  obtain ⟨grown, hgrown, hkind⟩ := hgrows.node hnode
  obtain ⟨last, hlast, hsame⟩ := hfurther.node hgrown
  exact ⟨last, hlast, hsame.trans hkind⟩

theorem GrowsTo.kind_eq (hgrows : tree.GrowsTo later) (hid : id < tree.size) :
    later.kind id = tree.kind id := by
  have hnode : tree.node? id = some tree.nodes[id] := Array.getElem?_eq_getElem hid
  obtain ⟨grown, hgrown, hkind⟩ := hgrows.node hnode
  rw [kind_of_node? hgrown, kind_of_node? hnode, hkind]

theorem GrowsTo.isDirectory (hgrows : tree.GrowsTo later)
    (hdirectory : tree.isDirectory id = true) : later.isDirectory id = true := by
  rw [isDirectory_iff_kind, hgrows.kind_eq (lt_size_of_isDirectory hdirectory)]
  exact isDirectory_iff_kind.mp hdirectory

theorem GrowsTo.descend (hgrows : tree.GrowsTo later) {names : List String}
    (hdescend : tree.descend id names = some child) : later.descend id names = some child := by
  induction names generalizing id with
  | nil => exact hdescend
  | cons name names ih =>
      obtain ⟨next, hnext, hrest⟩ := descend_cons_eq_some.mp hdescend
      exact descend_cons_eq_some.mpr ⟨next, hgrows.child hnext, ih hrest⟩

theorem GrowsTo.lookup (hgrows : tree.GrowsTo later) {path : String}
    (hlookup : tree.lookup path = .ok id) : later.lookup path = .ok id := by
  obtain ⟨hnames, hdescend⟩ := lookup_eq_ok.mp hlookup
  exact lookup_eq_ok.mpr ⟨hnames, hgrows.descend hdescend⟩

theorem growsTo_modify (tree : Tree) (id : NodeId) (update : Node → Node)
    (hupdate : ∀ node, (update node).content.kind = node.content.kind ∧
      (update node).content.entries = node.content.entries) :
    tree.GrowsTo ⟨tree.nodes.modify id update, tree.clock⟩ := by
  have hnode : ∀ {other node}, tree.node? other = some node →
      ∃ grown, node? ⟨tree.nodes.modify id update, tree.clock⟩ other = some grown ∧
        grown.content.kind = node.content.kind ∧
          grown.content.entries = node.content.entries := by
    intro other node hnode
    rw [node?_modify, hnode]
    split
    · exact ⟨update node, rfl, hupdate node⟩
    · exact ⟨node, rfl, rfl, rfl⟩
  constructor
  · intro other node hold
    obtain ⟨grown, hgrown, hkind, -⟩ := hnode hold
    exact ⟨grown, hgrown, hkind⟩
  · intro other name child hchild
    obtain ⟨node, hold, hentry⟩ := Option.bind_eq_some_iff.mp hchild
    obtain ⟨grown, hgrown, -, hentries⟩ := hnode hold
    exact Option.bind_eq_some_iff.mpr ⟨grown, hgrown, by rw [hentries]; exact hentry⟩

theorem growsTo_insert (hdirectory : tree.isDirectory parent = true)
    (hfree : tree.child? parent name = none) :
    tree.GrowsTo (tree.insert parent name content).2 := by
  have hparent := lt_size_of_isDirectory hdirectory
  refine ⟨?_, child?_insert_of_child? hparent hfree⟩
  intro id node hnode
  rw [node?_insert hparent, hnode]
  split
  · exact ⟨_, rfl, kind_withEntry _ _ node⟩
  · rw [if_neg (Nat.ne_of_lt (lt_size_of_node? hnode))]
    exact ⟨node, rfl, rfl⟩

theorem Changes.growsTo (hchange : tree.Changes later) : tree.GrowsTo later := by
  cases hchange with
  | insert hdirectory hfree hname hcontent => exact growsTo_insert hdirectory hfree
  | setAttributes id hmode =>
      exact growsTo_modify tree id (fun node => ⟨node.content, _⟩) fun _ => ⟨rfl, rfl⟩
  | overwrite id hfits =>
      refine growsTo_modify tree id _ ?_
      rintro ⟨content, attributes⟩
      cases content
      all_goals exact ⟨rfl, rfl⟩

theorem Becomes.growsTo (hbecomes : tree.Becomes later) : tree.GrowsTo later := by
  induction hbecomes with
  | refl => exact .refl tree
  | tail _ hchange ih => exact ih.trans hchange.growsTo

end Growth

section Operations

variable {α : Type}

/-- What an edit does: the tree changes, also when it fails, but no file of it, and a result has a
property. -/
structure Performs (edit : Action Tree α) (tree : Tree) (holds : α → Tree → Prop) : Prop where
  becomes : tree.Becomes (edit.run tree).2
  fileBytes : ∀ id, (edit.run tree).2.fileBytes id = tree.fileBytes id
  result : ∀ value, (edit.run tree).1 = .ok value → holds value (edit.run tree).2

variable {β : Type} {edit : Action Tree α} {next : α → Action Tree β} {holds : α → Tree → Prop}
  {ends : β → Tree → Prop}

theorem performs_throw (error : Error) : Performs (throw error) tree holds :=
  ⟨.refl, fun _ => rfl, fun _ hvalue => (nomatch hvalue)⟩

theorem performs_pure {value : α} (hholds : holds value tree) :
    Performs (pure value) tree holds := by
  refine ⟨.refl, fun _ => rfl, ?_⟩
  intro found hfound
  cases hfound
  exact hholds

theorem Performs.bind (hedit : Performs edit tree holds)
    (hnext : ∀ value later, tree.Becomes later → holds value later →
      Performs (next value) later ends) : Performs (edit >>= next) tree ends := by
  obtain ⟨hbecomes, hbytes, hresult⟩ := hedit
  rcases hrun : edit.run tree with ⟨error | value, later⟩
  · rw [hrun] at hbecomes hbytes
    refine ⟨?_, ?_, ?_⟩
    · rw [Action.run_bind_of_error hrun]
      exact hbecomes
    · rw [Action.run_bind_of_error hrun]
      exact hbytes
    · intro value hvalue
      rw [Action.run_bind_of_error hrun] at hvalue
      cases hvalue
  · rw [hrun] at hbecomes hbytes hresult
    obtain ⟨hfurther, hsame, hends⟩ := hnext value later hbecomes (hresult value rfl)
    have hrest : (edit >>= next).run tree = (next value).run later := Action.run_bind_of_ok hrun
    rw [← hrest] at hfurther hsame hends
    exact ⟨hbecomes.trans hfurther, fun id => (hsame id).trans (hbytes id), hends⟩

theorem Performs.mono (hedit : Performs edit tree holds) {other : α → Tree → Prop}
    (himplies : ∀ value later, tree.Becomes later → holds value later → other value later) :
    Performs edit tree other :=
  ⟨hedit.becomes, hedit.fileBytes,
    fun value hvalue => himplies value _ hedit.becomes (hedit.result value hvalue)⟩

theorem Performs.get {next : Tree → Action Tree β} (hnext : Performs (next tree) tree ends) :
    Performs (MonadState.get >>= next) tree ends := by
  obtain ⟨hbecomes, hbytes, hends⟩ := hnext
  rw [← Action.run_bind_of_ok (Action.run_get tree)] at hbecomes hbytes hends
  exact ⟨hbecomes, hbytes, hends⟩

theorem Performs.lift {result : Except Error α}
    (hnext : ∀ value, result = .ok value → Performs (next value) tree ends) :
    Performs (liftM result >>= next) tree ends := by
  cases result with
  | error error => exact performs_throw error
  | ok value => exact hnext value rfl

theorem descend_of_enter {path : String} {names : List String} {last : NodeId}
    (henter : tree.enter path id names = .ok last) : tree.descend id names = some last := by
  induction names generalizing id with
  | nil =>
      cases henter
      rfl
  | cons name names ih =>
      rw [enter] at henter
      cases hchild : tree.child? id name with
      | none =>
          rw [hchild] at henter
          cases henter
      | some child =>
          rw [hchild] at henter
          dsimp only at henter
          split at henter
          · exact descend_cons_eq_some.mpr ⟨child, hchild, ih henter⟩
          · cases henter

theorem lookup_of_names {path : String} {segments : List String}
    (hnames : names path = .ok segments) :
    tree.lookup path = .ok id ↔ tree.descend root segments = some id := by
  rw [lookup, hnames, Except.ok_bind]
  cases tree.descend root segments with
  | none => simp [throw, throwThe, MonadExceptOf.throw]
  | some found => simp [pure, Except.pure]

/-- The entry with the last name of a path is where the path leads, once it is there. -/
theorem lookup_of_parentOf {path : String} (hparent : tree.parentOf path = .ok (parent, some name))
    (hgrows : tree.GrowsTo later) (hchild : later.child? parent name = some child) :
    later.lookup path = .ok child := by
  obtain ⟨segments, hnames, hparent⟩ := Except.bind_eq_ok.mp hparent
  cases hlast : segments.getLast? with
  | none =>
      rw [hlast] at hparent
      cases hparent
  | some last =>
      rw [hlast] at hparent
      obtain ⟨found, henter, hparent⟩ := Except.bind_eq_ok.mp hparent
      cases hparent
      obtain ⟨front, rfl⟩ := List.getLast?_eq_some_iff.mp hlast
      rw [List.dropLast_concat] at henter
      rw [lookup_of_names hnames]
      exact descend_append_singleton.mpr
        ⟨parent, hgrows.descend (descend_of_enter henter), hchild⟩

theorem performs_add (hdirectory : tree.isDirectory parent = true)
    (hfree : tree.child? parent name = none) (hname : IsEntryName name)
    (hcontent : content.IsNew) (hbytes : content.bytes = []) :
    Performs (add parent name content) tree fun child later =>
      later.child? parent name = some child ∧ later.kind child = content.kind := by
  have hparent := lt_size_of_isDirectory hdirectory
  have hchange : tree.Changes (tree.insert parent name content).2 :=
    .insert hdirectory hfree hname hcontent
  refine ⟨.single hchange, fileBytes_insert hparent hbytes, ?_⟩
  intro child hchild
  obtain rfl : tree.size = child := Except.ok.inj hchild
  refine ⟨child?_insert_self hdirectory, ?_⟩
  have hnode : (tree.insert parent name content).2.node? tree.size =
      some (Node.new content (tree.clock tree.size)) := by
    rw [node?_insert hparent, if_neg (Nat.ne_of_lt hparent), if_pos rfl]
  exact kind_of_node? hnode

/-- Making directories along names leads to the last one. -/
theorem performs_makeAlong (path : String) {names : List String}
    (hnames : ∀ name ∈ names, IsEntryName name) (hid : tree.isDirectory id = true) :
    Performs (makeAlong path id names) tree fun last later =>
      later.descend id names = some last ∧ later.isDirectory last = true := by
  induction names generalizing tree id with
  | nil => exact performs_pure ⟨rfl, hid⟩
  | cons name names ih =>
      have hrest : ∀ other ∈ names, IsEntryName other := fun other hmem =>
        hnames other (List.mem_cons_of_mem _ hmem)
      rw [makeAlong]
      refine .get ?_
      cases hchild : tree.child? id name with
      | some child =>
          dsimp only
          split
          · rename_i hdirectory
            refine (ih hrest hdirectory).mono fun last later hbecomes hlast => ⟨?_, hlast.2⟩
            exact descend_cons_eq_some.mpr ⟨child, hbecomes.growsTo.child hchild, hlast.1⟩
          · split
            · exact performs_throw _
            · exact performs_throw _
      | none =>
          refine (performs_add hid hchild (hnames name List.mem_cons_self)
            isNew_emptyDirectory rfl).bind fun child middle _ hadded => ?_
          obtain ⟨hchild, hkind⟩ := hadded
          refine (ih hrest (isDirectory_iff_kind.mpr hkind)).mono
            fun last later hbecomes hlast => ⟨?_, hlast.2⟩
          exact descend_cons_eq_some.mpr ⟨child, hbecomes.growsTo.child hchild, hlast.1⟩

theorem WellFormed.performs_mkdir (htree : tree.WellFormed) (path : String) :
    Performs (mkdir path) tree fun id later =>
      later.lookup path = .ok id ∧ later.isDirectory id = true := by
  refine .lift fun segments hnames => ?_
  refine (performs_makeAlong path (isEntryName_of_names hnames) htree.root_isDirectory).mono ?_
  rintro id later - ⟨hdescend, hdirectory⟩
  exact ⟨(lookup_of_names hnames).mpr hdescend, hdirectory⟩

theorem WellFormed.performs_openFile (htree : tree.WellFormed) (path : String) (create : Bool) :
    Performs (openFile path create) tree fun handle later =>
      later.lookup path = .ok handle.node ∧ later.kind handle.node = .file := by
  refine .get (.lift fun found hparent => ?_)
  obtain ⟨parent, _ | name⟩ := found
  · exact performs_throw _
  · obtain ⟨hdirectory, hname⟩ := htree.of_parentOf hparent
    dsimp only
    split
    · rename_i id hchild
      split
      · rename_i hfile
        exact performs_pure ⟨lookup_of_parentOf hparent (.refl tree) hchild, hfile⟩
      · exact performs_throw _
    · rename_i hfree
      split
      · refine (performs_add hdirectory hfree hname isNew_emptyFile rfl).bind
          fun child later hbecomes hadded => ?_
        exact performs_pure ⟨lookup_of_parentOf hparent hbecomes.growsTo hadded.1, hadded.2⟩
      · exact performs_throw _

theorem WellFormed.performs_symlink (htree : tree.WellFormed) (target path : String) :
    Performs (symlink target path) tree fun id later => later.lookup path = .ok id := by
  refine .get (.lift fun found hparent => ?_)
  obtain ⟨parent, _ | name⟩ := found
  · exact performs_throw _
  · obtain ⟨hdirectory, hname⟩ := htree.of_parentOf hparent
    dsimp only
    split
    · exact performs_throw _
    · rename_i htarget
      split
      · exact performs_throw _
      · rename_i hfree
        have hcontent : (Content.symlink target).IsNew := by
          refine ⟨rfl, fun _ h => (nomatch h), ?_⟩
          intro other hother
          cases hother
          omega
        refine (performs_add hdirectory (Option.not_isSome_iff_eq_none.mp hfree) hname
          hcontent rfl).mono fun child later hbecomes hadded => ?_
        exact lookup_of_parentOf hparent hbecomes.growsTo hadded.1

theorem keeps_mkdir (path : String) : Keeps (mkdir path) :=
  fun _ htree => htree.becomes (htree.performs_mkdir path).becomes

theorem keeps_openFile (path : String) (create : Bool) : Keeps (openFile path create) :=
  fun _ htree => htree.becomes (htree.performs_openFile path create).becomes

theorem keeps_symlink (target path : String) : Keeps (symlink target path) :=
  fun _ htree => htree.becomes (htree.performs_symlink target path).becomes

theorem performs_change (path : String) {update : Attributes → Attributes}
    (hmode : ∀ attributes, IsMode attributes.mode → IsMode (update attributes).mode) :
    Performs (change path update) tree fun _ _ => True := by
  refine .get (.lift fun id _ => ?_)
  exact ⟨.single (.setAttributes id hmode), fileBytes_setAttributes tree id update,
    fun _ _ => trivial⟩

/-- A write changes a tree only as it puts bytes into a file, whatever handle it goes through. -/
theorem becomes_write (tree : Tree) (handle : FileHandle) (bytes : Bytes) :
    tree.Becomes ((write bytes).run (handle, tree)).2.2 := by
  rw [write, Action.run_bind_of_ok (Action.run_get _)]
  dsimp only
  split
  · split
    · exact .refl
    · rename_i hfits
      exact .single (.overwrite handle.node (Nat.le_of_not_lt hfits))
  · exact .refl

end Operations

end TreeImage.Staging.Tree
