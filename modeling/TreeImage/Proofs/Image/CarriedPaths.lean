import TreeImage.Image.Query
import TreeImage.Proofs.Image.Carried
import TreeImage.Proofs.Image.LinkSubstitution

namespace TreeImage

open Build Format Staging

namespace Image

variable {image : Image} {codec : Codec} {blockSize : UInt32} {plan : Plan} {tables : Tables}
  {inodes listings : Bytes}

/-- Whether a directory of an image is a node of the tree. -/
def IsAt (image : Image) (tables : Tables) (id : NodeId) (directory : Directory) : Prop :=
  image.readInode (Tables.ref tables.refs id) = .ok directory.inode

theorem find?_listing {refs : Array RecordRef} {id child : NodeId} {name : String}
    (hchild : plan.tree.child? id name = some child) :
    (Tables.listing plan refs id).find? (·.name == name) = some
      { name
        kind := plan.tree.kind child
        inodeNumber := plan.numbering.number child
        ref := Tables.ref refs child } := by
  cases hfind : (Tables.listing plan refs id).find? (·.name == name) with
  | none =>
      have hmissing := List.find?_eq_none.mp hfind _
        (List.mem_map_of_mem (Tree.mem_children.mpr hchild))
      simp at hmissing
  | some entry =>
      obtain ⟨⟨other, found⟩, hmem, rfl⟩ := List.mem_map.mp (List.mem_of_find?_eq_some hfind)
      obtain rfl : other = name := by simpa using List.find?_some hfind
      rw [Tree.mem_children, hchild] at hmem
      cases hmem
      rfl

theorem find?_listing_of_none {refs : Array RecordRef} {id : NodeId} {name : String}
    (hchild : plan.tree.child? id name = none) :
    (Tables.listing plan refs id).find? (·.name == name) = none := by
  rw [List.find?_eq_none]
  intro entry hentry hname
  obtain ⟨⟨other, found⟩, hmem, rfl⟩ := List.mem_map.mp hentry
  obtain rfl : other = name := by simpa using hname
  rw [Tree.mem_children, hchild] at hmem
  cases hmem

section Resolve

variable (hcarries : image.Carries codec blockSize plan tables inodes listings)
  (hrecords : Records codec blockSize plan tables inodes listings)
include hcarries hrecords

theorem Carries.readListing_of_isAt {id : NodeId} {directory : Directory}
    (hid : id ∈ plan.numbering.order) (hdirectory : plan.tree.isDirectory id = true)
    (hat : image.IsAt tables id directory) :
    image.readListing directory.body = .ok (Tables.listing plan tables.refs id) := by
  obtain ⟨entries, attributes, hnode⟩ := Tree.isDirectory_iff.mp hdirectory
  obtain ⟨inode, hread, hdescribes⟩ := hcarries.readInode hrecords hid hnode
  obtain rfl : inode = directory.inode := Except.ok.inj (hread.symm.trans hat)
  obtain ⟨body, hbody, hlisting, -⟩ := hcarries.readListing hrecords hid hdescribes rfl
  cases directory.body_eq.symm.trans hbody
  exact hlisting

theorem Carries.exists_directory {id : NodeId} (hid : id ∈ plan.numbering.order)
    (hdirectory : plan.tree.isDirectory id = true) :
    ∃ directory : Directory, image.IsAt tables id directory := by
  obtain ⟨entries, attributes, hnode⟩ := Tree.isDirectory_iff.mp hdirectory
  obtain ⟨inode, hread, hdescribes⟩ := hcarries.readInode hrecords hid hnode
  obtain ⟨body, hbody, -⟩ := hdescribes.directory entries rfl
  exact ⟨⟨inode, body, hbody⟩, hread⟩

theorem Carries.exists_root :
    ∃ root, image.root = .ok root ∧ image.IsAt tables Staging.root root := by
  have hroot := root_mem_postOrder hrecords.wellFormed
  rw [← hrecords.order_eq] at hroot
  obtain ⟨directory, hat⟩ :=
    hcarries.exists_directory hrecords hroot hrecords.wellFormed.root_isDirectory
  refine ⟨directory, ?_, hat⟩
  unfold Image.root
  rw [hcarries.root_eq, show image.readInode _ = _ from hat, Except.ok_bind]
  split
  · exact congrArg Except.ok (directory_eq_of_inode_eq rfl)
  · rename_i hother
    exact absurd directory.body_eq (hother directory.body)

theorem Carries.reaches_of_descend {x y : NodeId} {names : List String} {location : Location}
    (hx : x ∈ plan.numbering.order) (hat : image.IsAt tables x location.current)
    (hdescend : plan.tree.descend x names = some y) (hy : plan.tree.isDirectory y = true)
    (hnames : ∀ name ∈ names, name ≠ "..") :
    y ∈ plan.numbering.order ∧
      ∃ last, image.Reaches names location 0 last ∧ image.IsAt tables y last.current := by
  induction names generalizing x location with
  | nil =>
      cases hdescend
      exact ⟨hx, location, .done location, hat⟩
  | cons name names ih =>
      obtain ⟨child, hchild, hrest⟩ := Tree.descend_cons_eq_some.mp hdescend
      have hmem : child ∈ plan.numbering.order := by
        rw [hrecords.order_eq] at hx ⊢
        exact mem_postOrder_of_child hrecords.wellFormed hx hchild
      obtain ⟨directory, hchildAt⟩ :=
        hcarries.exists_directory hrecords hmem (Tree.isDirectory_of_descend hrest hy)
      have hbelow : image.IsAt tables child (location.down directory).current := hchildAt
      obtain ⟨hlast, last, hreaches, hlastAt⟩ := ih hmem hbelow hrest fun other hother =>
        hnames other (List.mem_cons_of_mem _ hother)
      have hlisting :=
        hcarries.readListing_of_isAt hrecords hx (Tree.isDirectory_of_child? hchild) hat
      refine ⟨hlast, last, ?_, hlastAt⟩
      exact .down (hnames name List.mem_cons_self) ⟨_, _, hlisting, find?_listing hchild, hchildAt⟩
        directory.body_eq hreaches

theorem Carries.resolveFrom_child {query : Query} {parent id : NodeId} {name : String}
    {location : Location}
    (hlink : query.followLast = true → ∀ target attributes,
      plan.tree.node? id ≠ some ⟨.symlink target, attributes⟩)
    (hparent : parent ∈ plan.numbering.order) (hat : image.IsAt tables parent location.current)
    (hchild : plan.tree.child? parent name = some id) (hname : name ≠ "..") (budget : Nat) :
    ∃ inode, image.resolveFrom query budget [⟨name, false⟩] location = .ok inode ∧
      image.readInode (Tables.ref tables.refs id) = .ok inode := by
  have hid : id ∈ plan.numbering.order := by
    rw [hrecords.order_eq] at hparent ⊢
    exact mem_postOrder_of_child hrecords.wellFormed hparent hchild
  obtain ⟨⟨content, attributes⟩, hnode⟩ : ∃ node, plan.tree.node? id = some node :=
    ⟨_, Array.getElem?_eq_getElem (hrecords.wellFormed.child_lt hchild).2⟩
  obtain ⟨inode, hread, hdescribes⟩ := hcarries.readInode hrecords hid hnode
  have hlisting :=
    hcarries.readListing_of_isAt hrecords hparent (Tree.isDirectory_of_child? hchild) hat
  have hentry : image.findEntry query location.current ⟨name, false⟩ = .ok inode :=
    findEntry_eq_ok.mpr ⟨_, _, hlisting, find?_listing hchild, hread⟩
  refine ⟨inode, ?_, hread⟩
  rw [resolveFrom_eq_follow]
  cases content with
  | directory entries =>
      obtain ⟨body, hbody, -⟩ := hdescribes.directory entries rfl
      rw [follow_down hname hentry hbody, follow]
      rfl
  | file data =>
      have hbody := hdescribes.file data rfl
      rw [follow_other hname hentry (by simp [hbody]) (by simp [hbody])]
  | symlink target =>
      obtain ⟨body, hbody, -⟩ := hdescribes.symlink target rfl
      rw [follow_link hname hentry hbody, if_pos]
      refine ⟨rfl, ?_⟩
      cases hfollow : query.followLast with
      | false => rfl
      | true => exact absurd hnode (hlink hfollow target attributes)

/-- A path of the tree leads to the inode of its node, unless it is a link that is to be
followed. -/
theorem Carries.resolve_of_lookup {path : String} {id : NodeId}
    (hlookup : plan.tree.lookup path = .ok id) (followLast : Bool)
    (hlink : followLast = true → ∀ target attributes,
      plan.tree.node? id ≠ some ⟨.symlink target, attributes⟩) :
    id ∈ plan.numbering.order ∧ ∃ inode, image.resolve path followLast = .ok inode ∧
      image.readInode (Tables.ref tables.refs id) = .ok inode := by
  obtain ⟨hnames, hdescend⟩ := Tree.descend_of_lookup hlookup
  obtain ⟨root, hroot, hat⟩ := hcarries.exists_root hrecords
  have hmem : id ∈ plan.numbering.order := by
    rw [hrecords.order_eq]
    exact mem_postOrder_of_isBelow hrecords.wellFormed (isBelow_of_descend hdescend)
  have hrootMem : Staging.root ∈ plan.numbering.order := by
    rw [hrecords.order_eq]
    exact root_mem_postOrder hrecords.wellFormed
  have hup : ∀ name ∈ Text.segments path, name ≠ ".." := fun name hmem =>
    Listing.ne_up_of_isEntryName (hnames name hmem).valid
  refine ⟨hmem, ?_⟩
  rw [resolve_of_root hroot, segmentsOf]
  rcases List.eq_nil_or_concat (Text.segments path) with hnil | ⟨front, name, hlast⟩
  · rw [hnil] at hdescend ⊢
    cases hdescend
    exact ⟨root.inode, rfl, hat⟩
  · rw [List.concat_eq_append] at hlast
    rw [hlast] at hdescend hup ⊢
    obtain ⟨parent, hparent, hchild⟩ := Tree.descend_append_singleton.mp hdescend
    obtain ⟨hparentMem, location, hreaches, hparentAt⟩ :=
      hcarries.reaches_of_descend hrecords hrootMem
        (show image.IsAt tables Staging.root (Location.current ⟨root, []⟩) from hat) hparent
        (Tree.isDirectory_of_child? hchild) fun other hother =>
          hup other (List.mem_append_left _ hother)
    obtain ⟨inode, hresolve, hread⟩ := hcarries.resolveFrom_child hrecords
      (show (Query.mk path followLast).followLast = true → _ from hlink) hparentMem hparentAt
      hchild (hup name (by simp)) maxExpansions
    refine ⟨inode, ?_, hread⟩
    have hsegments :
        (front.map fun name => (⟨name, false⟩ : Segment)).map Segment.name = front := by
      simp [Function.comp_def]
    rw [List.map_append, List.map_singleton, resolveFrom_of_reaches _ hreaches hsegments
      (Or.inl (by simp)), if_pos (Nat.zero_le _)]
    exact hresolve

theorem Carries.resolve_missing {path name : String} {id : NodeId}
    (hlookup : plan.tree.lookup path = .ok id) (hdirectory : plan.tree.isDirectory id = true)
    (hname : Listing.isEntryName name = true) (hchild : plan.tree.child? id name = none)
    (followLast : Bool) :
    image.resolve (path ++ "/" ++ name) followLast =
      .error (.notFound (path ++ "/" ++ name)) := by
  obtain ⟨hnames, hdescend⟩ := Tree.descend_of_lookup hlookup
  obtain ⟨root, hroot, hat⟩ := hcarries.exists_root hrecords
  have hrootMem : Staging.root ∈ plan.numbering.order := by
    rw [hrecords.order_eq]
    exact root_mem_postOrder hrecords.wellFormed
  obtain ⟨hid, location, hreaches, hidAt⟩ :=
    hcarries.reaches_of_descend hrecords hrootMem
      (show image.IsAt tables Staging.root (Location.current ⟨root, []⟩) from hat) hdescend
      hdirectory fun other hother =>
        Listing.ne_up_of_isEntryName (hnames other hother).valid
  have hlisting := hcarries.readListing_of_isAt hrecords hid hdirectory hidAt
  have hsegments : Text.segments name ≠ [] := by
    rw [Listing.segments_of_isEntryName hname]
    exact List.cons_ne_nil name []
  rw [resolve_append_slash hroot hreaches (Nat.zero_le _) name followLast (Or.inl hsegments),
    segmentsOf_of_isEntryName hname, resolveFrom_eq_follow]
  refine follow_error (Listing.ne_up_of_isEntryName hname) ?_
  rw [findEntry, hlisting, Except.ok_bind, find?_listing_of_none hchild]
  rfl

end Resolve

end Image

end TreeImage
