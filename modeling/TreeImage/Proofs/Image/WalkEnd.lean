import Mathlib.Data.List.Chain
import Mathlib.Data.List.ProdSigma
import Mathlib.Logic.Relation
import TreeImage.Proofs.Image.LinkSubstitution
import TreeImage.Proofs.Image.TreeWalk
import TreeImage.Proofs.Walk.Depth

/-!
Which walks over an image end.  A walk goes down by paths, and a path may expand links; there are
only so many directories and so many links that a path may expand, so a walk that goes deep enough
comes back to a directory without expanding a link in between.  From there it comes back again and
again: a walk ends just if no directory that it meets is below itself.
-/

namespace TreeImage

open Format Walk

namespace Image

variable {image : Image} {path : String} {names : List String} {count : Nat} {location : Location}

theorem Reaches.append {middle last : Location} {more : Nat}
    (hfirst : image.Reaches names location count middle) {rest : List String}
    (hrest : image.Reaches rest middle more last) :
    image.Reaches (names ++ rest) location (count + more) last := by
  induction hfirst with
  | done location =>
      rw [Nat.zero_add]
      exact hrest
  | up _ ih => exact .up (ih hrest)
  | down hname hfinds hbody _ ih => exact .down hname hfinds hbody (ih hrest)
  | link hname hfinds hbody htarget hne _ ih =>
      have hlater := ih hrest
      rw [List.append_assoc] at hlater
      rw [Nat.add_right_comm]
      exact .link hname hfinds hbody htarget hne hlater

/-- Whether a path leads to a location, with a number of links expanded that is allowed. -/
structure StandsAt (image : Image) (path : String) (count : Nat) (location : Location) : Prop where
  count_le : count ≤ maxExpansions
  reaches : ∃ root, image.root = .ok root ∧
    image.Reaches (Text.segments path) ⟨root, []⟩ count location

theorem exists_standsAt {directory : Directory}
    (hresolve : image.resolve path true = .ok directory.inode) :
    ∃ count location, image.StandsAt path count location ∧ location.current = directory := by
  obtain ⟨root, count, location, hroot, hcount, hreaches, hcurrent⟩ := reaches_of_resolve hresolve
  exact ⟨count, location, ⟨hcount, root, hroot, hreaches⟩, hcurrent⟩

theorem StandsAt.resolve (hstands : image.StandsAt path count location) :
    image.resolve path true = .ok location.current.inode := by
  obtain ⟨hcount, root, hroot, hreaches⟩ := hstands
  have hlast : ([] : List Segment) ≠ [] ∨ (Query.mk path true).followLast = true := Or.inr rfl
  have hfollows := resolveFrom_of_reaches ⟨path, true⟩ hreaches
    (map_name_segmentsOf false path) hlast maxExpansions
  rw [List.append_nil, if_pos hcount] at hfollows
  rw [resolve_of_root hroot, hfollows, resolveFrom_eq_follow]
  rfl

theorem StandsAt.source_eq (hstands : image.StandsAt path count location) :
    image.source path = (image.readListing location.current.body).map
      (List.map fun entry => (⟨entry.name, entry.kind⟩ : Entry)) := by
  have hentries : image.entries path = image.readListing location.current.body := by
    rw [Image.entries, hstands.resolve, Except.ok_bind, location.current.body_eq]
  rw [Image.source, hentries]
  cases image.readListing location.current.body with
  | error error => rfl
  | ok listing => rfl

theorem exists_standsAt_of_source {entries : List Entry}
    (hsource : image.source path = .ok entries) :
    ∃ count location, image.StandsAt path count location := by
  obtain ⟨listing, hentries, -⟩ := Except.bind_eq_ok.mp hsource
  obtain ⟨inode, hresolve, hentries⟩ := Except.bind_eq_ok.mp hentries
  split at hentries
  · rename_i body hbody
    have hdirectory : image.resolve path true = .ok (Directory.mk inode body hbody).inode :=
      hresolve
    obtain ⟨count, location, hstands, -⟩ := exists_standsAt hdirectory
    exact ⟨count, location, hstands⟩
  · cases hentries

theorem StandsAt.exists_below (hstands : image.StandsAt path count location) {name : String}
    (hname : Listing.isEntryName name = true) {entries : List Entry}
    (hsource : image.source (Text.joinPath path name) = .ok entries) :
    ∃ more below, image.Reaches [name] location more below ∧
      image.StandsAt (Text.joinPath path name) (count + more) below := by
  obtain ⟨_, _, hbelow⟩ := exists_standsAt_of_source hsource
  have hresolve := hbelow.resolve
  obtain ⟨hcount, root, hroot, hreaches⟩ := hstands
  have hsegments := Text.segments_joinPath path (Listing.segments_of_isEntryName hname)
  have hjoined : segmentsOf false (Text.joinPath path name) =
      segmentsOf false path ++ [⟨name, false⟩] := by
    rw [segmentsOf, hsegments, List.map_append]
    rfl
  have hlast : [Segment.mk name false] ≠ [] ∨
      (Query.mk (Text.joinPath path name) true).followLast = true := Or.inr rfl
  rw [resolve_of_root hroot, hjoined,
    resolveFrom_of_reaches _ hreaches (map_name_segmentsOf false path) hlast, if_pos hcount]
    at hresolve
  obtain ⟨more, below, hmore, hstep, -⟩ :=
    reaches_of_resolveFrom (Directory.body_eq _) rfl hresolve
  refine ⟨more, below, hstep, by omega, root, hroot, ?_⟩
  rw [hsegments]
  exact hreaches.append hstep

section Places

/-- Whether the inode of a directory is read from a place. -/
def IsPlaced (image : Image) (directory : Directory) : Prop :=
  ∃ ref, image.readInode ref = .ok directory.inode

theorem isPlaced_of_reaches {last : Location} (hreaches : image.Reaches names location count last)
    (hroot : image.IsPlaced location.root)
    (hplaced : ∀ directory ∈ location.below, image.IsPlaced directory) :
    image.IsPlaced last.current := by
  induction hreaches with
  | done location =>
      unfold Location.current
      cases hbelow : location.below with
      | nil => exact hroot
      | cons directory rest => exact hplaced directory (hbelow ▸ List.mem_cons_self)
  | up _ ih => exact ih hroot fun directory hmem => hplaced directory (List.mem_of_mem_tail hmem)
  | down _ hfinds _ _ ih =>
      refine ih hroot ?_
      intro directory hmem
      rcases List.mem_cons.mp hmem with rfl | hmem
      · obtain ⟨_, entry, -, -, hread⟩ := hfinds
        exact ⟨entry.ref, hread⟩
      · exact hplaced directory hmem
  | link _ _ _ _ _ _ ih =>
      rw [targetStart] at ih
      split at ih
      · exact ih hroot fun directory hmem => absurd hmem List.not_mem_nil
      · exact ih hroot hplaced

theorem StandsAt.isPlaced (hstands : image.StandsAt path count location) :
    image.IsPlaced location.current := by
  obtain ⟨-, root, hroot, hreaches⟩ := hstands
  refine isPlaced_of_reaches hreaches ?_ fun directory hmem => absurd hmem List.not_mem_nil
  obtain ⟨inode, hread, hbody⟩ := Except.bind_eq_ok.mp hroot
  refine ⟨image.superblock.root, ?_⟩
  rw [hread]
  split at hbody
  · cases hbody
    rfl
  · cases hbody

end Places

/-- Whether a directory has another one as an entry that is told to be a directory. -/
def Enters (image : Image) (directory below : Directory) : Prop :=
  ∃ listing entry, image.readListing directory.body = .ok listing ∧ entry ∈ listing ∧
    entry.kind = .directory ∧ image.Finds directory entry.name below.inode

/-- Whether a walk from a directory meets one that is below itself. -/
def ComesBack (image : Image) (path : String) : Prop :=
  ∃ names directory, Nests image.source path names ∧
    image.resolve (pathBelow path names) true = .ok directory.inode ∧
    Relation.TransGen image.Enters directory directory

section Repeats

/-- A number of links that were expanded, and the directory that was reached. -/
abbrev Stop := Nat × Directory

/-- Whether a walk can go on from a stop to another one.  If no link is expanded on the way, it
enters the directory. -/
def GoesOn (image : Image) (left right : Stop) : Prop :=
  left.1 ≤ right.1 ∧ (left.1 = right.1 → image.Enters left.2 right.2)

theorem enters_of_transGen {left right : Stop} (hgoes : Relation.TransGen image.GoesOn left right) :
    left.1 ≤ right.1 ∧ (left.1 = right.1 → Relation.TransGen image.Enters left.2 right.2) := by
  induction hgoes with
  | single hstep => exact ⟨hstep.1, fun hsame => .single (hstep.2 hsame)⟩
  | tail _ hstep ih =>
      refine ⟨Nat.le_trans ih.1 hstep.1, fun hsame => ?_⟩
      have hmiddle := Nat.le_antisymm ih.1 (hsame ▸ hstep.1)
      exact (ih.2 hmiddle).tail (hstep.2 (hmiddle ▸ hsame))

structure IsMet (image : Image) (path : String) (stop : Stop) : Prop where
  count_le : stop.1 ≤ maxExpansions
  isPlaced : image.IsPlaced stop.2
  resolve : ∃ names, Nests image.source path names ∧
    image.resolve (pathBelow path names) true = .ok stop.2.inode

theorem enters_of_reaches {below : Location} {name : String} (hname : name ≠ "..")
    (hreaches : image.Reaches [name] location 0 below) {listing : List ListingEntry}
    (hlisting : image.readListing location.current.body = .ok listing) {entry : ListingEntry}
    (hmem : entry ∈ listing) (hkind : entry.kind = .directory) (hentry : entry.name = name) :
    image.Enters location.current below.current := by
  cases hreaches with
  | up _ => exact absurd rfl hname
  | down _ hfinds hbody hrest =>
      cases hrest
      exact ⟨listing, entry, hlisting, hmem, hkind, hentry ▸ hfinds⟩

theorem IsMet.of_below {entries : List Entry} (hlist : image.source path = .ok entries)
    {entry : Entry} (hmem : entry ∈ entries) (hdirectory : entry.isDirectory = true) {stop : Stop}
    (hmet : image.IsMet (Text.joinPath path entry.name) stop) : image.IsMet path stop := by
  obtain ⟨hcount, hplaced, names, hnests, hresolve⟩ := hmet
  exact ⟨hcount, hplaced, entry.name :: names, .down hlist hmem hdirectory hnests, hresolve⟩

theorem StandsAt.isMet (hstands : image.StandsAt path count location) {entries : List Entry}
    (hlist : image.source path = .ok entries) : image.IsMet path (count, location.current) :=
  ⟨hstands.count_le, hstands.isPlaced, [], .here hlist, hstands.resolve⟩

theorem exists_trail (hnests : Nests image.source path names)
    (hstands : image.StandsAt path count location) :
    ∃ trail : List Stop, trail.length = names.length ∧
      ((count, location.current) :: trail).IsChain image.GoesOn ∧
      ∀ stop ∈ (count, location.current) :: trail, image.IsMet path stop := by
  induction hnests generalizing count location with
  | here hlist =>
      refine ⟨[], rfl, List.isChain_singleton _, ?_⟩
      intro stop hmem
      rw [List.mem_singleton.mp hmem]
      exact hstands.isMet hlist
  | @down path entries entry names hlist hmem hdirectory hbelow ih =>
      obtain ⟨listing, hlisting, hentries⟩ : ∃ listing,
          image.readListing location.current.body = .ok listing ∧
            listing.map (fun entry => (⟨entry.name, entry.kind⟩ : Entry)) = entries := by
        have hread := hstands.source_eq.symm.trans hlist
        cases hlisting : image.readListing location.current.body with
        | error error =>
            rw [hlisting] at hread
            cases hread
        | ok listing =>
            rw [hlisting] at hread
            exact ⟨listing, rfl, Except.ok.inj hread⟩
      obtain ⟨found, hfound, rfl⟩ := List.mem_map.mp (hentries ▸ hmem)
      have hname := isEntryName_of_mem_readListing hlisting hfound
      obtain ⟨children, hchildren⟩ := hbelow.exists_list
      obtain ⟨more, below, hstep, hnext⟩ := hstands.exists_below hname hchildren
      obtain ⟨trail, hlength, hchain, hmet⟩ := ih hnext
      refine ⟨(count + more, below.current) :: trail, congrArg (· + 1) hlength, ?_, ?_⟩
      · refine List.isChain_cons_cons.mpr ⟨⟨Nat.le_add_right _ _, fun hsame => ?_⟩, hchain⟩
        obtain rfl : more = 0 := Nat.add_eq_left.mp hsame.symm
        exact enters_of_reaches (Listing.ne_up_of_isEntryName hname) hstep hlisting hfound
          (beq_iff_eq.mp hdirectory) rfl
      · intro stop hstop
        rcases List.mem_cons.mp hstop with rfl | hstop
        · exact hstands.isMet hlist
        · exact (hmet stop hstop).of_below hlist hmem hdirectory

/-- A trail that is longer than there are places, with every number of links, comes back. -/
theorem exists_repeat {trail : List Stop} (hchain : trail.IsChain image.GoesOn)
    (hmet : ∀ stop ∈ trail, image.IsMet path stop) (hlong : image.walkDepth < trail.length) :
    ∃ stop ∈ trail, Relation.TransGen image.GoesOn stop stop := by
  by_contra hnone
  have hplaces : ∀ stop : Stop, ∃ ref, image.IsPlaced stop.2 →
      image.readInode ref = .ok stop.2.inode := by
    intro stop
    by_cases hplaced : image.IsPlaced stop.2
    · exact hplaced.imp fun ref hread _ => hread
    · exact ⟨image.superblock.root, fun h => absurd h hplaced⟩
  choose place hplace using hplaces
  -- no two stops of the trail have the same number of links and the same place
  have hdistinct : (trail.map fun stop => (stop.1, placeNumber (place stop))).Nodup := by
    refine List.pairwise_map.mpr ?_
    have hlater : trail.Pairwise (Relation.TransGen image.GoesOn) :=
      (hchain.imp fun _ _ hstep => .single hstep).pairwise
    refine hlater.imp_of_mem ?_
    intro left right hleft hright hgoes hsame
    obtain ⟨hcount, hnumber⟩ := Prod.mk.inj hsame
    have hinode : left.2.inode = right.2.inode := by
      have hread := hplace left (hmet left hleft).isPlaced
      rw [eq_of_placeNumber_eq hnumber, hplace right (hmet right hright).isPlaced] at hread
      exact (Except.ok.inj hread).symm
    have hequal : left = right := Prod.ext hcount (directory_eq_of_inode_eq hinode)
    exact hnone ⟨left, hleft, hequal ▸ hgoes⟩
  have hsubset : (trail.map fun stop => (stop.1, placeNumber (place stop))) ⊆
      List.range (maxExpansions + 1) ×ˢ List.range image.inodePlaces := by
    intro pair hmem
    obtain ⟨stop, hstop, rfl⟩ := List.mem_map.mp hmem
    have hstopMet := hmet stop hstop
    exact List.pair_mem_product.mpr
      ⟨List.mem_range.mpr (Nat.lt_succ_of_le hstopMet.count_le),
        List.mem_range.mpr (placeNumber_lt_of_readInode (hplace stop hstopMet.isPlaced))⟩
  have hlength := hdistinct.length_le_of_subset hsubset
  rw [List.length_map, List.length_product, List.length_range, List.length_range] at hlength
  exact absurd hlong (Nat.not_lt.mpr hlength)

end Repeats

theorem isShallow_of_not_comesBack (hnever : ¬image.ComesBack path) :
    IsShallow image.source image.walkDepth path := by
  intro names hnests
  by_contra hlong
  obtain ⟨entries, hlist⟩ := hnests.exists_list
  obtain ⟨count, location, hstands⟩ := exists_standsAt_of_source hlist
  obtain ⟨trail, hlength, hchain, hmet⟩ := exists_trail hnests hstands
  obtain ⟨stop, hmem, hgoes⟩ := exists_repeat hchain hmet (by rw [List.length_cons]; omega)
  obtain ⟨names, hnames, hresolve⟩ := (hmet stop hmem).resolve
  exact hnever ⟨names, stop.2, hnames, hresolve, (enters_of_transGen hgoes).2 rfl⟩

theorem StandsAt.down (hstands : image.StandsAt path count location) {below : Directory}
    {name : String} (hname : Listing.isEntryName name = true)
    (hfinds : image.Finds location.current name below.inode) :
    image.StandsAt (Text.joinPath path name) count (location.down below) := by
  obtain ⟨hcount, root, hroot, hreaches⟩ := hstands
  have hstep : image.Reaches [name] location 0 (location.down below) :=
    .down (Listing.ne_up_of_isEntryName hname) hfinds below.body_eq (.done _)
  refine ⟨hcount, root, hroot, ?_⟩
  rw [Text.segments_joinPath path (Listing.segments_of_isEntryName hname)]
  exact hreaches.append hstep

theorem exists_nests_of_transGen (hstands : image.StandsAt path count location)
    (hback : Relation.TransGen image.Enters location.current location.current) (depth : Nat) :
    ∃ names, Nests image.source path names ∧ names.length = depth := by
  induction depth generalizing path location with
  | zero =>
      obtain ⟨_, ⟨listing, _, hlisting, -⟩, -⟩ := Relation.TransGen.head'_iff.mp hback
      have hlist := hstands.source_eq
      rw [hlisting] at hlist
      exact ⟨[], .here hlist, rfl⟩
  | succ depth ih =>
      obtain ⟨below, hstep, hrest⟩ := Relation.TransGen.head'_iff.mp hback
      -- the directory that is entered is on the way back too
      have hloop : Relation.TransGen image.Enters below below :=
        Relation.TransGen.tail'_iff.mpr ⟨location.current, hrest, hstep⟩
      obtain ⟨listing, entry, hlisting, hmem, hkind, hfinds⟩ := hstep
      have hname := isEntryName_of_mem_readListing hlisting hmem
      obtain ⟨names, hnests, hlength⟩ := ih (hstands.down hname hfinds) hloop
      have hlist := hstands.source_eq
      rw [hlisting] at hlist
      refine ⟨entry.name :: names, ?_, congrArg (· + 1) hlength⟩
      exact .down hlist (List.mem_map_of_mem hmem) (beq_iff_eq.mpr hkind) hnests

theorem not_isShallow_of_comesBack (hback : image.ComesBack path) (depth : Nat) :
    ¬IsShallow image.source depth path := by
  obtain ⟨front, directory, hnests, hresolve, hloop⟩ := hback
  obtain ⟨count, location, hstands, rfl⟩ := exists_standsAt hresolve
  obtain ⟨rest, hrest, hlength⟩ := exists_nests_of_transGen hstands hloop depth
  intro hshallow
  have hlt := hshallow _ (hnests.append hrest)
  rw [List.length_append] at hlt
  omega

/-- A walk over an image, by a visitor that always goes on, ends just if it meets no directory that
is below itself.  Then the levels that a walk over an image is given are enough for every visitor:
no walk is changed by more of them.  Otherwise no number of levels is enough: every walk is cut off,
after as many visits as there are levels at least. -/
theorem walk_ends_or_comesBack (image : Image) (path : String) :
    (¬image.ComesBack path →
      (∃ visits, ∀ history,
        (image.walk path .tireless).run history = (.ok (), history ++ visits)) ∧
      ∀ (σ : Type) (visit : Visitor σ) (depth : Nat), image.walkDepth ≤ depth →
        TreeImage.walk image.source depth path visit = image.walk path visit) ∧
    (image.ComesBack path → ∀ depth, ∃ directory visits, depth ≤ visits.length ∧
      ∀ history, (TreeImage.walk image.source depth path .tireless).run history =
        (.error (.treeTooDeep directory), history ++ visits)) := by
  constructor
  · intro hnever
    have hshallow := isShallow_of_not_comesBack hnever
    refine ⟨ends_walk hshallow, ?_⟩
    intro σ visit depth hdepth
    exact walk_congr visit (fun names hnests => Nat.lt_of_lt_of_le (hshallow names hnests) hdepth)
      hshallow
  · intro hback depth
    exact isCut_walk (not_isShallow_of_comesBack hback depth)

theorem not_comesBack_of_listing {directory : Directory}
    (hresolve : image.resolve path true = .ok directory.inode) {listing : List ListingEntry}
    (hlisting : image.readListing directory.body = .ok listing)
    (hnone : ∀ entry ∈ listing, entry.kind ≠ .directory) : ¬image.ComesBack path := by
  rintro ⟨names, other, hnests, hother, hloop⟩
  obtain ⟨count, location, hstands, rfl⟩ := exists_standsAt hresolve
  have hlist := hstands.source_eq
  rw [hlisting] at hlist
  cases hnests with
  | here _ =>
      obtain rfl : location.current = other :=
        directory_eq_of_inode_eq (Except.ok.inj (hresolve.symm.trans hother))
      obtain ⟨_, ⟨found, entry, hfound, hmem, hkind, -⟩, -⟩ := Relation.TransGen.head'_iff.mp hloop
      obtain rfl := Except.ok.inj (hlisting.symm.trans hfound)
      exact hnone entry hmem hkind
  | down hfound hmem hdirectory _ =>
      obtain rfl := Except.ok.inj (hlist.symm.trans hfound)
      obtain ⟨entry, hentry, rfl⟩ := List.mem_map.mp hmem
      exact hnone entry hentry (beq_iff_eq.mp hdirectory)

/-- The directory `d` of the sample image is walked to the end, as its link up is no directory. -/
theorem walk_ends_d :
    ∃ visits, ∀ history,
      (linkedImage.walk "d" .tireless).run history = (.ok (), history ++ visits) := by
  have hresolve : linkedImage.resolve "d" true = .ok linkedDirectory.inode :=
    Except.eq_ok_of_toOption (by decide +kernel)
  have hlisting : linkedImage.readListing linkedDirectory.body =
      .ok [⟨"f", .file, 1, ⟨0, 0⟩⟩, ⟨"up", .symlink, 2, ⟨0, 36⟩⟩] :=
    Except.eq_ok_of_toOption (by decide +kernel)
  exact ((walk_ends_or_comesBack linkedImage "d").1
    (not_comesBack_of_listing hresolve hlisting (by decide))).1

/-- An image of a root that has one entry, a directory with the name `a`, which is the root. -/
def loopImageBytes : Bytes := [
    104, 115, 113, 115, 1, 0, 0, 0, 0, 0, 0, 0, 0, 16, 0, 0, 0, 0, 0, 0, 1, 0, 12, 0, 27, 2, 1, 0,
    4, 0, 0, 0, 0, 0, 0, 0, 0, 0, 0, 0, 167, 0, 0, 0, 0, 0, 0, 0, 159, 0, 0, 0, 0, 0, 0, 0, 255,
    255, 255, 255, 255, 255, 255, 255, 96, 0, 0, 0, 0, 0, 0, 0, 130, 0, 0, 0, 0, 0, 0, 0, 153, 0,
    0, 0, 0, 0, 0, 0, 255, 255, 255, 255, 255, 255, 255, 255, 32, 128, 1, 0, 237, 1, 0, 0, 0, 0, 0,
    0, 0, 0, 1, 0, 0, 0, 0, 0, 0, 0, 2, 0, 0, 0, 24, 0, 0, 0, 2, 0, 0, 0, 21, 128, 0, 0, 0, 0, 0,
    0, 0, 0, 1, 0, 0, 0, 0, 0, 0, 0, 1, 0, 0, 0, 97, 4, 128, 0, 0, 0, 0, 153, 0, 0, 0, 0, 0, 0, 0]

/-- The root of that image. -/
def loopDirectory : Directory where
  inode :=
    { permissions := 0o755, uidIndex := 0, gidIndex := 0, mtime := 0, inodeNumber := 1,
      body := .directory
        { startBlock := 0, offset := 0, fileSize := 24, linkCount := 2, parentInode := 2,
          xattr := noXattr } }
  body :=
    { startBlock := 0, offset := 0, fileSize := 24, linkCount := 2, parentInode := 2,
      xattr := noXattr }
  body_eq := rfl

theorem facts_loopImage :
    ∃ image, ofRegion Codecs.machine (Region.ofStorage (Storage.ofBytes loopImageBytes) 0 0) =
        .ok image ∧
      image.resolve "/" true = .ok loopDirectory.inode ∧
      image.readListing loopDirectory.body = .ok [⟨"a", .directory, 1, ⟨0, 0⟩⟩] ∧
      image.readInode ⟨0, 0⟩ = .ok loopDirectory.inode := by
  have hfacts : (ofRegion Codecs.machine
      (Region.ofStorage (Storage.ofBytes loopImageBytes) 0 0)).toOption.map
      (fun image => ((image.resolve "/" true).toOption,
        (image.readListing loopDirectory.body).toOption, (image.readInode ⟨0, 0⟩).toOption)) =
      some (some loopDirectory.inode, some [⟨"a", .directory, 1, ⟨0, 0⟩⟩],
        some loopDirectory.inode) := by
    decide +kernel
  cases hopen : ofRegion Codecs.machine (Region.ofStorage (Storage.ofBytes loopImageBytes) 0 0) with
  | error error =>
      rw [hopen] at hfacts
      cases hfacts
  | ok image =>
      rw [hopen] at hfacts
      obtain ⟨hresolve, hfacts⟩ := Prod.mk.inj (Option.some.inj hfacts)
      obtain ⟨hlisting, hinode⟩ := Prod.mk.inj hfacts
      exact ⟨image, rfl, Except.eq_ok_of_toOption hresolve, Except.eq_ok_of_toOption hlisting,
        Except.eq_ok_of_toOption hinode⟩

/-- Not every image that opens is walked to the end: with a directory that is below itself, a walk
is cut off however many levels it is given. -/
theorem not_every_walk_ends :
    ¬∀ (content : Bytes) (image : Image) (path : String),
      ofRegion Codecs.machine (Region.ofStorage (Storage.ofBytes content) 0 0) = .ok image →
        ∃ depth visits,
          (TreeImage.walk image.source depth path .tireless).run [] = (.ok (), visits) := by
  intro hevery
  obtain ⟨image, hopen, hresolve, hlisting, hinode⟩ := facts_loopImage
  obtain ⟨count, location, hstands, hcurrent⟩ := exists_standsAt hresolve
  have hlist := hstands.source_eq
  rw [hcurrent, hlisting] at hlist
  have henters : image.Enters loopDirectory loopDirectory :=
    ⟨_, _, hlisting, List.mem_singleton_self _, rfl, _, _, hlisting, rfl, hinode⟩
  obtain ⟨depth, visits, hrun⟩ := hevery loopImageBytes image "/" hopen
  obtain ⟨directory, visits, -, hcut⟩ := isCut_walk (not_isShallow_of_comesBack
    ⟨[], loopDirectory, .here hlist, hresolve, .single henters⟩ depth)
  rw [hcut] at hrun
  cases hrun

end Image

end TreeImage
