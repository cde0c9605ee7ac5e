import TreeImage.Codec.Zlib
import TreeImage.Image.Query
import TreeImage.Proofs.Image.Basic
import TreeImage.Proofs.Image.Resolution
import TreeImage.Proofs.Text.Path

/-!
Substituting links.  A path through a link leads where the path with the link's target in its place
leads, except that the link itself takes one expansion of the budget.  What stands before the link
is walked once and for all, so the target and the rest of the path go on from the directory that
was reached.
-/

namespace TreeImage

open Format

namespace Image

variable {image : Image}

theorem resolve_eq_ok {path : String} {followLast : Bool} {inode : Inode} :
    image.resolve path followLast = .ok inode ↔
      ∃ root, image.root = .ok root ∧
        image.resolveFrom ⟨path, followLast⟩ maxExpansions (segmentsOf false path) ⟨root, []⟩ =
          .ok inode := by
  rw [resolve]
  exact Except.bind_eq_ok

theorem resolve_of_root {root : Directory} (hroot : image.root = .ok root) (path : String)
    (followLast : Bool) :
    image.resolve path followLast =
      image.resolveFrom ⟨path, followLast⟩ maxExpansions (segmentsOf false path) ⟨root, []⟩ := by
  rw [resolve, hroot]
  rfl

theorem directory_eq_of_inode_eq {left right : Directory} (hinode : left.inode = right.inode) :
    left = right := by
  rcases left with ⟨leftInode, leftBody, hleft⟩
  rcases right with ⟨rightInode, rightBody, hright⟩
  obtain rfl : leftInode = rightInode := hinode
  obtain rfl : leftBody = rightBody := InodeBody.directory.inj (hleft.symm.trans hright)
  rfl

theorem reaches_of_resolve {path : String} {directory : Directory}
    (hresolve : image.resolve path true = .ok directory.inode) :
    ∃ root count location, image.root = .ok root ∧ count ≤ maxExpansions ∧
      image.Reaches (Text.segments path) ⟨root, []⟩ count location ∧
        location.current = directory := by
  obtain ⟨root, hroot, hfrom⟩ := resolve_eq_ok.mp hresolve
  obtain ⟨count, location, hcount, hreaches, hinode⟩ :=
    reaches_of_resolveFrom directory.body_eq rfl hfrom
  rw [map_name_segmentsOf] at hreaches
  exact ⟨root, count, location, hroot, hcount, hreaches, directory_eq_of_inode_eq hinode⟩

theorem segmentsOf_append_slash (fromLink : Bool) (left right : String) :
    segmentsOf fromLink (left ++ "/" ++ right) =
      segmentsOf fromLink left ++ segmentsOf fromLink right := by
  rw [segmentsOf, Text.segments_append_slash, List.map_append]
  rfl

theorem segmentsOf_of_isEntryName {name : String} (hname : Listing.isEntryName name = true)
    (fromLink : Bool) : segmentsOf fromLink name = [⟨name, fromLink⟩] := by
  rw [segmentsOf, Listing.segments_of_isEntryName hname]
  rfl

theorem resolve_append_slash {root : Directory} (hroot : image.root = .ok root) {path : String}
    {count : Nat} {location : Location}
    (hreaches : image.Reaches (Text.segments path) ⟨root, []⟩ count location)
    (hcount : count ≤ maxExpansions) (rest : String) (followLast : Bool)
    (hrest : Text.segments rest ≠ [] ∨ followLast = true) :
    image.resolve (path ++ "/" ++ rest) followLast =
      image.resolveFrom ⟨path ++ "/" ++ rest, followLast⟩ (maxExpansions - count)
        (segmentsOf false rest) location := by
  have hsegments : segmentsOf false rest ≠ [] ∨ followLast = true := by
    rcases hrest with hrest | hrest
    · refine Or.inl fun hnil => hrest ?_
      rw [← map_name_segmentsOf false rest, hnil, List.map_nil]
    · exact Or.inr hrest
  have hfollows := resolveFrom_of_reaches ⟨path ++ "/" ++ rest, followLast⟩ hreaches
    (map_name_segmentsOf false path) hsegments maxExpansions
  rw [resolve_of_root hroot, segmentsOf_append_slash, hfollows, if_pos hcount]

theorem root_of_reaches {names : List String} {location last : Location} {count : Nat}
    (hreaches : image.Reaches names location count last) : last.root = location.root := by
  induction hreaches with
  | done location => rfl
  | up _ ih => exact ih
  | down _ _ _ _ ih => exact ih
  | link _ _ _ _ _ _ ih =>
      rw [ih, targetStart]
      split
      · rfl
      · rfl

/-- A link that is met on the way and expanded, with what is left of the budget. -/
theorem resolve_through_link {root : Directory} (hroot : image.root = .ok root) {path : String}
    {count : Nat} {location : Location}
    (hreaches : image.Reaches (Text.segments path) ⟨root, []⟩ count location)
    (hcount : count ≤ maxExpansions) {name : String} {listing : List ListingEntry}
    {entry : ListingEntry} {inode : Inode} {body : SymlinkBody}
    (hlisting : image.readListing location.current.body = .ok listing)
    (hentry : listing.find? (·.name == name) = some entry)
    (hinode : image.readInode entry.ref = .ok inode) (hbody : inode.body = .symlink body)
    (rest : String) (followLast : Bool)
    (hexpanded : Text.segments rest ≠ [] ∨ followLast = true) :
    image.resolve (path ++ "/" ++ name ++ "/" ++ rest) followLast =
      image.expandLink ⟨path ++ "/" ++ name ++ "/" ++ rest, followLast⟩ (maxExpansions - count)
        ⟨name, body, location, segmentsOf false rest⟩ := by
  have hfound : entry.name = name := by simpa using List.find?_some hentry
  have hvalid : Listing.isEntryName name = true :=
    hfound ▸ isEntryName_of_mem_readListing hlisting (List.mem_of_find?_eq_some hentry)
  have hup := Listing.ne_up_of_isEntryName hvalid
  have hsegments : segmentsOf false (name ++ "/" ++ rest) =
      ⟨name, false⟩ :: segmentsOf false rest := by
    rw [segmentsOf_append_slash, segmentsOf_of_isEntryName hvalid]
    rfl
  have hnonempty : Text.segments (name ++ "/" ++ rest) ≠ [] := by
    rw [← map_name_segmentsOf false, hsegments]
    simp
  have hkept : ¬(segmentsOf false rest = [] ∧ (!followLast) = true) := by
    rintro ⟨hnil, hlast⟩
    rcases hexpanded with hexpanded | hexpanded
    · rw [← map_name_segmentsOf false rest, hnil] at hexpanded
      exact hexpanded rfl
    · simp [hexpanded] at hlast
  have hpath : path ++ "/" ++ name ++ "/" ++ rest = path ++ "/" ++ (name ++ "/" ++ rest) := by
    simp only [String.append_assoc]
  have hfound : image.findEntry ⟨path ++ "/" ++ (name ++ "/" ++ rest), followLast⟩
      location.current ⟨name, false⟩ = .ok inode :=
    findEntry_eq_ok.mpr ⟨listing, entry, hlisting, hentry, hinode⟩
  rw [hpath, resolve_append_slash hroot hreaches hcount _ _ (Or.inl hnonempty), hsegments,
    resolveFrom_eq_follow, follow_link hup hfound hbody, if_neg hkept]

/-- The path in which the target of a link stands for the link and what comes before it. -/
def substituted (path target rest : String) : String :=
  if target.startsWith "/" then target ++ "/" ++ rest else path ++ "/" ++ target ++ "/" ++ rest

theorem resolve_substituted {root : Directory} (hroot : image.root = .ok root) {path : String}
    {count : Nat} {location : Location}
    (hreaches : image.Reaches (Text.segments path) ⟨root, []⟩ count location)
    (hcount : count ≤ maxExpansions) (target rest : String) (followLast : Bool)
    (hexpanded : Text.segments rest ≠ [] ∨ followLast = true) :
    ∃ budget, maxExpansions - count ≤ budget ∧
      image.resolve (substituted path target rest) followLast =
        image.resolveFrom ⟨substituted path target rest, followLast⟩ budget
          (segmentsOf false target ++ segmentsOf false rest) (targetStart target location) := by
  by_cases habsolute : target.startsWith "/"
  · refine ⟨maxExpansions, Nat.sub_le _ _, ?_⟩
    have htop : location.top = ⟨root, []⟩ := by
      rw [Location.top, root_of_reaches hreaches]
    rw [substituted, if_pos habsolute, targetStart, if_pos habsolute, htop, resolve_of_root hroot,
      segmentsOf_append_slash]
  · refine ⟨maxExpansions - count, Nat.le_refl _, ?_⟩
    have hjoined :
        path ++ "/" ++ target ++ "/" ++ rest = path ++ "/" ++ (target ++ "/" ++ rest) := by
      simp only [String.append_assoc]
    have hrest : Text.segments (target ++ "/" ++ rest) ≠ [] ∨ followLast = true := by
      rcases hexpanded with hexpanded | hexpanded
      · rw [Text.segments_append_slash]
        exact Or.inl fun hnil => hexpanded (List.append_eq_nil_iff.mp hnil).2
      · exact Or.inr hexpanded
    rw [substituted, if_neg habsolute, targetStart, if_neg habsolute, hjoined,
      resolve_append_slash hroot hreaches hcount _ _ hrest, segmentsOf_append_slash]

/-- A path through a link leads to an inode only if the path with the link's target in its place
leads to the same inode; the other way round, it can only need one expansion too many.  Both go on
from the place that the path before the link reaches, and two dots lead above that place. -/
theorem resolve_link_iff_substituted {path name target : String} {directory : Directory}
    {listing : List ListingEntry} {entry : ListingEntry} {inode : Inode} {body : SymlinkBody}
    (hpath : image.resolve path true = .ok directory.inode)
    (hlisting : image.readListing directory.body = .ok listing)
    (hentry : listing.find? (·.name == name) = some entry)
    (hinode : image.readInode entry.ref = .ok inode) (hbody : inode.body = .symlink body)
    (htarget : Text.ofUtf8? body.target = some target) (hne : target ≠ "")
    (rest : String) (followLast : Bool)
    (hexpanded : Text.segments rest ≠ [] ∨ followLast = true) :
    let through := path ++ "/" ++ name ++ "/" ++ rest
    (∀ found, image.resolve through followLast = .ok found →
      image.resolve (substituted path target rest) followLast = .ok found) ∧
    (∀ found, image.resolve (substituted path target rest) followLast = .ok found →
      image.resolve through followLast = .ok found ∨
        image.resolve through followLast = .error (.symlinkLoop through)) ∧
    ∃ root count location, image.root = .ok root ∧ count ≤ maxExpansions ∧
      image.Reaches (Text.segments path) ⟨root, []⟩ count location ∧
      location.current = directory ∧
      ∀ further follow, image.resolve (path ++ "/../" ++ further) follow =
        image.resolveFrom ⟨path ++ "/../" ++ further, follow⟩ (maxExpansions - count)
          (segmentsOf false further) location.up := by
  intro through
  obtain ⟨root, count, location, hroot, hcount, hreaches, rfl⟩ := reaches_of_resolve hpath
  have hthrough := resolve_through_link hroot hreaches hcount hlisting hentry hinode hbody rest
    followLast hexpanded
  obtain ⟨budget, hbudget, hreplaced⟩ :=
    resolve_substituted hroot hreaches hcount target rest followLast hexpanded
  -- with no budget left the link cannot be expanded; otherwise both paths walk the same names
  have hagree : Agree through (image.resolve through followLast)
      (image.resolve (substituted path target rest) followLast) := by
    rw [hthrough, hreplaced]
    cases hleft : maxExpansions - count with
    | zero => exact .usedUp _
    | succ left =>
        have hle : left ≤ budget := by omega
        have hnames : (segmentsOf true target ++ segmentsOf false rest).map Segment.name =
            (segmentsOf false target ++ segmentsOf false rest).map Segment.name := by
          simp only [List.map_append, map_name_segmentsOf]
        rw [expandLink, splice_eq_ok _ _ htarget hne]
        have hlast : Query.followLast ⟨through, followLast⟩ =
            Query.followLast ⟨substituted path target rest, followLast⟩ := rfl
        exact agree_resolveFrom hlast hle hnames _
  refine ⟨?_, ?_, root, count, location, hroot, hcount, hreaches, rfl, ?_⟩
  · intro found hfound
    rw [hfound] at hagree
    generalize image.resolve (substituted path target rest) followLast = result at hagree
    cases hagree
    rfl
  · intro found hfound
    rw [hfound] at hagree
    generalize image.resolve through followLast = result at hagree
    cases hagree with
    | found => exact Or.inl rfl
    | usedUp => exact Or.inr rfl
  · intro further follow
    have hsegments :
        segmentsOf false ("../" ++ further) = ⟨"..", false⟩ :: segmentsOf false further :=
      segmentsOf_append_slash false ".." further
    have hnonempty : Text.segments ("../" ++ further) ≠ [] := by
      rw [← map_name_segmentsOf false, hsegments]
      simp
    have hjoined : path ++ "/../" ++ further = path ++ "/" ++ ("../" ++ further) := by
      rw [show "/../" = "/" ++ "../" from rfl]
      simp only [String.append_assoc]
    rw [hjoined, resolve_append_slash hroot hreaches hcount _ _ (Or.inl hnonempty), hsegments,
      resolveFrom_eq_follow]
    exact follow_up rfl

/-- An image of a directory `d` with a file `f` and a link `up` to `../d`, all stored as it is. -/
def linkedImageBytes : Bytes := [
    104, 115, 113, 115, 4, 0, 0, 0, 0, 0, 0, 0, 0, 16, 0, 0, 0, 0, 0, 0, 1, 0, 12, 0, 27, 2, 1, 0,
    4, 0, 0, 0, 96, 0, 0, 0, 0, 0, 0, 0, 40, 1, 0, 0, 0, 0, 0, 0, 32, 1, 0, 0, 0, 0, 0, 0, 255,
    255, 255, 255, 255, 255, 255, 255, 98, 0, 0, 0, 0, 0, 0, 0, 228, 0, 0, 0, 0, 0, 0, 0, 26, 1,
    0, 0, 0, 0, 0, 0, 255, 255, 255, 255, 255, 255, 255, 255, 104, 105, 128, 128, 2, 0, 164, 1, 0,
    0, 0, 0, 0, 0, 0, 0, 1, 0, 0, 0, 96, 0, 0, 0, 255, 255, 255, 255, 0, 0, 0, 0, 2, 0, 0, 0, 2,
    0, 0, 1, 3, 0, 255, 1, 0, 0, 0, 0, 0, 0, 0, 0, 2, 0, 0, 0, 1, 0, 0, 0, 4, 0, 0, 0, 46, 46, 47,
    100, 1, 0, 237, 1, 0, 0, 0, 0, 0, 0, 0, 0, 3, 0, 0, 0, 0, 0, 0, 0, 2, 0, 0, 0, 34, 0, 0, 0, 4,
    0, 0, 0, 1, 0, 237, 1, 0, 0, 0, 0, 0, 0, 0, 0, 4, 0, 0, 0, 0, 0, 0, 0, 3, 0, 0, 0, 24, 0, 31,
    0, 5, 0, 0, 0, 52, 128, 1, 0, 0, 0, 0, 0, 0, 0, 1, 0, 0, 0, 0, 0, 0, 0, 2, 0, 0, 0, 102, 36,
    0, 1, 0, 3, 0, 1, 0, 117, 112, 0, 0, 0, 0, 0, 0, 0, 0, 3, 0, 0, 0, 64, 0, 0, 0, 1, 0, 0, 0,
    100, 4, 128, 0, 0, 0, 0, 26, 1, 0, 0, 0, 0, 0, 0]

/-- The bytes of that image, and nothing else. -/
def linkedRegion : Region := Region.ofStorage (Storage.ofBytes linkedImageBytes) 0 0

theorem exists_ofRegion_linkedRegion :
    ∃ image, ofRegion Codecs.machine linkedRegion = .ok image ∧
      image.content "d/up/f" = .ok [104, 105] := by
  have hreads : ((ofRegion Codecs.machine linkedRegion).bind
      fun image => image.content "d/up/f").toOption = some [104, 105] := by decide +kernel
  exact Except.bind_eq_ok.mp (Except.eq_ok_of_toOption hreads)

def linkedImage : Image where
  region := linkedRegion
  superblock :=
    { inodeCount := 4, modificationTime := 0, blockSize := 4096, fragmentCount := 0,
      compression := .gzip, blockLog := 12, flags := 539, idCount := 1, root := ⟨0, 96⟩,
      bytesUsed := 296, idTableStart := 288, xattrTableStart := noTable, inodeTableStart := 98,
      directoryTableStart := 228, fragmentTableStart := 282, exportTableStart := noTable }
  codec := Codecs.machine.gzip
  ids := #[0]
  fragments := #[]
  exports := none
  directoryTableEnd := 282

def linkedDirectory : Directory where
  inode :=
    { permissions := 0o755, uidIndex := 0, gidIndex := 0, mtime := 0, inodeNumber := 3,
      body := .directory
        { startBlock := 0, offset := 0, fileSize := 34, linkCount := 2, parentInode := 4,
          xattr := noXattr } }
  body :=
    { startBlock := 0, offset := 0, fileSize := 34, linkCount := 2, parentInode := 4,
      xattr := noXattr }
  body_eq := rfl

/-- Through the link, `d/up/f` is the file that `d/../d/f` is. -/
theorem resolve_d_up_f :
    linkedImage.resolve "d" true = .ok linkedDirectory.inode ∧
      ∃ listing entry inode body found,
        linkedImage.readListing linkedDirectory.body = .ok listing ∧
        listing.find? (·.name == "up") = some entry ∧
        linkedImage.readInode entry.ref = .ok inode ∧ inode.body = .symlink body ∧
        Text.ofUtf8? body.target = some "../d" ∧
        linkedImage.resolve ("d" ++ "/" ++ "up" ++ "/" ++ "f") true = .ok found ∧
        linkedImage.resolve (substituted "d" "../d" "f") true = .ok found := by
  have hpath : linkedImage.resolve "d" true = .ok linkedDirectory.inode :=
    Except.eq_ok_of_toOption (by decide +kernel)
  let link : SymlinkBody := { linkCount := 1, target := [46, 46, 47, 100], xattr := noXattr }
  let inode : Inode :=
    { permissions := 0o777, uidIndex := 0, gidIndex := 0, mtime := 0, inodeNumber := 2,
      body := .symlink link }
  let entry : ListingEntry := ⟨"up", .symlink, 2, ⟨0, 36⟩⟩
  let listing : List ListingEntry := [⟨"f", .file, 1, ⟨0, 0⟩⟩, entry]
  have hlisting : linkedImage.readListing linkedDirectory.body = .ok listing :=
    Except.eq_ok_of_toOption (by decide +kernel)
  have hinode : linkedImage.readInode entry.ref = .ok inode :=
    Except.eq_ok_of_toOption (by decide +kernel)
  have htarget : Text.ofUtf8? link.target = some "../d" := by decide +kernel
  let file : Inode :=
    { permissions := 0o644, uidIndex := 0, gidIndex := 0, mtime := 0, inodeNumber := 1,
      body := .file
        { blocksStart := 96, fileSize := 2, sparse := 0, linkCount := 1, fragment := noFragment,
          fragmentOffset := 0, xattr := noXattr, blockSizes := [0x1000002] } }
  have hthrough : linkedImage.resolve ("d" ++ "/" ++ "up" ++ "/" ++ "f") true = .ok file :=
    Except.eq_ok_of_toOption (by decide +kernel)
  exact ⟨hpath, listing, entry, inode, link, file, hlisting, by decide +kernel, hinode, rfl,
    htarget, hthrough,
    (resolve_link_iff_substituted hpath hlisting (by decide +kernel) hinode rfl htarget (by decide)
      "f" true (Or.inr rfl)).1 file hthrough⟩

end Image

end TreeImage
