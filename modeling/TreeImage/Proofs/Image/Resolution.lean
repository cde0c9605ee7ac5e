import TreeImage.Image.Resolve
import TreeImage.Proofs.Format.Record

namespace TreeImage

open Format

namespace Image

/-- Where the target of a link starts: at the root, or where the link is. -/
def targetStart (target : String) (location : Location) : Location :=
  if target.startsWith "/" then location.top else location

/-- The first entry of a directory with a name leads to an inode. -/
def Finds (image : Image) (directory : Directory) (name : String) (inode : Inode) : Prop :=
  ∃ listing entry, image.readListing directory.body = .ok listing ∧
    listing.find? (·.name == name) = some entry ∧ image.readInode entry.ref = .ok inode

/-- Walking names from a location expands a number of links and ends at a location. -/
inductive Reaches (image : Image) : List String → Location → Nat → Location → Prop
  | done (location : Location) : Reaches image [] location 0 location
  | up {rest : List String} {location last : Location} {count : Nat}
      (hrest : Reaches image rest location.up count last) :
      Reaches image (".." :: rest) location count last
  | down {name : String} {rest : List String} {location last : Location} {count : Nat}
      {inode : Inode} {body : DirectoryBody} (hname : name ≠ "..")
      (hfinds : image.Finds location.current name inode)
      (hbody : inode.body = .directory body)
      (hrest : Reaches image rest (location.down ⟨inode, body, hbody⟩) count last) :
      Reaches image (name :: rest) location count last
  | link {name target : String} {rest : List String} {location last : Location} {count : Nat}
      {inode : Inode} {body : SymlinkBody} (hname : name ≠ "..")
      (hfinds : image.Finds location.current name inode) (hbody : inode.body = .symlink body)
      (htarget : Text.ofUtf8? body.target = some target) (hne : target ≠ "")
      (hrest : Reaches image (Text.segments target ++ rest) (targetStart target location) count
        last) :
      Reaches image (name :: rest) location (count + 1) last

def expandLink (image : Image) (query : Query) : (budget : Nat) → Link → Except Error Inode
  | 0, _ => .error (.symlinkLoop query.path)
  | budget + 1, link =>
      match splice query link with
      | .error error => .error error
      | .ok (segments, location) => image.resolveFrom query budget segments location

theorem resolveFrom_eq_follow (image : Image) (query : Query) (budget : Nat) :
    image.resolveFrom query budget = image.follow query (image.expandLink query budget) := by
  cases budget with
  | zero => rfl
  | succ budget => rfl

theorem map_name_segmentsOf (fromLink : Bool) (text : String) :
    (segmentsOf fromLink text).map Segment.name = Text.segments text := by
  simp [segmentsOf, Function.comp_def]

theorem splice_eq_ok (query : Query) (link : Link) {target : String}
    (htarget : Text.ofUtf8? link.body.target = some target) (hne : target ≠ "") :
    splice query link =
      .ok (segmentsOf true target ++ link.rest, targetStart target link.location) := by
  rw [splice, htarget]
  simp [hne, targetStart]

variable {image : Image} {query : Query}

theorem findEntry_eq_ok {directory : Directory} {segment : Segment} {inode : Inode} :
    image.findEntry query directory segment = .ok inode ↔
      image.Finds directory segment.name inode := by
  constructor
  · intro hentry
    obtain ⟨listing, hlisting, hentry⟩ := Except.bind_eq_ok.mp hentry
    cases hfind : listing.find? (·.name == segment.name) with
    | none =>
        rw [hfind] at hentry
        cases hentry
    | some entry =>
        rw [hfind] at hentry
        exact ⟨listing, entry, hlisting, hfind, hentry⟩
  · rintro ⟨listing, entry, hlisting, hfind, hinode⟩
    refine Except.bind_eq_ok.mpr ⟨listing, hlisting, ?_⟩
    rw [hfind]
    exact hinode

section Follow

variable {expand : Link → Except Error Inode} {segment : Segment} {rest : List Segment}
  {location : Location} {inode : Inode}

theorem follow_up (hname : segment.name = "..") :
    image.follow query expand (segment :: rest) location =
      image.follow query expand rest location.up := by
  rw [follow, if_pos hname]

theorem follow_error (hname : segment.name ≠ "..") {error : Error}
    (hentry : image.findEntry query location.current segment = .error error) :
    image.follow query expand (segment :: rest) location = .error error := by
  rw [follow, if_neg hname, hentry]

theorem follow_down (hname : segment.name ≠ "..")
    (hentry : image.findEntry query location.current segment = .ok inode)
    {body : DirectoryBody} (hbody : inode.body = .directory body) :
    image.follow query expand (segment :: rest) location =
      image.follow query expand rest (location.down ⟨inode, body, hbody⟩) := by
  rw [follow, if_neg hname, hentry]
  simp only
  split
  · rename_i found hfound
    cases hbody.symm.trans hfound
    rfl
  · rename_i found hfound
    cases hbody.symm.trans hfound
  · rename_i hdirectory hsymlink
    exact absurd hbody (hdirectory body)

theorem follow_link (hname : segment.name ≠ "..")
    (hentry : image.findEntry query location.current segment = .ok inode)
    {body : SymlinkBody} (hbody : inode.body = .symlink body) :
    image.follow query expand (segment :: rest) location =
      if rest = [] ∧ !query.followLast then .ok inode
      else expand ⟨segment.name, body, location, rest⟩ := by
  rw [follow, if_neg hname, hentry]
  simp only
  split
  · rename_i found hfound
    cases hbody.symm.trans hfound
  · rename_i found hfound
    cases hbody.symm.trans hfound
    rfl
  · rename_i hdirectory hsymlink
    exact absurd hbody (hsymlink body)

theorem follow_other (hname : segment.name ≠ "..")
    (hentry : image.findEntry query location.current segment = .ok inode)
    (hdirectory : ∀ body, inode.body ≠ .directory body)
    (hsymlink : ∀ body, inode.body ≠ .symlink body) :
    image.follow query expand (segment :: rest) location =
      match rest with
      | [] => .ok inode
      | next :: _ => .error (notEnterable query segment next) := by
  rw [follow, if_neg hname, hentry]
  -- only the last branch fits a body that is neither a directory's nor a link's
  cases rest with
  | nil => simp only
  | cons next rest => simp only

theorem findEntry_cases (image : Image) (query : Query) (segment : Segment) (location : Location) :
    (∃ error, image.findEntry query location.current segment = .error error) ∨
      ∃ inode, image.findEntry query location.current segment = .ok inode ∧
        ((∃ body, inode.body = .directory body) ∨ (∃ body, inode.body = .symlink body) ∨
          (∀ body, inode.body ≠ .directory body) ∧ ∀ body, inode.body ≠ .symlink body) := by
  cases hentry : image.findEntry query location.current segment with
  | error error => exact Or.inl ⟨error, rfl⟩
  | ok inode =>
      refine Or.inr ⟨inode, rfl, ?_⟩
      cases hbody : inode.body with
      | directory body => exact Or.inl ⟨body, rfl⟩
      | symlink body => exact Or.inr (Or.inl ⟨body, rfl⟩)
      | file body => exact Or.inr (Or.inr ⟨by simp, by simp⟩)
      | device kind links number xattr => exact Or.inr (Or.inr ⟨by simp, by simp⟩)
      | channel kind links xattr => exact Or.inr (Or.inr ⟨by simp, by simp⟩)

end Follow

/-- Resolution follows a walk: it goes on from where the walk ends with what is left of the budget,
and fails if the budget does not cover the links of the walk.  The last link of the walk has to be
one that is expanded. -/
theorem resolveFrom_of_reaches (query : Query) {names : List String} {location last : Location}
    {count : Nat} (hreaches : image.Reaches names location count last)
    {segments rest : List Segment}
    (hnames : segments.map Segment.name = names) (hrest : rest ≠ [] ∨ query.followLast = true)
    (budget : Nat) :
    image.resolveFrom query budget (segments ++ rest) location =
      if count ≤ budget then image.resolveFrom query (budget - count) rest last
      else .error (.symlinkLoop query.path) := by
  induction hreaches generalizing segments budget with
  | done location =>
      rw [List.map_eq_nil_iff.mp hnames]
      simp
  | up _ ih =>
      obtain ⟨segment, tail, rfl, hsegment, htail⟩ := List.map_eq_cons_iff.mp hnames
      rw [← ih htail, resolveFrom_eq_follow]
      exact follow_up hsegment
  | down hname hfinds hbody _ ih =>
      obtain ⟨segment, tail, rfl, rfl, htail⟩ := List.map_eq_cons_iff.mp hnames
      rw [← ih htail, resolveFrom_eq_follow]
      exact follow_down hname (findEntry_eq_ok.mpr hfinds) hbody
  | @link name target names location last count inode body hname hfinds hbody htarget hne _ ih =>
      obtain ⟨segment, tail, rfl, rfl, htail⟩ := List.map_eq_cons_iff.mp hnames
      have hexpanded : ¬(tail ++ rest = [] ∧ (!query.followLast) = true) := by
        rintro ⟨hnil, hlast⟩
        rcases hrest with hrest | hrest
        · exact hrest (List.append_eq_nil_iff.mp hnil).2
        · simp [hrest] at hlast
      rw [resolveFrom_eq_follow, List.cons_append,
        follow_link hname (findEntry_eq_ok.mpr hfinds) hbody, if_neg hexpanded]
      cases budget with
      | zero => rfl
      | succ budget =>
          have hspliced : (segmentsOf true target ++ tail).map Segment.name =
              Text.segments target ++ names := by
            rw [List.map_append, map_name_segmentsOf, htail]
          have hgoes := ih hspliced budget
          rw [List.append_assoc] at hgoes
          rw [expandLink, splice_eq_ok query _ htarget hne]
          simp only [hgoes, Nat.add_le_add_iff_right, Nat.add_sub_add_right]

theorem reaches_of_follow {expand : Link → Except Error Inode} {bound : Nat} {inode : Inode}
    {body : DirectoryBody} (hbody : inode.body = .directory body)
    (hlast : query.followLast = true)
    (hexpand : ∀ link, expand link = .ok inode → ∃ target count last,
      Text.ofUtf8? link.body.target = some target ∧ target ≠ "" ∧ count + 1 ≤ bound ∧
        image.Reaches (Text.segments target ++ link.rest.map Segment.name)
          (targetStart target link.location) count last ∧ last.current.inode = inode)
    {segments : List Segment} {location : Location}
    (hfollow : image.follow query expand segments location = .ok inode) :
    ∃ count last, count ≤ bound ∧
      image.Reaches (segments.map Segment.name) location count last ∧
        last.current.inode = inode := by
  induction segments generalizing location with
  | nil =>
      rw [follow] at hfollow
      exact ⟨0, location, Nat.zero_le _, .done location, Except.ok.inj hfollow⟩
  | cons segment rest ih =>
      by_cases hname : segment.name = ".."
      · rw [follow_up hname] at hfollow
        obtain ⟨count, last, hcount, hreaches, hinode⟩ := ih hfollow
        rw [List.map_cons, hname]
        exact ⟨count, last, hcount, .up hreaches, hinode⟩
      · rcases findEntry_cases image query segment location with
          ⟨error, hentry⟩ | ⟨found, hentry, ⟨sub, hsub⟩ | ⟨link, hlink⟩ | ⟨hdirectory, hsymlink⟩⟩
        · rw [follow_error hname hentry] at hfollow
          cases hfollow
        · rw [follow_down hname hentry hsub] at hfollow
          obtain ⟨count, last, hcount, hreaches, hinode⟩ := ih hfollow
          exact ⟨count, last, hcount, .down hname (findEntry_eq_ok.mp hentry) hsub hreaches,
            hinode⟩
        · rw [follow_link hname hentry hlink, if_neg (by simp [hlast])] at hfollow
          obtain ⟨target, count, last, htarget, hne, hcount, hreaches, hinode⟩ :=
            hexpand _ hfollow
          exact ⟨count + 1, last, hcount,
            .link hname (findEntry_eq_ok.mp hentry) hlink htarget hne hreaches, hinode⟩
        · rw [follow_other hname hentry hdirectory hsymlink] at hfollow
          cases rest with
          | nil =>
              rw [Except.ok.inj hfollow] at hdirectory
              exact absurd hbody (hdirectory body)
          | cons next rest => cases hfollow

theorem reaches_of_resolveFrom {inode : Inode} {body : DirectoryBody}
    (hbody : inode.body = .directory body) (hlast : query.followLast = true) {budget : Nat}
    {segments : List Segment} {location : Location}
    (hresolve : image.resolveFrom query budget segments location = .ok inode) :
    ∃ count last, count ≤ budget ∧
      image.Reaches (segments.map Segment.name) location count last ∧
        last.current.inode = inode := by
  induction budget generalizing segments location with
  | zero =>
      rw [resolveFrom_eq_follow] at hresolve
      exact reaches_of_follow hbody hlast (fun link hexpand => by cases hexpand) hresolve
  | succ budget ih =>
      rw [resolveFrom_eq_follow] at hresolve
      refine reaches_of_follow hbody hlast ?_ hresolve
      intro link hexpand
      cases htarget : Text.ofUtf8? link.body.target with
      | none =>
          rw [expandLink, splice, htarget] at hexpand
          cases hexpand
      | some target =>
          by_cases hne : target = ""
          · rw [expandLink, splice, htarget] at hexpand
            simp [hne] at hexpand
          · rw [expandLink, splice_eq_ok query _ htarget hne] at hexpand
            obtain ⟨count, last, hcount, hreaches, hinode⟩ := ih hexpand
            rw [List.map_append, map_name_segmentsOf] at hreaches
            exact ⟨target, count, last, rfl, hne, by omega, hreaches, hinode⟩

/-- What two resolutions of the same names have in common, the first with the smaller budget: they
find the same inode, or both fail, or the first has used its budget up. -/
inductive Agree (path : String) : (smaller larger : Except Error Inode) → Prop
  | found (inode : Inode) : Agree path (.ok inode) (.ok inode)
  | failed (left right : Error) : Agree path (.error left) (.error right)
  | usedUp (larger : Except Error Inode) : Agree path (.error (.symlinkLoop path)) larger

theorem findEntry_congr {other : Query} {directory : Directory} {left right : Segment}
    (hname : left.name = right.name) {inode : Inode}
    (hentry : image.findEntry query directory left = .ok inode) :
    image.findEntry other directory right = .ok inode := by
  rw [findEntry_eq_ok] at hentry ⊢
  rwa [← hname]

theorem agree_follow {other : Query} (hlast : query.followLast = other.followLast)
    {expand expandOther : Link → Except Error Inode}
    (hexpand : ∀ link rest, link.rest.map Segment.name = rest.map Segment.name →
      Agree query.path (expand link) (expandOther { link with rest }))
    {segments : List Segment} (others : List Segment)
    (hnames : segments.map Segment.name = others.map Segment.name) (location : Location) :
    Agree query.path (image.follow query expand segments location)
      (image.follow other expandOther others location) := by
  induction segments generalizing others location with
  | nil =>
      rw [List.map_eq_nil_iff.mp hnames.symm]
      exact .found _
  | cons segment rest ih =>
      obtain ⟨twin, rest', rfl, htwin, hrest⟩ := List.map_eq_cons_iff.mp hnames.symm
      have hnil : rest = [] ↔ rest' = [] := by
        rw [← List.map_eq_nil_iff (f := Segment.name), ← hrest, List.map_eq_nil_iff]
      by_cases hname : segment.name = ".."
      · rw [follow_up hname, follow_up (htwin.trans hname)]
        exact ih rest' hrest.symm _
      · have htwinName : twin.name ≠ ".." := htwin ▸ hname
        rcases findEntry_cases image query segment location with
          ⟨error, hentry⟩ | ⟨found, hentry, ⟨sub, hsub⟩ | ⟨link, hlink⟩ | ⟨hdirectory, hsymlink⟩⟩
        · cases htwinEntry : image.findEntry other location.current twin with
          | error twinError =>
              rw [follow_error hname hentry, follow_error htwinName htwinEntry]
              exact .failed _ _
          | ok inode =>
              rw [findEntry_congr htwin htwinEntry] at hentry
              cases hentry
        · rw [follow_down hname hentry hsub,
            follow_down htwinName (findEntry_congr htwin.symm hentry) hsub]
          exact ih rest' hrest.symm _
        · rw [follow_link hname hentry hlink,
            follow_link htwinName (findEntry_congr htwin.symm hentry) hlink, ← hlast, htwin]
          by_cases hkept : rest = [] ∧ (!query.followLast) = true
          · rw [if_pos hkept, if_pos ⟨hnil.mp hkept.1, hkept.2⟩]
            exact .found _
          · rw [if_neg hkept, if_neg fun hkept' => hkept ⟨hnil.mpr hkept'.1, hkept'.2⟩]
            exact hexpand ⟨segment.name, link, location, rest⟩ rest' hrest.symm
        · rw [follow_other hname hentry hdirectory hsymlink,
            follow_other htwinName (findEntry_congr htwin.symm hentry) hdirectory hsymlink]
          cases rest with
          | nil =>
              rw [hnil.mp rfl]
              exact .found _
          | cons next rest =>
              cases rest' with
              | nil => exact absurd (hnil.mpr rfl) (by simp)
              | cons next' rest' => exact .failed _ _

theorem agree_resolveFrom {other : Query} (hlast : query.followLast = other.followLast)
    {budget larger : Nat} (hle : budget ≤ larger) {segments others : List Segment}
    (hnames : segments.map Segment.name = others.map Segment.name) (location : Location) :
    Agree query.path (image.resolveFrom query budget segments location)
      (image.resolveFrom other larger others location) := by
  induction budget generalizing larger segments others location with
  | zero =>
      rw [resolveFrom_eq_follow, resolveFrom_eq_follow]
      exact agree_follow hlast (fun link rest hrest => .usedUp _) others hnames location
  | succ budget ih =>
      obtain ⟨larger, rfl⟩ : ∃ n, larger = n + 1 := ⟨larger - 1, by omega⟩
      rw [resolveFrom_eq_follow, resolveFrom_eq_follow]
      refine agree_follow hlast ?_ others hnames location
      intro link rest hrest
      cases htarget : Text.ofUtf8? link.body.target with
      | none =>
          rw [expandLink, expandLink, splice, splice, htarget]
          exact .failed _ _
      | some target =>
          by_cases hne : target = ""
          · rw [expandLink, expandLink, splice, splice, htarget]
            simp only [if_pos hne]
            exact .failed _ _
          · rw [expandLink, expandLink, splice_eq_ok query _ htarget hne,
              splice_eq_ok other { link with rest } htarget hne]
            refine ih (by omega) ?_ _
            rw [List.map_append, List.map_append, hrest]

end Image

end TreeImage
