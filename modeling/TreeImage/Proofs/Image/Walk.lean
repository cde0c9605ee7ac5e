import TreeImage.Proofs.Image.Resolution

namespace TreeImage

open Format

namespace Image

/-- Where a walk stands, and the names that are left: those of link targets come before those of
the path that is asked for. -/
structure Place where
  location : Location
  spliced : List String
  asked : List String

namespace Place

def start (root : Directory) (path : String) : Place := ⟨⟨root, []⟩, [], Text.segments path⟩

def next? : Place → Option (Segment × Place)
  | ⟨location, name :: spliced, asked⟩ => some (⟨name, true⟩, ⟨location, spliced, asked⟩)
  | ⟨location, [], name :: asked⟩ => some (⟨name, false⟩, ⟨location, [], asked⟩)
  | ⟨_, [], []⟩ => none

def moveTo (place : Place) (location : Location) : Place := { place with location }

/-- The place once a link is expanded: its target is walked before the rest. -/
def expand (place : Place) (target : String) : Place :=
  ⟨targetStart target place.location, Text.segments target ++ place.spliced, place.asked⟩

def pending (place : Place) : List Segment :=
  place.spliced.map (⟨·, true⟩) ++ place.asked.map (⟨·, false⟩)

variable {place rest : Place} {segment : Segment}

theorem pending_expand (place : Place) (target : String) :
    (place.expand target).pending = segmentsOf true target ++ place.pending := by
  simp [pending, expand, segmentsOf]

theorem pending_start (root : Directory) (path : String) :
    (start root path).pending = segmentsOf false path := rfl

theorem pending_of_next? (hnext : place.next? = some (segment, rest)) :
    place.pending = segment :: rest.pending ∧ rest.location = place.location := by
  obtain ⟨location, _ | ⟨name, spliced⟩, _ | ⟨own, asked⟩⟩ := place
  all_goals
    cases hnext
    try exact ⟨rfl, rfl⟩

theorem pending_eq_nil_iff : place.pending = [] ↔ place.next? = none := by
  obtain ⟨location, _ | ⟨name, spliced⟩, _ | ⟨own, asked⟩⟩ := place
  all_goals simp [pending, next?]

theorem fromLink_of_next? {further : Place} {next : Segment}
    (hnext : place.next? = some (segment, rest)) (hrest : rest.next? = some (next, further))
    (hspliced : next.fromLink = true) : segment.fromLink = true := by
  obtain ⟨location, _ | ⟨name, spliced⟩, _ | ⟨own, _ | ⟨second, asked⟩⟩⟩ := place
  all_goals
    cases hnext
    try rfl
    try cases hrest
    try cases hspliced

end Place

/-- The next name is that of a link that has to be expanded. -/
structure MeetsLink (image : Image) (followLast : Bool) (place : Place) (segment : Segment)
    (body : SymlinkBody) (rest : Place) : Prop where
  next : place.next? = some (segment, rest)
  name_ne : segment.name ≠ ".."
  finds : ∃ inode, image.Finds place.location.current segment.name inode ∧
    inode.body = .symlink body
  expanded : rest.next? ≠ none ∨ followLast = true

inductive Step (image : Image) (followLast : Bool) : Place → Nat → Place → Prop
  | up {place rest : Place} {segment : Segment} (hnext : place.next? = some (segment, rest))
      (hname : segment.name = "..") :
      Step image followLast place 0 (rest.moveTo place.location.up)
  | down {place rest : Place} {segment : Segment} {inode : Inode} {body : DirectoryBody}
      (hnext : place.next? = some (segment, rest)) (hname : segment.name ≠ "..")
      (hfinds : image.Finds place.location.current segment.name inode)
      (hbody : inode.body = .directory body) :
      Step image followLast place 0 (rest.moveTo (place.location.down ⟨inode, body, hbody⟩))
  | link {place rest : Place} {segment : Segment} {body : SymlinkBody} {target : String}
      (hlink : image.MeetsLink followLast place segment body rest)
      (htarget : Text.ofUtf8? body.target = some target) (hne : target ≠ "") :
      Step image followLast place 1 (rest.expand target)

/-- Steps one after the other, and how many links they expand. -/
inductive Walks (image : Image) (followLast : Bool) : Place → Nat → Place → Prop
  | here (place : Place) : Walks image followLast place 0 place
  | step {place next last : Place} {expanded count : Nat}
      (hstep : image.Step followLast place expanded next)
      (hrest : Walks image followLast next count last) :
      Walks image followLast place (expanded + count) last

inductive Ending
  | found (inode : Inode)
  /-- The listing or the inode of a name could not be read. -/
  | unreadable (error : Error)
  /-- A name is not in its directory. -/
  | missing (segment : Segment)
  /-- What was reached is no directory, and a name comes after it. -/
  | notDirectory (next : Segment)
  | targetEncoding (link : String)
  | emptyTarget

namespace Ending

/-- How many links the ending itself expands: one whose target is of no use counts. -/
def expansions : Ending → Nat
  | .targetEncoding _ | .emptyTarget => 1
  | _ => 0

def result (path : String) : Ending → Except Error Inode
  | .found inode => .ok inode
  | .unreadable error => .error error
  | .missing ⟨_, false⟩ => .error (.notFound path)
  | .missing ⟨_, true⟩ => .error (.brokenSymlink path)
  | .notDirectory ⟨_, false⟩ => .error (.notADirectory path)
  | .notDirectory ⟨_, true⟩ => .error (.brokenSymlink path)
  | .targetEncoding link => .error (.corruptTable (.linkTargetEncoding link))
  | .emptyTarget => .error (.brokenSymlink path)

end Ending

/-- Whether the entry of a directory with a name cannot be read. -/
def CannotRead (image : Image) (directory : Directory) (name : String) (error : Error) : Prop :=
  image.readListing directory.body = .error error ∨
    ∃ listing entry, image.readListing directory.body = .ok listing ∧
      listing.find? (·.name == name) = some entry ∧ image.readInode entry.ref = .error error

def Lacks (image : Image) (directory : Directory) (name : String) : Prop :=
  ∃ listing, image.readListing directory.body = .ok listing ∧
    listing.find? (·.name == name) = none

inductive Ends (image : Image) (followLast : Bool) : Place → Ending → Prop
  | arrived {place : Place} (hnext : place.next? = none) :
      Ends image followLast place (.found place.location.current.inode)
  | unreadable {place rest : Place} {segment : Segment} {error : Error}
      (hnext : place.next? = some (segment, rest)) (hname : segment.name ≠ "..")
      (herror : image.CannotRead place.location.current segment.name error) :
      Ends image followLast place (.unreadable error)
  | missing {place rest : Place} {segment : Segment}
      (hnext : place.next? = some (segment, rest)) (hname : segment.name ≠ "..")
      (hlacks : image.Lacks place.location.current segment.name) :
      Ends image followLast place (.missing segment)
  | last {place rest : Place} {segment : Segment} {inode : Inode}
      (hnext : place.next? = some (segment, rest)) (hname : segment.name ≠ "..")
      (hfinds : image.Finds place.location.current segment.name inode)
      (hdirectory : ∀ body, inode.body ≠ .directory body)
      (hsymlink : ∀ body, inode.body = .symlink body → followLast = false)
      (hrest : rest.next? = none) :
      Ends image followLast place (.found inode)
  | notDirectory {place rest further : Place} {segment next : Segment} {inode : Inode}
      (hnext : place.next? = some (segment, rest)) (hname : segment.name ≠ "..")
      (hfinds : image.Finds place.location.current segment.name inode)
      (hdirectory : ∀ body, inode.body ≠ .directory body)
      (hsymlink : ∀ body, inode.body ≠ .symlink body)
      (hrest : rest.next? = some (next, further)) :
      Ends image followLast place (.notDirectory next)
  | targetEncoding {place rest : Place} {segment : Segment} {body : SymlinkBody}
      (hlink : image.MeetsLink followLast place segment body rest)
      (htarget : Text.ofUtf8? body.target = none) :
      Ends image followLast place (.targetEncoding segment.name)
  | emptyTarget {place rest : Place} {segment : Segment} {body : SymlinkBody}
      (hlink : image.MeetsLink followLast place segment body rest)
      (htarget : Text.ofUtf8? body.target = some "") :
      Ends image followLast place .emptyTarget

variable {image : Image} {query : Query} {place next last rest : Place} {segment : Segment}
  {body : SymlinkBody} {expanded count : Nat}

def resolvePlace (image : Image) (query : Query) (budget : Nat) (place : Place) :
    Except Error Inode :=
  image.resolveFrom query budget place.pending place.location

theorem resolvePlace_of_next? (hnext : place.next? = some (segment, rest)) (budget : Nat) :
    image.resolvePlace query budget place =
      image.follow query (image.expandLink query budget) (segment :: rest.pending)
        place.location := by
  rw [resolvePlace, (Place.pending_of_next? hnext).1, resolveFrom_eq_follow]

theorem follow_pending (budget : Nat) (rest : Place) (location : Location) :
    image.follow query (image.expandLink query budget) rest.pending location =
      image.resolvePlace query budget (rest.moveTo location) := by
  rw [resolvePlace, resolveFrom_eq_follow]
  rfl

theorem MeetsLink.resolvePlace_eq (query : Query)
    (hlink : image.MeetsLink query.followLast place segment body rest)
    (budget : Nat) :
    image.resolvePlace query budget place =
      image.expandLink query budget ⟨segment.name, body, place.location, rest.pending⟩ := by
  obtain ⟨hnext, hname, ⟨inode, hfinds, hbody⟩, hexpanded⟩ := hlink
  have hkept : ¬(rest.pending = [] ∧ (!query.followLast) = true) := by
    rintro ⟨hnil, hlast⟩
    rcases hexpanded with hmore | hfollow
    · exact hmore (Place.pending_eq_nil_iff.mp hnil)
    · simp [hfollow] at hlast
  rw [resolvePlace_of_next? hnext, follow_link hname (findEntry_eq_ok.mpr hfinds) hbody,
    if_neg hkept]

theorem splice_targetEncoding (query : Query) (link : Link)
    (htarget : Text.ofUtf8? link.body.target = none) :
    splice query link = .error (.corruptTable (.linkTargetEncoding link.name)) := by
  rw [splice, htarget]

theorem splice_emptyTarget (query : Query) (link : Link)
    (htarget : Text.ofUtf8? link.body.target = some "") :
    splice query link = .error (.brokenSymlink query.path) := by
  rw [splice, htarget]
  rfl

theorem MeetsLink.resolvePlace_zero (query : Query)
    (hlink : image.MeetsLink query.followLast place segment body rest) :
    image.resolvePlace query 0 place = .error (.symlinkLoop query.path) :=
  hlink.resolvePlace_eq query 0

theorem Step.resolvePlace_eq (query : Query)
    (hstep : image.Step query.followLast place expanded next) (budget : Nat) :
    image.resolvePlace query (expanded + budget) place = image.resolvePlace query budget next := by
  cases hstep with
  | up hnext hname =>
      rw [Nat.zero_add, resolvePlace_of_next? hnext, follow_up hname, follow_pending]
  | down hnext hname hfinds hbody =>
      rw [Nat.zero_add, resolvePlace_of_next? hnext,
        follow_down hname (findEntry_eq_ok.mpr hfinds) hbody, follow_pending]
  | link hlink htarget hne =>
      rw [Nat.add_comm, hlink.resolvePlace_eq, expandLink, splice_eq_ok query _ htarget hne]
      dsimp only
      rw [resolvePlace, Place.pending_expand, ← (Place.pending_of_next? hlink.next).2]
      rfl

theorem Walks.resolvePlace_eq (query : Query)
    (hwalks : image.Walks query.followLast place count last) (budget : Nat) :
    image.resolvePlace query budget place =
      if count ≤ budget then image.resolvePlace query (budget - count) last
      else .error (.symlinkLoop query.path) := by
  induction hwalks generalizing budget with
  | here place => simp
  | @step place next last expanded count hstep hrest ih =>
      by_cases hfits : expanded ≤ budget
      · obtain ⟨left, rfl⟩ := Nat.exists_eq_add_of_le hfits
        rw [hstep.resolvePlace_eq, ih]
        simp only [Nat.add_le_add_iff_left, Nat.add_sub_add_left]
      · cases hstep with
        | up => exact absurd (Nat.zero_le _) hfits
        | down => exact absurd (Nat.zero_le _) hfits
        | link hlink =>
            -- only a link costs more than there is left
            obtain rfl : budget = 0 := by omega
            rw [hlink.resolvePlace_zero, if_neg (by omega)]

theorem findEntry_of_cannotRead {directory : Directory} {error : Error}
    (herror : image.CannotRead directory segment.name error) :
    image.findEntry query directory segment = .error error := by
  unfold findEntry
  rcases herror with hlisting | ⟨listing, entry, hlisting, hentry, hinode⟩
  · rw [hlisting, Except.error_bind]
  · rw [hlisting, Except.ok_bind, hentry]
    exact hinode

theorem findEntry_of_lacks {directory : Directory} (hlacks : image.Lacks directory segment.name) :
    image.findEntry query directory segment = .error (missing query segment) := by
  obtain ⟨listing, hlisting, hentry⟩ := hlacks
  rw [findEntry, hlisting, Except.ok_bind, hentry]
  rfl

/-- Where a walk ends, a resolver ends with the same result, if it can pay for the last link. -/
theorem Ends.resolvePlace_eq (query : Query) {ending : Ending}
    (hends : image.Ends query.followLast place ending) (budget : Nat) :
    image.resolvePlace query (ending.expansions + budget) place = ending.result query.path := by
  cases hends with
  | arrived hnext =>
      rw [resolvePlace, Place.pending_eq_nil_iff.mpr hnext, resolveFrom_eq_follow]
      rfl
  | unreadable hnext hname herror =>
      rw [resolvePlace_of_next? hnext, follow_error hname (findEntry_of_cannotRead herror)]
      rfl
  | @missing rest segment hnext hname hlacks =>
      rw [resolvePlace_of_next? hnext, follow_error hname (findEntry_of_lacks hlacks)]
      obtain ⟨name, _ | _⟩ := segment
      all_goals rfl
  | @last _ _ inode hnext hname hfinds hdirectory hsymlink hrest =>
      have hentry : image.findEntry query _ _ = .ok _ := findEntry_eq_ok.mpr hfinds
      rw [resolvePlace_of_next? hnext, Place.pending_eq_nil_iff.mpr hrest]
      by_cases hlink : ∃ body, inode.body = .symlink body
      · obtain ⟨body, hbody⟩ := hlink
        rw [follow_link hname hentry hbody, if_pos ⟨rfl, by simp [hsymlink body hbody]⟩]
        rfl
      · rw [follow_other hname hentry hdirectory fun body hbody => hlink ⟨body, hbody⟩]
        rfl
  | @notDirectory rest further segment next _ hnext hname hfinds hdirectory hsymlink hrest =>
      have hentry : image.findEntry query _ _ = .ok _ := findEntry_eq_ok.mpr hfinds
      have hfrom := Place.fromLink_of_next? hnext hrest
      rw [resolvePlace_of_next? hnext, follow_other hname hentry hdirectory hsymlink,
        (Place.pending_of_next? hrest).1]
      obtain ⟨name, _ | _⟩ := next
      · simp [notEnterable, Ending.result]
      · simp [notEnterable, Ending.result, hfrom rfl]
  | targetEncoding hlink htarget =>
      rw [Ending.expansions, Nat.add_comm, hlink.resolvePlace_eq, expandLink,
        splice_targetEncoding _ _ htarget]
      rfl
  | emptyTarget hlink htarget =>
      rw [Ending.expansions, Nat.add_comm, hlink.resolvePlace_eq, expandLink,
        splice_emptyTarget _ _ htarget]
      rfl

end Image

end TreeImage
