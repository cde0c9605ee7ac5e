import TreeImage.Proofs.Image.Fault
import TreeImage.Proofs.Image.LinkSubstitution
import TreeImage.Proofs.Image.Opening
import TreeImage.Proofs.Image.Walk

/-!
How many links a resolution expands, and what its errors mean.  A walk ends, or it meets one link
more than the budget allows; the names that are left get fewer until a link is met, and the links
that may be expanded get fewer after that.  A link whose target leads through the link again is met
without end.
-/

namespace TreeImage

open Format

namespace Image

namespace Place

variable {place rest : Place} {segment : Segment}

def names (place : Place) : List String := place.spliced ++ place.asked

theorem names_of_next? (hnext : place.next? = some (segment, rest)) :
    place.names = segment.name :: rest.names ∧ rest.location = place.location := by
  obtain ⟨location, _ | ⟨name, spliced⟩, _ | ⟨own, asked⟩⟩ := place
  all_goals
    cases hnext
    try exact ⟨rfl, rfl⟩

theorem next?_of_names {name : String} {tail : List String} (hnames : place.names = name :: tail) :
    ∃ segment rest, place.next? = some (segment, rest) ∧ segment.name = name ∧
      rest.names = tail ∧ rest.location = place.location := by
  obtain ⟨location, _ | ⟨first, spliced⟩, _ | ⟨own, asked⟩⟩ := place
  all_goals
    cases hnames
    try exact ⟨_, _, rfl, rfl, rfl, rfl⟩

theorem next?_eq_none_iff : place.next? = none ↔ place.names = [] := by
  obtain ⟨location, _ | ⟨first, spliced⟩, _ | ⟨own, asked⟩⟩ := place
  all_goals simp [next?, names]

theorem names_expand (place : Place) (target : String) :
    (place.expand target).names = Text.segments target ++ place.names := by
  simp [names, expand]

theorem asked_of_next? (hspliced : place.spliced = [])
    (hnext : place.next? = some (segment, rest)) :
    segment.fromLink = false ∧ rest.spliced = [] := by
  obtain ⟨location, _ | ⟨name, spliced⟩, _ | ⟨own, asked⟩⟩ := place
  all_goals
    cases hnext
    try cases hspliced
    try exact ⟨rfl, rfl⟩

end Place

variable {image : Image} {followLast : Bool} {place next last rest : Place} {segment : Segment}
  {body : SymlinkBody} {count further : Nat}

theorem Walks.trans (hwalks : image.Walks followLast place count next)
    (hrest : image.Walks followLast next further last) :
    image.Walks followLast place (count + further) last := by
  induction hwalks with
  | here place => rwa [Nat.zero_add]
  | step hstep _ ih =>
      rw [Nat.add_assoc]
      exact .step hstep (ih hrest)

theorem Step.walks {expanded : Nat} (hstep : image.Step followLast place expanded next) :
    image.Walks followLast place expanded next := .step hstep (.here next)

theorem finds_cases (image : Image) (directory : Directory) (name : String) :
    (∃ inode, image.Finds directory name inode) ∨ image.Lacks directory name ∨
      ∃ error, image.CannotRead directory name error := by
  cases hlisting : image.readListing directory.body with
  | error error => exact .inr (.inr ⟨error, .inl hlisting⟩)
  | ok listing =>
      cases hentry : listing.find? (·.name == name) with
      | none => exact .inr (.inl ⟨listing, hlisting, hentry⟩)
      | some entry =>
          cases hinode : image.readInode entry.ref with
          | error error =>
              exact .inr (.inr ⟨error, .inr ⟨listing, entry, hlisting, hentry, hinode⟩⟩)
          | ok inode => exact .inl ⟨inode, listing, entry, hlisting, hentry, hinode⟩

/-- At every place a walk ends, or it takes a name without expanding a link, or it meets one. -/
theorem place_cases (image : Image) (followLast : Bool) (place : Place) :
    (∃ ending, image.Ends followLast place ending ∧ ending.expansions = 0) ∨
      (∃ next, image.Step followLast place 0 next ∧
        next.pending.length < place.pending.length) ∨
      ∃ segment body rest, image.MeetsLink followLast place segment body rest := by
  cases hnext : place.next? with
  | none => exact .inl ⟨_, .arrived hnext, rfl⟩
  | some taken =>
      obtain ⟨segment, rest⟩ := taken
      have hshorter : rest.pending.length < place.pending.length := by
        simp [(Place.pending_of_next? hnext).1]
      by_cases hname : segment.name = ".."
      · exact .inr (.inl ⟨_, .up hnext hname, hshorter⟩)
      · rcases image.finds_cases place.location.current segment.name with
          ⟨inode, hfinds⟩ | hlacks | ⟨error, herror⟩
        · by_cases hdirectory : ∃ body, inode.body = .directory body
          · obtain ⟨body, hbody⟩ := hdirectory
            exact .inr (.inl ⟨_, .down hnext hname hfinds hbody, hshorter⟩)
          · have hfile : ∀ body, inode.body ≠ .directory body :=
              fun body hbody => hdirectory ⟨body, hbody⟩
            by_cases hlink : (∃ body, inode.body = .symlink body) ∧
                (rest.next? ≠ none ∨ followLast = true)
            · obtain ⟨⟨body, hbody⟩, hexpanded⟩ := hlink
              exact .inr (.inr ⟨_, body, rest, hnext, hname, ⟨inode, hfinds, hbody⟩, hexpanded⟩)
            · cases hrest : rest.next? with
              | none =>
                  refine .inl ⟨_, .last hnext hname hfinds hfile ?_ hrest, rfl⟩
                  intro body hbody
                  exact Bool.eq_false_iff.mpr fun hlast => hlink ⟨⟨body, hbody⟩, .inr hlast⟩
              | some more =>
                  refine .inl ⟨_, .notDirectory hnext hname hfinds hfile ?_ hrest, rfl⟩
                  intro body hbody
                  exact hlink ⟨⟨body, hbody⟩, .inl (by simp [hrest])⟩
        · exact .inl ⟨_, .missing hnext hname hlacks, rfl⟩
        · exact .inl ⟨_, .unreadable hnext hname herror, rfl⟩

theorem MeetsLink.cases (hlink : image.MeetsLink followLast place segment body rest) :
    (∃ ending, image.Ends followLast place ending ∧ ending.expansions = 1) ∨
      ∃ next, image.Step followLast place 1 next := by
  cases htarget : Text.ofUtf8? body.target with
  | none => exact .inl ⟨_, .targetEncoding hlink htarget, rfl⟩
  | some target =>
      by_cases hne : target = ""
      · exact .inl ⟨_, .emptyTarget hlink (hne ▸ htarget), rfl⟩
      · exact .inr ⟨_, .link hlink htarget hne⟩

theorem walks_to_ending_or_link (image : Image) (followLast : Bool) (place : Place) :
    ∃ last, image.Walks followLast place 0 last ∧
      ((∃ ending, image.Ends followLast last ending ∧ ending.expansions = 0) ∨
        ∃ segment body rest, image.MeetsLink followLast last segment body rest) := by
  -- the names that are left get fewer
  induction hlength : place.pending.length using Nat.strongRecOn generalizing place with
  | _ length ih =>
      rcases image.place_cases followLast place with hends | ⟨next, hstep, hshorter⟩ | hlink
      · exact ⟨place, .here place, .inl hends⟩
      · obtain ⟨last, hwalks, hlast⟩ := ih _ (hlength ▸ hshorter) next rfl
        exact ⟨last, by simpa using hstep.walks.trans hwalks, hlast⟩
      · exact ⟨place, .here place, .inr hlink⟩

theorem walks_to_ending_or_limit (image : Image) (followLast : Bool) (budget : Nat)
    (place : Place) :
    (∃ count last ending, image.Walks followLast place count last ∧
        image.Ends followLast last ending ∧ count + ending.expansions ≤ budget) ∨
      ∃ last segment body rest, image.Walks followLast place budget last ∧
        image.MeetsLink followLast last segment body rest := by
  induction budget generalizing place with
  | zero =>
      obtain ⟨last, hwalks, ⟨ending, hends, hfree⟩ | hlink⟩ :=
        image.walks_to_ending_or_link followLast place
      · exact .inl ⟨0, last, ending, hwalks, hends, by omega⟩
      · obtain ⟨segment, body, rest, hlink⟩ := hlink
        exact .inr ⟨last, segment, body, rest, hwalks, hlink⟩
  | succ budget ih =>
      obtain ⟨first, hfirst, ⟨ending, hends, hfree⟩ | ⟨segment, body, rest, hlink⟩⟩ :=
        image.walks_to_ending_or_link followLast place
      · exact .inl ⟨0, first, ending, hfirst, hends, by omega⟩
      · rcases hlink.cases with ⟨ending, hends, hone⟩ | ⟨next, hstep⟩
        · exact .inl ⟨0, first, ending, hfirst, hends, by omega⟩
        · have hnext : image.Walks followLast place 1 next := by
            simpa using hfirst.trans hstep.walks
          rcases ih next with ⟨count, last, ending, hwalks, hends, hcount⟩ |
            ⟨last, segment, body, rest, hwalks, hlink⟩
          · exact .inl ⟨1 + count, last, ending, hnext.trans hwalks, hends, by omega⟩
          · refine .inr ⟨last, segment, body, rest, ?_, hlink⟩
            rw [Nat.add_comm]
            exact hnext.trans hwalks

theorem Walks.spliced_eq_nil (hwalks : image.Walks followLast place count last)
    (hcount : count = 0) (hspliced : place.spliced = []) : last.spliced = [] := by
  induction hwalks with
  | here place => exact hspliced
  | step hstep _ ih =>
      refine ih (by omega) ?_
      cases hstep with
      | up hnext => exact (Place.asked_of_next? hspliced hnext).2
      | down hnext => exact (Place.asked_of_next? hspliced hnext).2
      | link => omega

section Cycle

/-- A walk stands where another one stands, and has some more names left after the same names. -/
structure Extends (place other : Place) (more : List String) : Prop where
  location : other.location = place.location
  names : other.names = place.names ++ more

variable {other : Place} {more : List String}

theorem Extends.next? (hextends : Extends place other more)
    (hnext : place.next? = some (segment, rest)) :
    ∃ twin left, other.next? = some (twin, left) ∧ twin.name = segment.name ∧
      Extends rest left more := by
  obtain ⟨hnames, hlocation⟩ := Place.names_of_next? hnext
  have hother : other.names = segment.name :: (rest.names ++ more) := by
    rw [hextends.names, hnames]
    rfl
  obtain ⟨twin, left, htwin, hname, hleft, hsame⟩ := Place.next?_of_names hother
  exact ⟨twin, left, htwin, hname, hsame.trans (hextends.location.trans hlocation.symm), hleft⟩

/-- Names that are left after a walk do not change its steps.  They decide only whether a link is
the last name. -/
theorem Step.extends {expanded : Nat} (hstep : image.Step true place expanded next)
    (hextends : Extends place other more) (hmore : more ≠ [] ∨ followLast = true) :
    ∃ further, image.Step followLast other expanded further ∧ Extends next further more := by
  cases hstep with
  | up hnext hname =>
      obtain ⟨twin, left, htwin, hsame, hleft⟩ := hextends.next? hnext
      exact ⟨_, .up htwin (hsame.trans hname), by rw [hextends.location]; rfl, hleft.names⟩
  | @down rest segment inode body hnext hname hfinds hbody =>
      obtain ⟨twin, left, htwin, hsame, hleft⟩ := hextends.next? hnext
      have htwinFinds : image.Finds other.location.current twin.name inode := by
        rwa [hextends.location, hsame]
      exact ⟨_, .down htwin (hsame ▸ hname) htwinFinds hbody, by rw [hextends.location]; rfl,
        hleft.names⟩
  | @link rest segment body target hlink htarget hne =>
      obtain ⟨hnext, hname, ⟨inode, hfinds, hbody⟩, -⟩ := hlink
      obtain ⟨twin, left, htwin, hsame, hleft⟩ := hextends.next? hnext
      have htwinFinds : image.Finds other.location.current twin.name inode := by
        rwa [hextends.location, hsame]
      have hexpanded : left.next? ≠ none ∨ followLast = true := by
        refine hmore.imp_left fun hmore hnone => hmore ?_
        have hnames := hleft.names
        rw [Place.next?_eq_none_iff.mp hnone] at hnames
        exact (List.append_eq_nil_iff.mp hnames.symm).2
      refine ⟨_, .link ⟨htwin, hsame ▸ hname, ⟨inode, htwinFinds, hbody⟩, hexpanded⟩ htarget hne,
        ?_, ?_⟩
      · simp only [Place.expand, hleft.location]
      · rw [Place.names_expand, Place.names_expand, hleft.names, List.append_assoc]

theorem Walks.extends (hwalks : image.Walks true place count last)
    (hextends : Extends place other more) (hmore : more ≠ [] ∨ followLast = true) :
    ∃ further, image.Walks followLast other count further ∧ Extends last further more := by
  induction hwalks generalizing other with
  | here place => exact ⟨other, .here other, hextends⟩
  | step hstep _ ih =>
      obtain ⟨next, hnext, hextends⟩ := hstep.extends hextends hmore
      obtain ⟨further, hfurther, hlast⟩ := ih hextends
      exact ⟨further, .step hnext hfurther, hlast⟩

/-- Whether a name leads through links to the same name, at the same place. -/
def IsCycle (image : Image) (location : Location) (name : String) : Prop :=
  ∃ count last tail, image.Walks true ⟨location, [name], []⟩ (count + 1) last ∧
    last.location = location ∧ last.names = name :: tail

theorem IsCycle.walks {location : Location} {name : String} (hcycle : image.IsCycle location name)
    (hlocation : place.location = location) {tail : List String}
    (hnames : place.names = name :: tail) (htail : tail ≠ [] ∨ followLast = true)
    (bound : Nat) :
    ∃ count last, bound ≤ count ∧ image.Walks followLast place count last := by
  induction bound generalizing place tail with
  | zero => exact ⟨0, place, Nat.le_refl 0, .here place⟩
  | succ bound ih =>
      obtain ⟨once, back, through, hround, hback, hagain⟩ := hcycle
      have hextends : Extends ⟨location, [name], []⟩ place tail := ⟨hlocation, hnames⟩
      obtain ⟨next, hnext, hsame⟩ := hround.extends hextends htail
      have hleft : next.names = name :: (through ++ tail) := by
        rw [hsame.names, hagain]
        rfl
      have hmore : through ++ tail ≠ [] ∨ followLast = true := by
        refine htail.imp_left fun htail hnil => htail (List.append_eq_nil_iff.mp hnil).2
      obtain ⟨count, last, hcount, hwalks⟩ := ih (hsame.location.trans hback) hleft hmore
      exact ⟨once + 1 + count, last, by omega, hnext.trans hwalks⟩

end Cycle

/-- What a resolution comes to, in terms of walks along its path. -/
structure ResolvesAlong (image : Image) (root : Directory) (path : String) (followLast : Bool)
    (result : Except Error Inode) : Prop where
  /-- Where a walk ends within the bound on links, its end is the result. -/
  ends : ∀ {count last ending}, image.Walks followLast (.start root path) count last →
    image.Ends followLast last ending → count + ending.expansions ≤ maxExpansions →
      result = ending.result path
  /-- Links form a loop exactly if one more than the bound has to be expanded. -/
  loop_iff : result = .error (.symlinkLoop path) ↔
    ∃ last segment body rest, image.Walks followLast (.start root path) maxExpansions last ∧
      image.MeetsLink followLast last segment body rest
  /-- Any other result is that of a walk within the bound. -/
  bounded : result ≠ .error (.symlinkLoop path) →
    ∃ count last ending, image.Walks followLast (.start root path) count last ∧
      image.Ends followLast last ending ∧ count + ending.expansions ≤ maxExpansions ∧
        result = ending.result path
  /-- A cycle that is entered is a loop. -/
  cycle : ∀ {count place name tail}, image.Walks followLast (.start root path) count place →
    image.IsCycle place.location name → place.names = name :: tail →
      tail ≠ [] ∨ followLast = true → result = .error (.symlinkLoop path)
  /-- Without a link on the way, no error is about links. -/
  linkless : (∀ last segment body rest, image.Walks followLast (.start root path) 0 last →
    ¬image.MeetsLink followLast last segment body rest) →
      ∀ other, result ≠ .error (.brokenSymlink other) ∧ result ≠ .error (.symlinkLoop other)
  /-- What cannot be read is passed on as it is, and it is damage or an error of the storage. -/
  unreadable : ∀ {last error}, image.Ends followLast last (.unreadable error) → error.IsFault

theorem Ends.isFault (hcodec : image.codec.IsWary) {error : Error}
    (hends : image.Ends followLast place (.unreadable error)) : error.IsFault := by
  cases hends with
  | unreadable hnext hname herror =>
      rcases herror with hlisting | ⟨listing, entry, -, -, hinode⟩
      · exact readListing_faults hcodec _ _ hlisting
      · exact readInode_faults hcodec _ _ hinode

theorem Ending.result_ne_symlinkLoop {ending : Ending}
    (hfault : ∀ error, ending = .unreadable error → error.IsFault) (path other : String) :
    ending.result path ≠ .error (.symlinkLoop other) := by
  rcases ending with inode | error | ⟨name, _ | _⟩ | ⟨name, _ | _⟩ | link | _
  case unreadable =>
    rintro hresult
    cases hresult
    exact hfault _ rfl
  all_goals nofun

theorem Ends.result_ne_brokenSymlink (hcodec : image.codec.IsWary) {ending : Ending}
    (hends : image.Ends followLast place ending) (hfree : ending.expansions = 0)
    (hspliced : place.spliced = []) (path other : String) :
    ending.result path ≠ .error (.brokenSymlink other) := by
  have hfault : ∀ error, ending = .unreadable error → error.IsFault := by
    rintro error rfl
    exact hends.isFault hcodec
  cases hends with
  | arrived => nofun
  | unreadable hnext hname herror =>
      intro hresult
      cases hresult
      exact hfault _ rfl
  | @missing rest segment hnext =>
      obtain ⟨name, fromLink⟩ := segment
      obtain rfl : fromLink = false := (Place.asked_of_next? hspliced hnext).1
      nofun
  | last => nofun
  | @notDirectory rest further segment next _ hnext _ _ _ _ hrest =>
      obtain ⟨name, fromLink⟩ := next
      obtain rfl : fromLink = false :=
        (Place.asked_of_next? (Place.asked_of_next? hspliced hnext).2 hrest).1
      nofun
  | targetEncoding => cases hfree
  | emptyTarget => cases hfree

theorem resolve_eq_resolvePlace {root : Directory} (hroot : image.root = .ok root)
    (path : String) (followLast : Bool) :
    image.resolve path followLast =
      image.resolvePlace ⟨path, followLast⟩ maxExpansions (.start root path) := by
  rw [resolve_of_root hroot, resolvePlace, Place.pending_start]
  rfl

section Resolve

variable {root : Directory} {path : String}

theorem resolve_of_ends (hroot : image.root = .ok root) {ending : Ending}
    (hwalks : image.Walks followLast (.start root path) count last)
    (hends : image.Ends followLast last ending)
    (hcount : count + ending.expansions ≤ maxExpansions) :
    image.resolve path followLast = ending.result path := by
  obtain ⟨left, hleft⟩ := Nat.exists_eq_add_of_le hcount
  rw [resolve_eq_resolvePlace hroot, Walks.resolvePlace_eq ⟨path, followLast⟩ hwalks,
    if_pos (by omega), hleft, Nat.add_assoc, Nat.add_sub_cancel_left]
  exact Ends.resolvePlace_eq ⟨path, followLast⟩ hends left

theorem resolve_of_meetsLink (hroot : image.root = .ok root)
    (hwalks : image.Walks followLast (.start root path) maxExpansions last)
    (hlink : image.MeetsLink followLast last segment body rest) :
    image.resolve path followLast = .error (.symlinkLoop path) := by
  rw [resolve_eq_resolvePlace hroot, Walks.resolvePlace_eq ⟨path, followLast⟩ hwalks,
    if_pos (Nat.le_refl _), Nat.sub_self]
  exact MeetsLink.resolvePlace_zero ⟨path, followLast⟩ hlink

theorem resolve_of_long_walk (hroot : image.root = .ok root)
    (hwalks : image.Walks followLast (.start root path) count last)
    (hcount : maxExpansions < count) :
    image.resolve path followLast = .error (.symlinkLoop path) := by
  rw [resolve_eq_resolvePlace hroot, Walks.resolvePlace_eq ⟨path, followLast⟩ hwalks,
    if_neg (by omega)]

end Resolve

/-- Resolving a path of an opened image expands at most forty links.  Names that are missing, or
that have to be entered and are no directories, are told apart by whether they are of the path or
of a link's target; damage and errors of the storage are passed on. -/
theorem resolvesAlong_of_ofRegion {codecs : Codecs} (hcodecs : codecs.All Codec.IsWary)
    {region : Region} (hopen : ofRegion codecs region = .ok image) (path : String)
    (followLast : Bool) :
    (∀ error, image.root = .error error →
      image.resolve path followLast = .error error ∧ error.IsFault) ∧
    ∀ root, image.root = .ok root →
      image.ResolvesAlong root path followLast (image.resolve path followLast) := by
  have hcodec := codec_of_ofRegion hcodecs hopen
  refine ⟨?_, ?_⟩
  · intro error herror
    refine ⟨?_, root_faults hcodec _ herror⟩
    rw [resolve, herror]
    rfl
  intro root hroot
  have hdone := image.walks_to_ending_or_limit followLast maxExpansions (.start root path)
  constructor
  case ends =>
    intro count last ending hwalks hends hcount
    exact resolve_of_ends hroot hwalks hends hcount
  case loop_iff =>
    constructor
    · intro hloop
      rcases hdone with ⟨count, last, ending, hwalks, hends, hcount⟩ | hlink
      · rw [resolve_of_ends hroot hwalks hends hcount] at hloop
        refine absurd hloop (ending.result_ne_symlinkLoop ?_ _ _)
        rintro error rfl
        exact hends.isFault hcodec
      · exact hlink
    · rintro ⟨last, segment, body, rest, hwalks, hlink⟩
      exact resolve_of_meetsLink hroot hwalks hlink
  case bounded =>
    intro hne
    rcases hdone with ⟨count, last, ending, hwalks, hends, hcount⟩ |
      ⟨last, segment, body, rest, hwalks, hlink⟩
    · exact ⟨count, last, ending, hwalks, hends, hcount,
        resolve_of_ends hroot hwalks hends hcount⟩
    · exact absurd (resolve_of_meetsLink hroot hwalks hlink) hne
  case cycle =>
    intro count place name tail hwalks hcycle hnames htail
    obtain ⟨further, last, hfurther, hround⟩ :=
      hcycle.walks rfl hnames htail (maxExpansions + 1)
    exact resolve_of_long_walk hroot (hwalks.trans hround) (by omega)
  case linkless =>
    intro hlinkless other
    obtain ⟨last, hwalks, ⟨ending, hends, hfree⟩ | ⟨segment, body, rest, hlink⟩⟩ :=
      image.walks_to_ending_or_link followLast (.start root path)
    · rw [resolve_of_ends hroot hwalks hends (by omega)]
      refine ⟨hends.result_ne_brokenSymlink hcodec hfree (hwalks.spliced_eq_nil rfl rfl) _ _,
        ending.result_ne_symlinkLoop ?_ _ _⟩
      rintro error rfl
      exact hends.isFault hcodec
    · exact absurd hlink (hlinkless last segment body rest hwalks)
  case unreadable =>
    intro last error hends
    exact hends.isFault hcodec

/-- The sample image with `up/x` as the target of the link, so that it leads through itself. -/
def loopedImageBytes : Bytes :=
  linkedImageBytes.take 160 ++ [117, 112, 47, 120] ++ linkedImageBytes.drop 164

/-- That image is opened, and the link is a cycle, so a path to it leads nowhere. -/
theorem resolvesAlong_d_up :
    ∃ image root location,
      ofRegion Codecs.machine (Region.ofStorage (Storage.ofBytes loopedImageBytes) 0 0) =
        .ok image ∧
      image.root = .ok root ∧ location.current = linkedDirectory ∧
      image.IsCycle location "up" ∧
      image.resolve "d/up" true = .error (.symlinkLoop "d/up") := by
  let query : Query := ⟨"d/up", true⟩
  let body : SymlinkBody := { linkCount := 1, target := [117, 112, 47, 120], xattr := noXattr }
  let link : Inode :=
    { permissions := 0o777, uidIndex := 0, gidIndex := 0, mtime := 0, inodeNumber := 2,
      body := .symlink body }
  have hreads : ((do
      let image ← ofRegion Codecs.machine (Region.ofStorage (Storage.ofBytes loopedImageBytes) 0 0)
      let root ← image.root
      let directory ← image.findEntry query root ⟨"d", false⟩
      let up ← image.findEntry query linkedDirectory ⟨"up", false⟩
      return (directory, up)) : Except Error (Inode × Inode)).toOption =
        some (linkedDirectory.inode, link) := by
    decide +kernel
  obtain ⟨image, hopen, hreads⟩ := Except.bind_eq_ok.mp (Except.eq_ok_of_toOption hreads)
  obtain ⟨root, hroot, hreads⟩ := Except.bind_eq_ok.mp hreads
  obtain ⟨directory, hdirectory, hreads⟩ := Except.bind_eq_ok.mp hreads
  obtain ⟨up, hup, hreads⟩ := Except.bind_eq_ok.mp hreads
  obtain ⟨rfl, rfl⟩ := Prod.mk.inj (Except.ok.inj hreads)
  replace hdirectory : image.Finds root "d" linkedDirectory.inode := findEntry_eq_ok.mp hdirectory
  replace hup : image.Finds linkedDirectory "up" link := findEntry_eq_ok.mp hup
  have hpath : Text.segments "d/up" = ["d", "up"] := by decide +kernel
  have htarget : Text.segments "up/x" = ["up", "x"] := by decide +kernel
  let location : Location := ⟨root, [linkedDirectory]⟩
  have hdown : image.Walks true (.start root "d/up") 0 ⟨location, [], ["up"]⟩ := by
    rw [Place.start, hpath]
    have hnext : Place.next? ⟨⟨root, []⟩, [], ["d", "up"]⟩ =
        some (⟨"d", false⟩, ⟨⟨root, []⟩, [], ["up"]⟩) := rfl
    exact (Step.down hnext (by decide) hdirectory linkedDirectory.body_eq).walks
  have hcycle : image.IsCycle location "up" := by
    have hmeets : image.MeetsLink true ⟨location, ["up"], []⟩ ⟨"up", true⟩ body
        ⟨location, [], []⟩ :=
      ⟨rfl, by decide, ⟨link, hup, rfl⟩, .inr rfl⟩
    refine ⟨0, Place.expand ⟨location, [], []⟩ "up/x", ["x"], ?_, ?_, ?_⟩
    · exact (Step.link hmeets (by decide +kernel) (by decide)).walks
    · exact if_neg (by decide +kernel)
    · rw [Place.names_expand, htarget]
      rfl
  have hwary : Codecs.machine.All Codec.IsWary := Codecs.all_isWary_ofLibraries _ _
  exact ⟨image, root, location, hopen, hroot, rfl, hcycle,
    ((resolvesAlong_of_ofRegion hwary hopen "d/up" true).2 root hroot).cycle hdown hcycle rfl
      (.inr rfl)⟩

end Image

end TreeImage
