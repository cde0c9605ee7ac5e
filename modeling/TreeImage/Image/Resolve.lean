import TreeImage.Image.Basic
import TreeImage.Text.Path

/-!
Resolving paths.  A path is walked segment by segment from the root.  A link on the way is
expanded: its target's segments take its place, from the directory that holds the link or, for an
absolute target, from the root.  At most forty links are expanded for one path.
-/

namespace TreeImage

open Format

structure Directory where
  inode : Inode
  body : DirectoryBody
  body_eq : inode.body = .directory body

namespace Image

/-- How many links are expanded for one path. -/
def maxExpansions : Nat := 40

/-- A segment that is still to be walked, and whether it came out of the target of a link. -/
structure Segment where
  name : String
  fromLink : Bool
  deriving DecidableEq, Repr

/-- The path that is asked for, and whether a link at its end is expanded. -/
structure Query where
  path : String
  followLast : Bool

/-- The directories from the current one up to the root, which stands apart. -/
structure Location where
  root : Directory
  below : List Directory

namespace Location

def current (location : Location) : Directory := location.below.headD location.root

/-- The directory above the current one; the root is above itself. -/
def up (location : Location) : Location := ⟨location.root, location.below.tail⟩

def down (location : Location) (directory : Directory) : Location :=
  ⟨location.root, directory :: location.below⟩

def top (location : Location) : Location := ⟨location.root, []⟩

end Location

def segmentsOf (fromLink : Bool) (text : String) : List Segment :=
  (Text.segments text).map fun name => ⟨name, fromLink⟩

def missing (query : Query) (segment : Segment) : Error :=
  if segment.fromLink then .brokenSymlink query.path else .notFound query.path

/-- The error for a segment before `next` that names no directory.  A link is broken if its
target itself leads through something else. -/
def notEnterable (query : Query) (segment next : Segment) : Error :=
  if segment.fromLink && next.fromLink then .brokenSymlink query.path
  else .notADirectory query.path

/-- A link that is to be expanded: its name, its body, where it is, and what comes after it. -/
structure Link where
  name : String
  body : SymlinkBody
  location : Location
  rest : List Segment

def findEntry (image : Image) (query : Query) (directory : Directory) (segment : Segment) :
    Except Error Inode := do
  let listing ← image.readListing directory.body
  match listing.find? (·.name == segment.name) with
  | none => throw (missing query segment)
  | some entry => image.readInode entry.ref

/-- Walks segments from a location; what follows a link that has to be expanded is left to
`expand`. -/
def follow (image : Image) (query : Query) (expand : Link → Except Error Inode) :
    List Segment → Location → Except Error Inode
  | [], location => .ok location.current.inode
  | segment :: rest, location =>
      if segment.name = ".." then follow image query expand rest location.up
      else
        match image.findEntry query location.current segment with
        | .error error => .error error
        | .ok inode =>
            match hbody : inode.body with
            | .directory body =>
                follow image query expand rest (location.down ⟨inode, body, hbody⟩)
            | .symlink body =>
                if rest = [] ∧ !query.followLast then .ok inode
                else expand ⟨segment.name, body, location, rest⟩
            | _ =>
                match rest with
                | [] => .ok inode
                | next :: _ => .error (notEnterable query segment next)

/-- Puts the segments of a link's target before what comes after the link. -/
def splice (query : Query) (link : Link) : Except Error (List Segment × Location) :=
  match Text.ofUtf8? link.body.target with
  | none => .error (.corruptTable (.linkTargetEncoding link.name))
  | some target =>
      if target = "" then .error (.brokenSymlink query.path)
      else
        .ok (segmentsOf true target ++ link.rest,
          if target.startsWith "/" then link.location.top else link.location)

/-- Walks segments from a location and expands at most `budget` links. -/
def resolveFrom (image : Image) (query : Query) :
    (budget : Nat) → List Segment → Location → Except Error Inode
  | 0 => image.follow query fun _ => .error (.symlinkLoop query.path)
  | budget + 1 => image.follow query fun link =>
      match splice query link with
      | .error error => .error error
      | .ok (segments, location) => resolveFrom image query budget segments location

def root (image : Image) : Except Error Directory := do
  let inode ← image.readInode image.superblock.root
  match hbody : inode.body with
  | .directory body => return ⟨inode, body, hbody⟩
  | _ => throw (.corruptTable .rootNotDirectory)

def resolve (image : Image) (path : String) (followLast : Bool) : Except Error Inode := do
  let root ← image.root
  image.resolveFrom ⟨path, followLast⟩ maxExpansions (segmentsOf false path) ⟨root, []⟩

end Image

end TreeImage
