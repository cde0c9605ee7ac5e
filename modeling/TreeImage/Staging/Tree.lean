import Std.Data.TreeMap
import TreeImage.Bytes.Buffer
import TreeImage.Error.Basic
import TreeImage.Format.Kind
import TreeImage.Text.Path
import TreeImage.Walk

/-!
The tree of directories, files and links that waits to be written to an image.  Nodes are
numbered in the order of their creation and are never removed, so a number stays valid; a
directory maps the names of its entries to the numbers of their nodes.
-/

namespace TreeImage.Staging

open Format (EntryKind)

/-- The number of a node; the root has number zero. -/
abbrev NodeId := Nat

def root : NodeId := 0

structure Attributes where
  mode : UInt16
  uid : UInt32
  gid : UInt32
  mtime : UInt32
  deriving DecidableEq, Repr

inductive Content
  | directory (entries : Std.TreeMap String NodeId)
  | file (data : Buffer)
  | symlink (target : String)

structure Node where
  content : Content
  attributes : Attributes

/-- The nodes by number, and the time that the clock shows when the node with a number is made. -/
structure Tree where
  nodes : Array Node
  clock : NodeId → UInt32

def Content.defaultMode : Content → UInt16
  | .directory _ => 0o755
  | .file _ => 0o644
  | .symlink _ => 0o777

def Content.kind : Content → EntryKind
  | .directory _ => .directory
  | .file _ => .file
  | .symlink _ => .symlink

def Content.entries : Content → Std.TreeMap String NodeId
  | .directory entries => entries
  | _ => ∅

def Content.emptyDirectory : Content := .directory ∅

def Node.new (content : Content) (time : UInt32) : Node :=
  ⟨content, ⟨content.defaultMode, 0, 0, time⟩⟩

def Node.isDirectory (node : Node) : Bool := node.content.kind == .directory

def maxNameLength : Nat := 256

def maxFileSize : Nat := 0x100000000

/-- Whether a path segment can name an entry. -/
def isStorableName (segment : String) : Bool :=
  segment != ".." && segment.utf8ByteSize ≤ maxNameLength
    && !segment.toList.contains (Char.ofNat 0)

/-- The names along a path.  A path with a segment that cannot name an entry is refused. -/
def names (path : String) : Except Error (List String) :=
  let segments := Text.segments path
  if segments.all isStorableName then .ok segments else .error (.invalidPath path)

namespace Tree

def new (clock : NodeId → UInt32) : Tree := ⟨#[Node.new .emptyDirectory (clock root)], clock⟩

def size (tree : Tree) : Nat := tree.nodes.size

def node? (tree : Tree) (id : NodeId) : Option Node := tree.nodes[id]?

def child? (tree : Tree) (id : NodeId) (name : String) : Option NodeId :=
  (tree.node? id).bind fun node => node.content.entries[name]?

/-- The entries of a directory in the order of their names. -/
def children (tree : Tree) (id : NodeId) : List (String × NodeId) :=
  match tree.node? id with
  | some node => node.content.entries.toList
  | none => []

def isDirectory (tree : Tree) (id : NodeId) : Bool := (tree.node? id).any Node.isDirectory

def kind (tree : Tree) (id : NodeId) : EntryKind :=
  match tree.node? id with
  | some node => node.content.kind
  | none => .file

def descend (tree : Tree) (id : NodeId) : List String → Option NodeId
  | [] => some id
  | name :: names =>
      match tree.child? id name with
      | some child => tree.descend child names
      | none => none

def lookup (tree : Tree) (path : String) : Except Error NodeId := do
  match tree.descend root (← names path) with
  | some id => return id
  | none => throw (.notFound path)

def source (tree : Tree) : Walk.Source := fun path => do
  let id ← tree.lookup path
  if tree.isDirectory id then
    return (tree.children id).map fun (name, child) => ⟨name, tree.kind child⟩
  else throw (.notADirectory path)

/-- Walks everything below a directory of the tree, no level of which lies deeper than there are
nodes. -/
def walk {σ : Type} (tree : Tree) (path : String) (visit : Walk.Visitor σ) : Action σ Unit :=
  TreeImage.walk tree.source tree.size path visit

/-- Adds a node as an entry of a directory and returns its number. -/
def insert (tree : Tree) (parent : NodeId) (name : String) (content : Content) : NodeId × Tree :=
  match tree with
  | ⟨nodes, clock⟩ =>
      let id := nodes.size
      let nodes := nodes.push (Node.new content (clock id))
      (id,
        ⟨nodes.modify parent fun ⟨content, attributes⟩ =>
            match content with
            | .directory entries => ⟨.directory (entries.insert name id), attributes⟩
            | content => ⟨content, attributes⟩,
          clock⟩)

def setAttributes (tree : Tree) (id : NodeId) (change : Attributes → Attributes) : Tree :=
  match tree with
  | ⟨nodes, clock⟩ =>
      ⟨nodes.modify id fun ⟨content, attributes⟩ => ⟨content, change attributes⟩, clock⟩

end Tree

end TreeImage.Staging
