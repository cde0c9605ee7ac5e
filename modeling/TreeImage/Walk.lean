import TreeImage.Error.Basic
import TreeImage.Format.Kind
import TreeImage.Text.Lowercase
import TreeImage.Text.Path

/-!
Walking a tree in pre-order.  A tree is anything that lists directories by path.  Siblings come in
the order of their lower-cased names, and a visitor steers the walk by what it answers.  A
directory that cannot be listed is visited once, with the error and without contents.
-/

namespace TreeImage.Walk

open Format (EntryKind)

structure Entry where
  name : String
  kind : EntryKind
  deriving DecidableEq, Repr

def Entry.isDirectory (entry : Entry) : Bool := entry.kind == .directory

abbrev Source := String → Except Error (List Entry)

/-- One visit.  Only a root that cannot be listed is visited without an entry. -/
structure Visit where
  path : String
  entry : Option Entry
  failure : Option Error

/-- What a visitor answers: go on; leave out the contents of the directory, or after anything
else its later siblings; or end the walk. -/
inductive Decision
  | proceed
  | skip
  | stop
  deriving DecidableEq, Repr

/-- A visitor with a state of its own; it may fail, which ends the walk. -/
abbrev Visitor (σ : Type) := Visit → Action σ Decision

/-- Entries in the order of their lower-cased names, in which equal names keep their order. -/
def sortEntries (entries : List Entry) : List Entry :=
  let keyed := entries.map fun entry => (Text.lowercase entry.name, entry)
  (keyed.mergeSort fun left right => compare left.1 right.1 != .gt).map Prod.snd

/-- The entries of the directory at a path, in visiting order. -/
def list (source : Source) (path : String) : Except Error (List Entry) :=
  (source path).map sortEntries

variable {σ : Type}

/-- Visits siblings one after the other, as far as the answers allow. -/
def visitSiblings (visitOne : Entry → Action σ Decision) : List Entry → Action σ Decision
  | [] => return .proceed
  | entry :: rest => do
      match ← visitOne entry with
      | .proceed => visitSiblings visitOne rest
      | .skip => if entry.isDirectory then visitSiblings visitOne rest else return .proceed
      | .stop => return .stop

/-- Visits the entry at a path, and then its contents unless it is told not to. -/
def visitEntry (source : Source) (visit : Visitor σ)
    (below : String → List Entry → Action σ Decision) (path : String) (entry : Entry) :
    Action σ Decision :=
  if entry.isDirectory then
    match list source path with
    | .error error => visit ⟨path, some entry, some error⟩
    | .ok children => do
        match ← visit ⟨path, some entry, none⟩ with
        | .proceed => below path children
        | other => return other
  else visit ⟨path, some entry, none⟩

/-- Visits the entries of a directory and what is below them, at most `depth` levels. -/
def visitBelow (source : Source) (visit : Visitor σ) :
    (depth : Nat) → String → List Entry → Action σ Decision
  | 0, directory, _ => throw (.treeTooDeep directory)
  | depth + 1, directory, entries =>
      visitSiblings (fun entry =>
        visitEntry source visit (visitBelow source visit depth)
          (Text.joinPath directory entry.name) entry) entries

end Walk

/-- Walks everything below `root`, at most `depth` levels.  The root itself is visited only if it
cannot be listed. -/
def walk {σ : Type} (source : Walk.Source) (depth : Nat) (root : String)
    (visit : Walk.Visitor σ) : Action σ Unit :=
  match Walk.list source root with
  | .error error => do
      let _ ← visit ⟨root, none, some error⟩
  | .ok entries => do
      let _ ← Walk.visitBelow source visit depth root entries

end TreeImage
