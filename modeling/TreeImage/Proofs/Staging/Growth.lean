import Mathlib.Logic.ExistsUnique
import TreeImage.Proofs.Staging.Change

/-!
Staged trees after any operations.  Operations on a tree and on the handles obtained from it come in
any order, and some may fail.  The tree they leave is sound, and it has all that it had before: what
a path leads to stays there for good.
-/

namespace TreeImage.Staging

/-- The operations on a tree, with the values they are given.  Handles are numbered in the order in
which they were obtained. -/
inductive Operation
  | mkdir (path : String)
  | openFile (path : String) (create : Bool)
  | write (handle : Nat) (bytes : Bytes)
  | seek (handle position : Nat)
  | close (handle : Nat)
  | symlink (target path : String)
  | setPermissions (path : String) (mode : UInt16)
  | setOwner (path : String) (uid gid : UInt32)
  | setMtime (path : String) (mtime : UInt32)
  deriving DecidableEq, Repr

/-- What an operation gives: the node at its path if it is one that makes or opens something. -/
inductive Outcome
  | node (id : NodeId)
  | wrote (count : Nat)
  | done
  | noHandle
  deriving DecidableEq, Repr

/-- A tree and the handles obtained from it. -/
structure Draft where
  tree : Tree
  handles : List FileHandle

namespace Draft

def new (clock : NodeId → UInt32) : Draft := ⟨Tree.new clock, []⟩

def onTree {α : Type} (draft : Draft) (edit : Action Tree α) (tell : α → Outcome) :
    Except Error Outcome × Draft :=
  match edit.run draft.tree with
  | (result, tree) => (result.map tell, { draft with tree })

def onHandle (draft : Draft) (index : Nat)
    (step : FileHandle → Except Error Outcome × FileHandle × Tree) :
    Except Error Outcome × Draft :=
  match draft.handles[index]? with
  | none => (.ok .noHandle, draft)
  | some handle =>
      match step handle with
      | (result, handle, tree) => (result, ⟨tree, draft.handles.set index handle⟩)

def perform (draft : Draft) : Operation → Except Error Outcome × Draft
  | .mkdir path => draft.onTree (Tree.mkdir path) .node
  | .openFile path create =>
      match (Tree.openFile path create).run draft.tree with
      | (.error error, tree) => (.error error, { draft with tree })
      | (.ok handle, tree) => (.ok (.node handle.node), ⟨tree, draft.handles ++ [handle]⟩)
  | .write index bytes => draft.onHandle index fun handle =>
      match (Tree.write bytes).run (handle, draft.tree) with
      | (result, handle, tree) => (result.map .wrote, handle, tree)
  | .seek index position => draft.onHandle index fun handle =>
      (.ok .done, handle.seek position, draft.tree)
  | .close index => draft.onHandle index fun handle => (.ok .done, handle.close, draft.tree)
  | .symlink target path => draft.onTree (Tree.symlink target path) .node
  | .setPermissions path mode => draft.onTree (Tree.setPermissions path mode) fun _ => .done
  | .setOwner path uid gid => draft.onTree (Tree.setOwner path uid gid) fun _ => .done
  | .setMtime path mtime => draft.onTree (Tree.setMtime path mtime) fun _ => .done

/-- Does operations one after the other, however they end. -/
def performAll (draft : Draft) (operations : List Operation) : Draft :=
  operations.foldl (fun draft operation => (draft.perform operation).2) draft

end Draft

/-- The path that an operation makes or opens something at. -/
def Operation.made? : Operation → Option String
  | .mkdir path => some path
  | .openFile path _ => some path
  | .symlink _ path => some path
  | _ => none

theorem IsEntryName.fits {name : String} (hname : IsEntryName name) :
    1 ≤ name.utf8ByteSize ∧ name.utf8ByteSize ≤ 256 ∧ '/' ∉ name.toList ∧
      Char.ofNat 0 ∉ name.toList ∧ name ≠ "." ∧ name ≠ ".." := by
  obtain ⟨hvalid, hstorable, -⟩ := hname
  simp only [Format.Listing.isEntryName, isStorableName, Bool.and_eq_true, bne_iff_ne,
    Bool.not_eq_true', List.contains_eq_mem, decide_eq_false_iff_not, decide_eq_true_eq]
    at hvalid hstorable
  obtain ⟨⟨⟨hempty, hslash⟩, hdot⟩, hdots⟩ := hvalid
  obtain ⟨⟨-, hlength⟩, hnul⟩ := hstorable
  refine ⟨?_, hlength, hslash, hnul, hdot, hdots⟩
  exact Nat.pos_of_ne_zero fun hzero => hempty (String.utf8ByteSize_eq_zero_iff.mp hzero)

namespace Tree

variable {tree : Tree} {id : NodeId}

/-- What holds of every tree that can be staged: it is a tree, with nodes that are numbered from the
root on, and its names, contents and modes are within the limits of the format. -/
structure Sound (tree : Tree) : Prop where
  root_isDirectory : tree.isDirectory root = true
  child_between : ∀ {id name child}, tree.child? id name = some child →
    id < child ∧ child < tree.size
  one_parent : ∀ {id}, id < tree.size → id ≠ root →
    ∃! entry : NodeId × String, tree.child? entry.1 entry.2 = some id
  reached : ∀ {id}, id < tree.size → ∃ path, tree.lookup path = .ok id
  name_fits : ∀ {id name child}, tree.child? id name = some child →
    1 ≤ name.utf8ByteSize ∧ name.utf8ByteSize ≤ 256 ∧ '/' ∉ name.toList ∧
      Char.ofNat 0 ∉ name.toList ∧ name ≠ "." ∧ name ≠ ".."
  file_fits : ∀ {id data attributes}, tree.node? id = some ⟨.file data, attributes⟩ →
    data.size ≤ 2 ^ 32
  target_fits : ∀ {id target attributes}, tree.node? id = some ⟨.symlink target, attributes⟩ →
    1 ≤ target.utf8ByteSize ∧ target.utf8ByteSize ≤ 4096
  mode_fits : ∀ {id node}, tree.node? id = some node → node.attributes.mode.toNat ≤ 0o7777

theorem WellFormed.lt_size_of_descend (htree : tree.WellFormed) {names : List String}
    {last : NodeId} (hid : id < tree.size) (hdescend : tree.descend id names = some last) :
    last < tree.size := by
  induction names generalizing id with
  | nil =>
      cases hdescend
      exact hid
  | cons name names ih =>
      obtain ⟨child, hchild, hrest⟩ := descend_cons_eq_some.mp hdescend
      exact ih (htree.child_lt hchild).2 hrest

theorem WellFormed.lt_size_of_lookup (htree : tree.WellFormed) {path : String}
    (hlookup : tree.lookup path = .ok id) : id < tree.size :=
  htree.lt_size_of_descend htree.root_lt (lookup_eq_ok.mp hlookup).2

theorem WellFormed.exists_lookup (htree : tree.WellFormed) (hid : id < tree.size) :
    ∃ path, tree.lookup path = .ok id := by
  -- the directory of a node is older than the node
  induction id using Nat.strongRecOn with
  | _ id ih =>
      by_cases hroot : id = root
      · subst hroot
        exact ⟨"/", lookup_eq_ok.mpr ⟨rfl, rfl⟩⟩
      · obtain ⟨parent, name, hchild⟩ := htree.attached hid hroot
        have hlt := (htree.child_lt hchild).1
        obtain ⟨path, hpath⟩ := ih parent hlt (Nat.lt_trans hlt hid)
        exact ⟨Text.joinPath path name, htree.lookup_joinPath hpath hchild⟩

theorem WellFormed.sound (htree : tree.WellFormed) (hmodes : tree.ModesFit) : tree.Sound where
  root_isDirectory := htree.root_isDirectory
  child_between := htree.child_lt
  one_parent := by
    intro id hid hne
    obtain ⟨parent, name, hchild⟩ := htree.attached hid hne
    refine ⟨(parent, name), hchild, ?_⟩
    rintro ⟨other, otherName⟩ hother
    obtain ⟨rfl, rfl⟩ := htree.parent_unique hother hchild
    rfl
  reached := htree.exists_lookup
  name_fits := fun hchild => (htree.name_storable hchild).fits
  file_fits := htree.file_le
  target_fits := htree.target_size
  mode_fits := hmodes _ _

end Tree

namespace Draft

open TreeImage.Staging.Tree

variable {draft : Draft}

theorem performAll_append (draft : Draft) (operations further : List Operation) :
    draft.performAll (operations ++ further) = (draft.performAll operations).performAll further :=
  List.foldl_append

/-- What holds of a draft after any operations. -/
structure IsKept (draft : Draft) : Prop where
  wellFormed : draft.tree.WellFormed
  modesFit : draft.tree.ModesFit

theorem isKept_new (clock : NodeId → UInt32) : (new clock).IsKept :=
  ⟨wellFormed_new clock, modesFit_new clock⟩

theorem IsKept.of_becomes (hkept : draft.IsKept) {tree : Tree} (hbecomes : draft.tree.Becomes tree)
    (handles : List FileHandle) : IsKept ⟨tree, handles⟩ :=
  ⟨hkept.wellFormed.becomes hbecomes, hkept.modesFit.becomes hbecomes⟩

theorem exists_of_onTree {α : Type} {edit : Action Tree α} {holds : α → Tree → Prop}
    (hperforms : Performs edit draft.tree holds) {tell : α → Outcome} {outcome : Outcome}
    (hresult : (draft.onTree edit tell).1 = .ok outcome) :
    ∃ value, tell value = outcome ∧ holds value (draft.onTree edit tell).2.tree := by
  have hholds := hperforms.result
  unfold onTree at hresult ⊢
  rcases hrun : edit.run draft.tree with ⟨error | value, tree⟩
  · rw [hrun] at hresult
    cases hresult
  · rw [hrun] at hresult hholds
    exact ⟨value, Except.ok.inj hresult, hholds value rfl⟩

theorem becomes_onHandle (draft : Draft) (index : Nat)
    {step : FileHandle → Except Error Outcome × FileHandle × Tree}
    (hstep : ∀ handle, draft.tree.Becomes (step handle).2.2) :
    draft.tree.Becomes (draft.onHandle index step).2.tree := by
  unfold onHandle
  cases draft.handles[index]? with
  | none => exact .refl
  | some handle => exact hstep handle

theorem IsKept.becomes (hkept : draft.IsKept) (operation : Operation) :
    draft.tree.Becomes (draft.perform operation).2.tree := by
  cases operation with
  | mkdir path => exact (hkept.wellFormed.performs_mkdir path).becomes
  | openFile path create =>
      have hbecomes := (hkept.wellFormed.performs_openFile path create).becomes
      rw [perform]
      rcases hrun : (Tree.openFile path create).run draft.tree with ⟨error | handle, tree⟩
      · rw [hrun] at hbecomes
        exact hbecomes
      · rw [hrun] at hbecomes
        exact hbecomes
  | write index bytes =>
      exact draft.becomes_onHandle index fun handle => becomes_write draft.tree handle bytes
  | seek index position => exact draft.becomes_onHandle index fun handle => .refl
  | close index => exact draft.becomes_onHandle index fun handle => .refl
  | symlink target path => exact (hkept.wellFormed.performs_symlink target path).becomes
  | setPermissions path mode =>
      exact (performs_change path fun attributes _ => isMode_and mode).becomes
  | setOwner path uid gid =>
      refine (performs_change path ?_).becomes
      exact fun attributes hmode => hmode
  | setMtime path mtime =>
      refine (performs_change path ?_).becomes
      exact fun attributes hmode => hmode

theorem IsKept.perform (hkept : draft.IsKept) (operation : Operation) :
    (draft.perform operation).2.IsKept := hkept.of_becomes (hkept.becomes operation) _

theorem IsKept.performAll (hkept : draft.IsKept) (operations : List Operation) :
    (draft.performAll operations).IsKept ∧
      draft.tree.GrowsTo (draft.performAll operations).tree := by
  induction operations generalizing draft with
  | nil => exact ⟨hkept, .refl draft.tree⟩
  | cons operation operations ih =>
      obtain ⟨hlast, hgrows⟩ := ih (hkept.perform operation)
      exact ⟨hlast, (hkept.becomes operation).growsTo.trans hgrows⟩

/-- What an operation makes or opens is at its path. -/
theorem IsKept.lookup_made (hkept : draft.IsKept) {operation : Operation} {path : String}
    (hmade : operation.made? = some path) {id : NodeId}
    (hresult : (draft.perform operation).1 = .ok (.node id)) :
    (draft.perform operation).2.tree.lookup path = .ok id := by
  have htree := hkept.wellFormed
  cases operation with
  | mkdir path =>
      cases hmade
      obtain ⟨made, hsame, hlookup, -⟩ := exists_of_onTree (htree.performs_mkdir path) hresult
      cases hsame
      exact hlookup
  | openFile path create =>
      cases hmade
      have hlookup := (htree.performs_openFile path create).result
      rw [Draft.perform] at hresult ⊢
      rcases hrun : (Tree.openFile path create).run draft.tree with ⟨error | handle, tree⟩
      · rw [hrun] at hresult
        cases hresult
      · rw [hrun] at hresult hlookup
        cases hresult
        exact (hlookup handle rfl).1
  | symlink target path =>
      cases hmade
      obtain ⟨made, hsame, hlookup⟩ := exists_of_onTree (htree.performs_symlink target path) hresult
      cases hsame
      exact hlookup
  | write index bytes => cases hmade
  | seek index position => cases hmade
  | close index => cases hmade
  | setPermissions path mode => cases hmade
  | setOwner path uid gid => cases hmade
  | setMtime path mtime => cases hmade

/-- Whatever operations are made on a new tree and on the handles obtained from it, the tree is
sound.  Further operations leave everything where it was, and what an operation makes or opens is
at its path. -/
theorem sound_of_performAll (clock : NodeId → UInt32) (operations : List Operation) :
    ((new clock).performAll operations).tree.Sound ∧
      (∀ path id, ((new clock).performAll operations).tree.lookup path = .ok id →
        ∀ further,
          ((new clock).performAll (operations ++ further)).tree.lookup path = .ok id ∧
            ((new clock).performAll (operations ++ further)).tree.kind id =
              ((new clock).performAll operations).tree.kind id) ∧
      ∀ operation path id, operation.made? = some path →
        (((new clock).performAll operations).perform operation).1 = .ok (.node id) →
          (((new clock).performAll operations).perform operation).2.tree.lookup path = .ok id := by
  obtain ⟨hkept, -⟩ := (isKept_new clock).performAll operations
  refine ⟨hkept.wellFormed.sound hkept.modesFit, ?_,
    fun operation path id hmade hresult => hkept.lookup_made hmade hresult⟩
  intro path id hlookup further
  obtain ⟨-, hgrows⟩ := hkept.performAll further
  rw [performAll_append]
  exact ⟨hgrows.lookup hlookup, hgrows.kind_eq (hkept.wellFormed.lt_size_of_lookup hlookup)⟩

def sampleClock (id : NodeId) : UInt32 := 7 + UInt32.ofNat id

def sampleOperations : List Operation := [.mkdir "/a/./b", .openFile "a//b/f" true]

/-- The file is still there after a directory below it was refused and it was written to, and a link
that is made then is at its path. -/
theorem sound_sample :
    ((new sampleClock).performAll sampleOperations).tree.Sound ∧
      ((new sampleClock).performAll sampleOperations).tree.lookup "a/b/f" = .ok 3 ∧
      ((new sampleClock).performAll
        (sampleOperations ++ [.mkdir "a/b/f/g", .seek 0 5, .write 0 [1, 2]])).tree.lookup "a/b/f" =
          .ok 3 ∧
      (((new sampleClock).performAll sampleOperations).perform
        (.symlink "f" "a/l")).2.tree.lookup "a/l" = .ok 4 := by
  obtain ⟨hsound, hkept, hmade⟩ := sound_of_performAll sampleClock sampleOperations
  have hlookup : ((new sampleClock).performAll sampleOperations).tree.lookup "a/b/f" = .ok 3 :=
    Except.eq_ok_of_toOption (by decide +kernel)
  have hresult : (((new sampleClock).performAll sampleOperations).perform (.symlink "f" "a/l")).1 =
      .ok (.node 4) := Except.eq_ok_of_toOption (by decide +kernel)
  exact ⟨hsound, hlookup, (hkept "a/b/f" 3 hlookup _).1,
    hmade (.symlink "f" "a/l") "a/l" 4 rfl hresult⟩

end Draft

end TreeImage.Staging
