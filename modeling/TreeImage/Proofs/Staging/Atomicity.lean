import TreeImage.Proofs.Staging.Growth

namespace TreeImage

namespace Action

variable {σ α β : Type} {step : Action σ α} {state : σ}

/-- Whether a step that fails leaves the state as it found it. -/
def IsAtomicAt (state : σ) (step : Action σ α) : Prop :=
  ∀ error last, step.run state = (.error error, last) → last = state

theorem isAtomicAt_pure {value : α} : IsAtomicAt state (pure value) := by
  rintro error last ⟨⟩

theorem isAtomicAt_throw {error : Error} : IsAtomicAt state (throw error : Action σ α) := by
  rintro _ last ⟨⟩
  rfl

theorem isAtomicAt_of_ok {value : α} {last : σ} (hrun : step.run state = (.ok value, last)) :
    IsAtomicAt state step := by
  intro error other herror
  rw [hrun] at herror
  cases herror

theorem IsAtomicAt.get {next : σ → Action σ β} (hnext : IsAtomicAt state (next state)) :
    IsAtomicAt state (MonadState.get >>= next) := hnext

theorem IsAtomicAt.lift {result : Except Error α} {next : α → Action σ β}
    (hnext : ∀ value, result = .ok value → IsAtomicAt state (next value)) :
    IsAtomicAt state (liftM result >>= next) := by
  cases result with
  | error error => exact isAtomicAt_throw
  | ok value => exact hnext value rfl

end Action

namespace Staging

namespace Tree

open TreeImage.Action

variable {tree : Tree} {parent id : NodeId} {name : String} {content : Content}

theorem child?_insert_new (hparent : parent < tree.size) (hcontent : content.entries = ∅)
    (key : String) : (tree.insert parent name content).2.child? tree.size key = none := by
  apply Option.eq_none_iff_forall_ne_some.mpr
  intro child hchild
  rcases child?_insert hparent hcontent hchild with ⟨hsame, -⟩ | hold
  · exact Nat.ne_of_lt hparent hsame.symm
  · exact Nat.lt_irrefl _ (lt_size_of_isDirectory (isDirectory_of_child? hold))

theorem run_makeAlong_of_missing (path : String) (names : List String)
    (hfree : tree.child? id name = none) :
    (makeAlong path id (name :: names)).run tree =
      (makeAlong path tree.size names).run (tree.insert id name .emptyDirectory).2 := by
  have hadd : (add id name .emptyDirectory).run tree =
      (.ok tree.size, (tree.insert id name .emptyDirectory).2) := rfl
  rw [makeAlong, run_bind_of_ok (run_get tree), hfree]
  exact run_bind_of_ok hadd

theorem exists_run_makeAlong (path : String) (names : List String) (hid : id < tree.size)
    (hfree : tree.child? id name = none) :
    ∃ last later, (makeAlong path id (name :: names)).run tree = (.ok last, later) := by
  rw [run_makeAlong_of_missing path names hfree]
  -- once a directory is missing, all below it are
  induction names generalizing tree id name with
  | nil => exact ⟨tree.size, _, rfl⟩
  | cons next names ih =>
      have hbelow : (tree.insert id name .emptyDirectory).2.child? tree.size next = none :=
        child?_insert_new hid rfl next
      rw [run_makeAlong_of_missing path names hbelow]
      apply ih
      · simp [size_insert]
      · exact hbelow

theorem isAtomicAt_makeAlong (path : String) (names : List String)
    (hid : tree.isDirectory id = true) : IsAtomicAt tree (makeAlong path id names) := by
  induction names generalizing id with
  | nil => exact isAtomicAt_pure
  | cons name names ih =>
      cases hchild : tree.child? id name with
      | none =>
          -- from here on directories are added, and none of them can fail
          obtain ⟨last, later, hrun⟩ :=
            exists_run_makeAlong path names (lt_size_of_isDirectory hid) hchild
          exact isAtomicAt_of_ok hrun
      | some child =>
          rw [makeAlong]
          apply IsAtomicAt.get
          rw [hchild]
          dsimp only
          split
          · rename_i hdirectory
            exact ih hdirectory
          · split
            · exact isAtomicAt_throw
            · exact isAtomicAt_throw

theorem WellFormed.isAtomicAt_mkdir (htree : tree.WellFormed) (path : String) :
    IsAtomicAt tree (mkdir path) :=
  .lift fun names _ => isAtomicAt_makeAlong path names htree.root_isDirectory

theorem isAtomicAt_openFile (path : String) (create : Bool) :
    IsAtomicAt tree (openFile path create) := by
  refine .get (.lift ?_)
  rintro ⟨parent, _ | name⟩ -
  · exact isAtomicAt_throw
  · dsimp only
    split
    · split
      · exact isAtomicAt_pure
      · exact isAtomicAt_throw
    · split
      · exact isAtomicAt_of_ok rfl
      · exact isAtomicAt_throw

theorem isAtomicAt_symlink (target path : String) : IsAtomicAt tree (symlink target path) := by
  refine .get (.lift ?_)
  rintro ⟨parent, _ | name⟩ -
  · exact isAtomicAt_throw
  · dsimp only
    split
    · exact isAtomicAt_throw
    · split
      · exact isAtomicAt_throw
      · exact isAtomicAt_of_ok rfl

theorem isAtomicAt_change (path : String) (update : Attributes → Attributes) :
    IsAtomicAt tree (change path update) :=
  .get (.lift fun _ _ => isAtomicAt_of_ok rfl)

theorem isAtomicAt_write (bytes : Bytes) (handle : FileHandle) :
    IsAtomicAt (handle, tree) (write bytes) := by
  apply IsAtomicAt.get
  dsimp only
  split
  · split
    · exact isAtomicAt_throw
    · exact isAtomicAt_of_ok rfl
  · exact isAtomicAt_throw

theorem run_makeAlong_of_descend (path : String) {names : List String} {last : NodeId}
    (hdescend : tree.descend id names = some last) (hlast : tree.isDirectory last = true) :
    (makeAlong path id names).run tree = (.ok last, tree) := by
  induction names generalizing id with
  | nil =>
      cases hdescend
      rfl
  | cons name names ih =>
      obtain ⟨child, hchild, hrest⟩ := descend_cons_eq_some.mp hdescend
      have hdirectory := isDirectory_of_descend hrest hlast
      rw [makeAlong, run_bind_of_ok (run_get tree)]
      simpa [hchild, hdirectory] using ih hrest

theorem run_mkdir_of_lookup {path : String} (hlookup : tree.lookup path = .ok id)
    (hdirectory : tree.isDirectory id = true) : (mkdir path).run tree = (.ok id, tree) := by
  obtain ⟨segments, hnames, -⟩ := Except.bind_eq_ok.mp hlookup
  have hdescend := (lookup_of_names hnames).mp hlookup
  rw [mkdir, hnames]
  exact run_makeAlong_of_descend path hdescend hdirectory

end Tree

namespace Draft

open TreeImage.Action TreeImage.Staging.Tree

variable {draft : Draft}

theorem onTree_of_error {α : Type} {edit : Action Tree α} {tell : α → Outcome} {error : Error}
    (hedit : IsAtomicAt draft.tree edit) (hfails : (draft.onTree edit tell).1 = .error error) :
    (draft.onTree edit tell).2 = draft := by
  unfold onTree at hfails ⊢
  rcases hrun : edit.run draft.tree with ⟨failed | value, tree⟩
  · rw [hedit failed tree hrun]
  · rw [hrun] at hfails
    cases hfails

theorem onHandle_of_error {index : Nat} {error : Error}
    {step : FileHandle → Except Error Outcome × FileHandle × Tree}
    (hstep : ∀ handle error last, step handle = (.error error, last) → last = (handle, draft.tree))
    (hfails : (draft.onHandle index step).1 = .error error) :
    (draft.onHandle index step).2 = draft := by
  unfold onHandle at hfails ⊢
  cases hhandle : draft.handles[index]? with
  | none => rfl
  | some handle =>
      obtain ⟨hindex, rfl⟩ := List.getElem?_eq_some_iff.mp hhandle
      simp only [hhandle] at hfails ⊢
      simp [hstep _ error _ (Prod.ext hfails rfl)]

/-- An operation that fails leaves all nodes, the clock and all handles as they were. -/
theorem IsKept.perform_of_error (hkept : draft.IsKept) {operation : Operation} {error : Error}
    (hfails : (draft.perform operation).1 = .error error) :
    (draft.perform operation).2 = draft := by
  cases operation with
  | mkdir path =>
      rw [Draft.perform] at hfails ⊢
      exact onTree_of_error (hkept.wellFormed.isAtomicAt_mkdir path) hfails
  | openFile path create =>
      rw [Draft.perform] at hfails ⊢
      rcases hrun : (Tree.openFile path create).run draft.tree with ⟨failed | handle, tree⟩
      · rw [isAtomicAt_openFile path create failed tree hrun]
      · rw [hrun] at hfails
        cases hfails
  | write index bytes =>
      refine onHandle_of_error ?_ hfails
      intro handle failed last hwrite
      rcases hrun : (Tree.write bytes).run (handle, draft.tree) with ⟨error | count, after⟩
      · rw [hrun] at hwrite
        cases hwrite
        exact isAtomicAt_write bytes handle _ _ hrun
      · rw [hrun] at hwrite
        cases hwrite
  | seek index position =>
      refine onHandle_of_error ?_ hfails
      intro handle failed last hseek
      cases hseek
  | close index =>
      refine onHandle_of_error ?_ hfails
      intro handle failed last hclose
      cases hclose
  | symlink target path =>
      rw [Draft.perform] at hfails ⊢
      exact onTree_of_error (isAtomicAt_symlink target path) hfails
  | setPermissions path mode =>
      rw [Draft.perform] at hfails ⊢
      exact onTree_of_error (isAtomicAt_change path _) hfails
  | setOwner path uid gid =>
      rw [Draft.perform] at hfails ⊢
      exact onTree_of_error (isAtomicAt_change path _) hfails
  | setMtime path mtime =>
      rw [Draft.perform] at hfails ⊢
      exact onTree_of_error (isAtomicAt_change path _) hfails

theorem IsKept.perform_mkdir_again (hkept : draft.IsKept) {path : String} {id : NodeId}
    (hmade : (draft.perform (.mkdir path)).1 = .ok (.node id)) (further : List Operation) :
    ((draft.perform (.mkdir path)).2.performAll further).perform (.mkdir path) =
      (.ok (.node id), (draft.perform (.mkdir path)).2.performAll further) := by
  obtain ⟨made, hsame, hlookup, hdirectory⟩ :=
    exists_of_onTree (hkept.wellFormed.performs_mkdir path) hmade
  cases hsame
  obtain ⟨-, hgrows⟩ := (hkept.perform (.mkdir path)).performAll further
  have hagain := run_mkdir_of_lookup (hgrows.lookup hlookup) (hgrows.isDirectory hdirectory)
  rw [Draft.perform, onTree, hagain]
  rfl

/-- On whatever was made of a new tree, an operation that fails changes nothing: no node, no number
of nodes, and no cursor.  Making a directory again that was made gives the same one, and changes
nothing either. -/
theorem failures_change_nothing (clock : NodeId → UInt32) (operations : List Operation) :
    (∀ operation error,
        (((new clock).performAll operations).perform operation).1 = .error error →
          (((new clock).performAll operations).perform operation).2 =
            (new clock).performAll operations) ∧
      ∀ path id, (((new clock).performAll operations).perform (.mkdir path)).1 = .ok (.node id) →
        ∀ further,
          ((new clock).performAll (operations ++ .mkdir path :: further)).perform (.mkdir path) =
            (.ok (.node id), (new clock).performAll (operations ++ .mkdir path :: further)) := by
  obtain ⟨hkept, -⟩ := (isKept_new clock).performAll operations
  constructor
  · exact fun operation error hfails => hkept.perform_of_error hfails
  · intro path id hmade further
    rw [performAll_append]
    exact hkept.perform_mkdir_again hmade further

/-- A directory is refused below a file that lies below directories, a write through the handle of
the file is refused at a far cursor, and a directory is made twice. -/
theorem failures_change_nothing_sample :
    (((new sampleClock).performAll sampleOperations).perform (.mkdir "a/b/f/g")).2 =
        (new sampleClock).performAll sampleOperations ∧
      (((new sampleClock).performAll (sampleOperations ++ [.seek 0 maxFileSize])).perform
          (.write 0 [1])).2 =
        (new sampleClock).performAll (sampleOperations ++ [.seek 0 maxFileSize]) ∧
      ((new sampleClock).performAll (sampleOperations ++ [.mkdir "a/c/d"])).perform
          (.mkdir "a/c/d") =
        (.ok (.node 5), (new sampleClock).performAll (sampleOperations ++ [.mkdir "a/c/d"])) := by
  obtain ⟨hfails, hagain⟩ := failures_change_nothing sampleClock sampleOperations
  obtain ⟨hfails', -⟩ :=
    failures_change_nothing sampleClock (sampleOperations ++ [.seek 0 maxFileSize])
  obtain ⟨error, hmkdir⟩ := Except.exists_eq_error_of_toOption
    (x := (((new sampleClock).performAll sampleOperations).perform (.mkdir "a/b/f/g")).1)
    (by decide +kernel)
  obtain ⟨error', hwrite⟩ := Except.exists_eq_error_of_toOption
    (x := (((new sampleClock).performAll (sampleOperations ++ [.seek 0 maxFileSize])).perform
      (.write 0 [1])).1) (by decide +kernel)
  exact ⟨hfails (.mkdir "a/b/f/g") error hmkdir, hfails' (.write 0 [1]) error' hwrite,
    hagain "a/c/d" 5 (Except.eq_ok_of_toOption (by decide +kernel)) []⟩

end Draft

end Staging

end TreeImage
