import TreeImage.Proofs.Staging.Atomicity

/-!
Writes through handles.  Any number of handles may be open on one file.  A write puts its bytes into
the file at the cursor of its handle and moves this cursor only, so that the content of a file is
what all writes to it make of it, in the order of the calls.
-/

namespace TreeImage.Staging

structure Put where
  node : NodeId
  start : Nat
  bytes : Bytes
  deriving DecidableEq, Repr

/-- The content of a file after bytes were put into it: it is long enough to hold them, they are in
their places, and zeros fill the gap below them. -/
def Put.apply (content : Bytes) (put : Put) : Bytes :=
  (List.range (max content.length (put.start + put.bytes.length))).map fun i =>
    if put.start ≤ i ∧ i < put.start + put.bytes.length then put.bytes.getD (i - put.start) 0
    else content.getD i 0

theorem Put.apply_toList (put : Put) (data : Buffer) :
    Put.apply data.toList put = (data.overwrite put.start put.bytes).toList := by
  apply List.ext_getElem?
  intro i
  rw [Put.apply, List.getElem?_map, Buffer.getElem?_overwrite_eq]
  by_cases hi : i < max data.toList.length (put.start + put.bytes.length)
  · rw [List.getElem?_range hi, Option.map_some]
    by_cases hbefore : i < put.start
    · rw [if_neg (by omega), if_pos hbefore, List.getD_eq_getElem?_getD]
    · rw [if_neg hbefore]
      by_cases hinside : i < put.start + put.bytes.length
      · rw [if_pos ⟨by omega, hinside⟩, if_pos hinside, List.getD_eq_getElem?_getD,
          List.getElem?_eq_getElem (by omega), Option.getD_some]
      · rw [if_neg (by omega), if_neg hinside, List.getD_eq_getElem?_getD,
          List.getElem?_eq_getElem (by omega), Option.getD_some]
  · rw [if_neg (by omega), if_neg (by omega), List.getElem?_eq_none (by simpa using hi),
      List.getElem?_eq_none (by omega), Option.map_none]

namespace Tree

open TreeImage.Action

variable {tree : Tree} {id other : NodeId} {handle : FileHandle} {bytes : Bytes}

def IsFile (tree : Tree) (id : NodeId) : Prop :=
  ∃ data attributes, tree.node? id = some ⟨.file data, attributes⟩

theorem isFile_iff : tree.IsFile id ↔ id < tree.size ∧ tree.kind id = .file := by
  constructor
  · rintro ⟨data, attributes, hnode⟩
    exact ⟨lt_size_of_node? hnode, kind_of_node? hnode⟩
  · rintro ⟨hid, hkind⟩
    have hnode : tree.node? id = some tree.nodes[id] := Array.getElem?_eq_getElem hid
    rw [kind_of_node? hnode] at hkind
    rcases hcontent : tree.nodes[id] with ⟨_ | data | _, attributes⟩
    all_goals
      rw [hcontent] at hkind hnode
      cases hkind
    exact ⟨data, attributes, hnode⟩

theorem IsFile.growsTo {later : Tree} (hfile : tree.IsFile id) (hgrows : tree.GrowsTo later) :
    later.IsFile id := by
  obtain ⟨hid, hkind⟩ := isFile_iff.mp hfile
  obtain ⟨grown, hgrown, -⟩ := hgrows.node (Array.getElem?_eq_getElem hid)
  exact isFile_iff.mpr ⟨lt_size_of_node? hgrown, (hgrows.kind_eq hid).trans hkind⟩

theorem node?_overwrite_self {data : Buffer} {attributes : Attributes}
    (hnode : tree.node? id = some ⟨.file data, attributes⟩) (start : Nat) (bytes : Bytes) :
    (tree.overwrite id start bytes).node? id =
      some ⟨.file (data.overwrite start bytes), attributes⟩ := by
  refine (node?_modify tree id _ id).trans ?_
  rw [if_pos rfl, hnode]
  rfl

theorem node?_overwrite_of_ne (hne : other ≠ id) (start : Nat) (bytes : Bytes) :
    (tree.overwrite id start bytes).node? other = tree.node? other :=
  (node?_modify tree id _ other).trans (if_neg hne.symm)

theorem run_write (hfile : tree.IsFile handle.node) (hopen : handle.isOpen = true)
    (hfits : handle.cursor + bytes.length ≤ maxFileSize) :
    (write bytes).run (handle, tree) =
      (.ok bytes.length, handle.seek (handle.cursor + bytes.length),
        tree.overwrite handle.node handle.cursor bytes) := by
  have hkind := (isFile_iff.mp hfile).2
  rw [write, run_bind_of_ok (run_get _)]
  dsimp only
  rw [if_pos ⟨hopen, hkind⟩, if_neg (Nat.not_lt.mpr hfits)]
  rfl

theorem exists_run_write_eq_error (tree : Tree)
    (hrefused : ¬(handle.isOpen = true ∧ handle.cursor + bytes.length ≤ maxFileSize)) :
    ∃ error, (write bytes).run (handle, tree) = (.error error, handle, tree) := by
  rw [write, run_bind_of_ok (run_get _)]
  dsimp only
  split
  · rename_i hcondition
    rw [if_pos (Nat.lt_of_not_le fun hfits => hrefused ⟨hcondition.1, hfits⟩)]
    exact ⟨_, rfl⟩
  · exact ⟨_, rfl⟩

theorem IsFile.fileBytes_overwrite (hfile : tree.IsFile id) (start : Nat) (bytes : Bytes)
    (other : NodeId) :
    (tree.overwrite id start bytes).fileBytes other =
      if other = id then Put.apply (tree.fileBytes id) ⟨id, start, bytes⟩
      else tree.fileBytes other := by
  split
  · rename_i hsame
    subst hsame
    obtain ⟨data, attributes, hnode⟩ := hfile
    rw [fileBytes, node?_overwrite_self hnode, fileBytes, hnode]
    exact (Put.apply_toList ⟨other, start, bytes⟩ data).symm
  · rename_i hne
    rw [fileBytes, node?_overwrite_of_ne hne, fileBytes]

theorem node_write (tree : Tree) (handle : FileHandle) (bytes : Bytes) :
    ((write bytes).run (handle, tree)).2.1.node = handle.node := by
  rw [write, run_bind_of_ok (run_get _)]
  dsimp only
  split
  · split
    all_goals rfl
  · rfl

end Tree

namespace Draft

open TreeImage.Staging.Tree

variable {draft : Draft} {index : Nat} {handle : FileHandle} {bytes : Bytes}

def HandlesFiles (draft : Draft) : Prop :=
  ∀ handle ∈ draft.handles, draft.tree.IsFile handle.node

theorem exists_of_mem_onHandle {step : FileHandle → Except Error Outcome × FileHandle × Tree}
    (hstep : ∀ handle, (step handle).2.1.node = handle.node)
    (hmem : handle ∈ (draft.onHandle index step).2.handles) :
    ∃ old ∈ draft.handles, old.node = handle.node := by
  unfold onHandle at hmem
  cases hhandle : draft.handles[index]? with
  | none =>
      rw [hhandle] at hmem
      exact ⟨handle, hmem, rfl⟩
  | some found =>
      rw [hhandle] at hmem
      rcases List.mem_or_eq_of_mem_set hmem with hold | rfl
      · exact ⟨handle, hold, rfl⟩
      · exact ⟨found, List.mem_of_getElem? hhandle, (hstep found).symm⟩

/-- A handle after an operation is on the file of a handle before it, unless it was just opened. -/
theorem IsKept.handle_cases (hkept : draft.IsKept) {operation : Operation}
    (hmem : handle ∈ (draft.perform operation).2.handles) :
    (∃ old ∈ draft.handles, old.node = handle.node) ∨
      (draft.perform operation).2.tree.IsFile handle.node := by
  cases operation with
  | openFile path create =>
      have hperforms := hkept.wellFormed.performs_openFile path create
      have hopened := hperforms.result
      have htree := hkept.wellFormed.becomes hperforms.becomes
      rw [Draft.perform] at hmem ⊢
      rcases hrun : (Tree.openFile path create).run draft.tree with ⟨error | opened, tree⟩
      · rw [hrun] at hmem
        exact Or.inl ⟨handle, hmem, rfl⟩
      · rw [hrun] at hmem hopened htree
        obtain ⟨hlookup, hkind⟩ := hopened opened rfl
        rcases List.mem_append.mp hmem with hold | hnew
        · exact Or.inl ⟨handle, hold, rfl⟩
        · rw [List.mem_singleton.mp hnew]
          exact Or.inr (isFile_iff.mpr ⟨htree.lt_size_of_lookup hlookup, hkind⟩)
  | write index bytes =>
      exact Or.inl (exists_of_mem_onHandle (fun handle => node_write draft.tree handle bytes) hmem)
  | seek index position => exact Or.inl (exists_of_mem_onHandle (fun handle => rfl) hmem)
  | close index => exact Or.inl (exists_of_mem_onHandle (fun handle => rfl) hmem)
  | mkdir path => exact Or.inl ⟨handle, hmem, rfl⟩
  | symlink target path => exact Or.inl ⟨handle, hmem, rfl⟩
  | setPermissions path mode => exact Or.inl ⟨handle, hmem, rfl⟩
  | setOwner path uid gid => exact Or.inl ⟨handle, hmem, rfl⟩
  | setMtime path mtime => exact Or.inl ⟨handle, hmem, rfl⟩

theorem HandlesFiles.perform (hfiles : draft.HandlesFiles) (hkept : draft.IsKept)
    (operation : Operation) : (draft.perform operation).2.HandlesFiles := by
  intro handle hmem
  rcases hkept.handle_cases hmem with ⟨old, hold, hnode⟩ | hfile
  · rw [← hnode]
    exact (hfiles old hold).growsTo (hkept.becomes operation).growsTo
  · exact hfile

theorem HandlesFiles.performAll (hfiles : draft.HandlesFiles) (hkept : draft.IsKept)
    (operations : List Operation) : (draft.performAll operations).HandlesFiles := by
  induction operations generalizing draft with
  | nil => exact hfiles
  | cons operation operations ih =>
      exact ih (hfiles.perform hkept operation) (hkept.perform operation)

theorem perform_write (hfile : draft.tree.IsFile handle.node)
    (hhandle : draft.handles[index]? = some handle) (hopen : handle.isOpen = true)
    (hfits : handle.cursor + bytes.length ≤ maxFileSize) :
    draft.perform (.write index bytes) =
      (.ok (.wrote bytes.length),
        ⟨draft.tree.overwrite handle.node handle.cursor bytes,
          draft.handles.set index (handle.seek (handle.cursor + bytes.length))⟩) := by
  rw [perform, onHandle, hhandle]
  dsimp only
  rw [run_write hfile hopen hfits]
  rfl

/-- What a write through a handle does: it gives the number of the bytes, puts them into the file at
the cursor, and moves the cursor past them.  Nothing else changes, the attributes of the file
included. -/
structure Writes (draft : Draft) (index : Nat) (handle : FileHandle) (bytes : Bytes) : Prop where
  result : (draft.perform (.write index bytes)).1 = .ok (.wrote bytes.length)
  file : ∃ before after attributes,
    draft.tree.node? handle.node = some ⟨.file before, attributes⟩ ∧
    (draft.perform (.write index bytes)).2.tree.node? handle.node =
      some ⟨.file after, attributes⟩ ∧
    after.toList = Put.apply before.toList ⟨handle.node, handle.cursor, bytes⟩
  node : ∀ id, id ≠ handle.node →
    (draft.perform (.write index bytes)).2.tree.node? id = draft.tree.node? id
  cursor : (draft.perform (.write index bytes)).2.handles[index]? =
    some { handle with cursor := handle.cursor + bytes.length }
  handle : ∀ other, other ≠ index →
    (draft.perform (.write index bytes)).2.handles[other]? = draft.handles[other]?

theorem HandlesFiles.writes (hfiles : draft.HandlesFiles)
    (hhandle : draft.handles[index]? = some handle) (hopen : handle.isOpen = true)
    (hfits : handle.cursor + bytes.length ≤ maxFileSize) : draft.Writes index handle bytes := by
  have hfile := hfiles handle (List.mem_of_getElem? hhandle)
  have hperform := perform_write hfile hhandle hopen hfits
  obtain ⟨data, attributes, hnode⟩ := hfile
  obtain ⟨hindex, -⟩ := List.getElem?_eq_some_iff.mp hhandle
  refine ⟨?_, ⟨data, data.overwrite handle.cursor bytes, attributes, hnode, ?_, ?_⟩, ?_, ?_, ?_⟩
  · rw [hperform]
  · rw [hperform]
    exact node?_overwrite_self hnode _ _
  · exact (Put.apply_toList ⟨handle.node, handle.cursor, bytes⟩ data).symm
  · intro id hne
    rw [hperform]
    exact node?_overwrite_of_ne hne _ _
  · rw [hperform]
    exact List.getElem?_set_self hindex
  · intro other hne
    rw [hperform]
    exact List.getElem?_set_ne hne.symm

/-- What an operation puts into a file: something if it is a write that ends well. -/
def putsOf (draft : Draft) (operation : Operation) : List Put :=
  match operation, (draft.perform operation).1 with
  | .write index bytes, .ok (.wrote _) =>
      (draft.handles[index]?).toList.map fun handle => ⟨handle.node, handle.cursor, bytes⟩
  | _, _ => []

def puts : Draft → List Operation → List Put
  | _, [] => []
  | draft, operation :: operations =>
      draft.putsOf operation ++ puts (draft.perform operation).2 operations

/-- The content of a file after bytes were put into files, those that are for it. -/
def applyPuts (id : NodeId) (content : Bytes) (puts : List Put) : Bytes :=
  (puts.filter (·.node = id)).foldl Put.apply content

theorem putsOf_write_of_ok {count : Nat}
    (hresult : (draft.perform (.write index bytes)).1 = .ok (.wrote count))
    (hhandle : draft.handles[index]? = some handle) :
    draft.putsOf (.write index bytes) = [⟨handle.node, handle.cursor, bytes⟩] := by
  unfold putsOf
  rw [hresult]
  dsimp only
  rw [hhandle]
  rfl

theorem putsOf_of_not_wrote {operation : Operation}
    (hresult : ∀ count, (draft.perform operation).1 ≠ .ok (.wrote count)) :
    draft.putsOf operation = [] := by
  unfold putsOf
  split
  · rename_i hwrote
    exact absurd hwrote (hresult _)
  · rfl

theorem IsKept.fileBytes_write (hkept : draft.IsKept) (hfiles : draft.HandlesFiles) (index : Nat)
    (bytes : Bytes) (id : NodeId) :
    (draft.perform (.write index bytes)).2.tree.fileBytes id =
      applyPuts id (draft.tree.fileBytes id) (draft.putsOf (.write index bytes)) := by
  cases hhandle : draft.handles[index]? with
  | none =>
      have hperform : draft.perform (.write index bytes) = (.ok .noHandle, draft) := by
        rw [Draft.perform, onHandle, hhandle]
      rw [putsOf_of_not_wrote fun count => by simp [hperform], hperform]
      rfl
  | some handle =>
      have hfile := hfiles handle (List.mem_of_getElem? hhandle)
      by_cases hwrites : handle.isOpen = true ∧ handle.cursor + bytes.length ≤ maxFileSize
      · have hperform := perform_write hfile hhandle hwrites.1 hwrites.2
        rw [putsOf_write_of_ok (congrArg Prod.fst hperform) hhandle, hperform]
        rw [hfile.fileBytes_overwrite]
        by_cases hid : id = handle.node
        · simp [applyPuts, hid]
        · simp [applyPuts, hid, Ne.symm hid]
      · -- a write that is refused leaves all as it was
        obtain ⟨error, hrun⟩ := exists_run_write_eq_error draft.tree hwrites
        have hfails : (draft.perform (.write index bytes)).1 = .error error := by
          rw [Draft.perform, onHandle, hhandle]
          dsimp only
          rw [hrun]
          rfl
        rw [hkept.perform_of_error hfails, putsOf_of_not_wrote fun count => by simp [hfails]]
        rfl

theorem IsKept.fileBytes_perform (hkept : draft.IsKept) (hfiles : draft.HandlesFiles)
    (operation : Operation) (id : NodeId) :
    (draft.perform operation).2.tree.fileBytes id =
      applyPuts id (draft.tree.fileBytes id) (draft.putsOf operation) := by
  have htree := hkept.wellFormed
  cases operation with
  | write index bytes => exact hkept.fileBytes_write hfiles index bytes id
  | openFile path create =>
      have hbytes := (htree.performs_openFile path create).fileBytes id
      rw [Draft.perform]
      rcases hrun : (Tree.openFile path create).run draft.tree with ⟨error | handle, tree⟩
      · rw [hrun] at hbytes
        exact hbytes
      · rw [hrun] at hbytes
        exact hbytes
  | seek index position =>
      rw [Draft.perform, onHandle]
      cases draft.handles[index]?
      all_goals rfl
  | close index =>
      rw [Draft.perform, onHandle]
      cases draft.handles[index]?
      all_goals rfl
  | mkdir path => exact (htree.performs_mkdir path).fileBytes id
  | symlink target path => exact (htree.performs_symlink target path).fileBytes id
  | setPermissions path mode =>
      exact (performs_change path fun attributes _ => isMode_and mode).fileBytes id
  | setOwner path uid gid =>
      refine (performs_change path ?_).fileBytes id
      exact fun attributes hmode => hmode
  | setMtime path mtime =>
      refine (performs_change path ?_).fileBytes id
      exact fun attributes hmode => hmode

theorem applyPuts_append (id : NodeId) (content : Bytes) (puts further : List Put) :
    applyPuts id content (puts ++ further) = applyPuts id (applyPuts id content puts) further := by
  rw [applyPuts, List.filter_append, List.foldl_append]
  rfl

theorem IsKept.fileBytes_performAll (hkept : draft.IsKept) (hfiles : draft.HandlesFiles)
    (operations : List Operation) (id : NodeId) :
    (draft.performAll operations).tree.fileBytes id =
      applyPuts id (draft.tree.fileBytes id) (draft.puts operations) := by
  induction operations generalizing draft with
  | nil => rfl
  | cons operation operations ih =>
      have hrest := ih (hkept.perform operation) (hfiles.perform hkept operation)
      rw [puts, applyPuts_append, ← hkept.fileBytes_perform hfiles operation id]
      exact hrest

/-- On whatever was made of a new tree, with any number of handles on any files, a write through an
open handle that ends within the largest file gives the number of its bytes, puts them into the file
at the cursor and moves this cursor past them, and changes nothing else.  So each file holds what
the writes to it that ended well made of an empty one, in the order of the calls. -/
theorem writes_are_positioned (clock : NodeId → UInt32) (operations : List Operation) :
    (∀ index handle bytes,
        ((new clock).performAll operations).handles[index]? = some handle →
        handle.isOpen = true → handle.cursor + bytes.length ≤ 2 ^ 32 →
          ((new clock).performAll operations).Writes index handle bytes) ∧
      ∀ id, ((new clock).performAll operations).tree.fileBytes id =
        applyPuts id [] ((new clock).puts operations) := by
  have hnew : (new clock).HandlesFiles := fun handle hmem => absurd hmem List.not_mem_nil
  constructor
  · intro index handle bytes hhandle hopen hfits
    exact (hnew.performAll (isKept_new clock) operations).writes hhandle hopen hfits
  · intro id
    have hempty : (new clock).tree.fileBytes id = [] := by
      rcases id with _ | id
      all_goals rfl
    rw [(isKept_new clock).fileBytes_performAll hnew operations id, hempty]

/-- Two handles are open on one file, and the second stands past its end. -/
def sampleHandles : List Operation := [.openFile "f" true, .openFile "f" false, .seek 1 5]

/-- A write through the second handle leaves the first alone.  The file then holds what three writes
made of it, one of them below a gap and one over two earlier ones; a write through a closed handle
made nothing of it. -/
theorem writes_are_positioned_sample :
    ((new sampleClock).performAll sampleHandles).Writes 1 ⟨1, 5, true⟩ [9] ∧
      ((new sampleClock).performAll (sampleHandles ++ [.write 1 [9], .write 0 [1, 2, 3], .close 0,
        .write 0 [4], .seek 1 2, .write 1 [7, 7]])).tree.fileBytes 1 = [1, 2, 7, 7, 0, 9] := by
  obtain ⟨hwrites, -⟩ := writes_are_positioned sampleClock sampleHandles
  refine ⟨hwrites 1 ⟨1, 5, true⟩ [9] (by decide +kernel) rfl (by decide), ?_⟩
  rw [(writes_are_positioned sampleClock _).2]
  decide +kernel

end Draft

end TreeImage.Staging
