import TreeImage.Proofs.Staging.Walk

namespace TreeImage

namespace Walk

/-- Whether names lead down from a directory through directories, all of which can be listed. -/
inductive Nests (source : Source) : String → List String → Prop
  | here {path : String} {entries : List Entry} (hlist : source path = .ok entries) :
      Nests source path []
  | down {path : String} {entries : List Entry} {entry : Entry} {names : List String}
      (hlist : source path = .ok entries) (hmem : entry ∈ entries)
      (hdirectory : entry.isDirectory = true)
      (hbelow : Nests source (Text.joinPath path entry.name) names) :
      Nests source path (entry.name :: names)

variable {source : Source} {path : String} {names : List String} {depth : Nat} {α : Type}

def pathBelow (path : String) (names : List String) : String := names.foldl Text.joinPath path

theorem Nests.exists_list (hnests : Nests source path names) :
    ∃ entries, source path = .ok entries := by
  cases hnests with
  | here hlist => exact ⟨_, hlist⟩
  | down hlist hmem hdirectory hbelow => exact ⟨_, hlist⟩

theorem Nests.append (hnests : Nests source path names) {further : List String}
    (hfurther : Nests source (pathBelow path names) further) :
    Nests source path (names ++ further) := by
  induction hnests with
  | here hlist => exact hfurther
  | down hlist hmem hdirectory hbelow ih => exact .down hlist hmem hdirectory (ih hfurther)

theorem list_of_source {entries : List Entry} (hsource : source path = .ok entries) :
    list source path = .ok (sortEntries entries) := by
  rw [list, hsource]
  rfl

/-- Whether all directories below one are nested less deep than a number of levels. -/
def IsShallow (source : Source) (depth : Nat) (path : String) : Prop :=
  ∀ names, Nests source path names → names.length < depth

theorem IsShallow.down (hshallow : IsShallow source (depth + 1) path) {entries : List Entry}
    (hlist : source path = .ok entries) {entry : Entry} (hmem : entry ∈ entries)
    (hdirectory : entry.isDirectory = true) :
    IsShallow source depth (Text.joinPath path entry.name) :=
  fun _ hbelow => Nat.lt_of_succ_lt_succ (hshallow _ (.down hlist hmem hdirectory hbelow))

theorem visitBelow_congr {σ : Type} (visit : Visitor σ) {other : Nat} {entries : List Entry}
    (hlist : source path = .ok entries) (hshallow : IsShallow source depth path)
    (hother : IsShallow source other path) :
    visitBelow source visit depth path (sortEntries entries) =
      visitBelow source visit other path (sortEntries entries) := by
  induction depth generalizing other path entries with
  | zero => exact absurd (hshallow [] (.here hlist)) (Nat.not_lt_zero _)
  | succ depth ih =>
      cases other with
      | zero => exact absurd (hother [] (.here hlist)) (Nat.not_lt_zero _)
      | succ other =>
          rw [visitBelow, visitBelow]
          refine visitSiblings_congr fun entry hmem => ?_
          have hentry := mem_sortEntries.mp hmem
          unfold visitEntry
          by_cases hdirectory : entry.isDirectory = true
          · rw [if_pos hdirectory, if_pos hdirectory]
            cases hbelow : source (Text.joinPath path entry.name) with
            | error error =>
                rw [list, hbelow]
                rfl
            | ok children =>
                rw [list_of_source hbelow]
                dsimp only
                rw [ih hbelow (hshallow.down hlist hentry hdirectory)
                  (hother.down hlist hentry hdirectory)]
          · rw [if_neg hdirectory, if_neg hdirectory]

/-- The visitor that always goes on, and keeps all visits. -/
def Visitor.tireless : Visitor (List Visit) := Visitor.ofHistory fun _ => .ok .proceed

/-- Whether a step makes some visits and ends with a value. -/
def Ends (step : Action (List Visit) α) (value : α) : Prop :=
  ∃ visits, ∀ history, step.run history = (.ok value, history ++ visits)

/-- Whether a step is cut off as too deep, after a number of visits at least. -/
def IsCut (count : Nat) (step : Action (List Visit) α) : Prop :=
  ∃ directory visits, count ≤ visits.length ∧
    ∀ history, step.run history = (.error (.treeTooDeep directory), history ++ visits)

theorem ends_pure (value : α) : Ends (pure value) value :=
  ⟨[], fun history => by rw [List.append_nil]; rfl⟩

theorem ends_tireless (visit : Visit) : Ends (Visitor.tireless visit) .proceed :=
  ⟨[visit], fun _ => rfl⟩

variable {β : Type} {step : Action (List Visit) α} {next : α → Action (List Visit) β} {value : α}

theorem Ends.bind (hstep : Ends step value) {last : β} (hnext : Ends (next value) last) :
    Ends (step >>= next) last := by
  obtain ⟨visits, hrun⟩ := hstep
  obtain ⟨further, hfurther⟩ := hnext
  refine ⟨visits ++ further, fun history => ?_⟩
  rw [Action.run_bind_of_ok (hrun history), hfurther, List.append_assoc]

theorem Ends.bind_isCut (hstep : Ends step value) {count : Nat} (hnext : IsCut count (next value)) :
    IsCut count (step >>= next) := by
  obtain ⟨visits, hrun⟩ := hstep
  obtain ⟨directory, further, hcount, hfurther⟩ := hnext
  refine ⟨directory, visits ++ further, ?_, fun history => ?_⟩
  · rw [List.length_append]
    exact Nat.le_add_left_of_le hcount
  · rw [Action.run_bind_of_ok (hrun history), hfurther, List.append_assoc]

theorem IsCut.bind {count : Nat} (hstep : IsCut count step) : IsCut count (step >>= next) := by
  obtain ⟨directory, visits, hcount, hrun⟩ := hstep
  exact ⟨directory, visits, hcount, fun history => Action.run_bind_of_error (hrun history)⟩

section Siblings

variable {visitOne : Entry → Action (List Visit) Decision} {entries : List Entry}

theorem ends_visitSiblings (hends : ∀ entry ∈ entries, Ends (visitOne entry) .proceed) :
    Ends (visitSiblings visitOne entries) .proceed := by
  induction entries with
  | nil => exact ends_pure _
  | cons entry rest ih =>
      rw [visitSiblings]
      exact (hends entry List.mem_cons_self).bind
        (ih fun other hmem => hends other (List.mem_cons_of_mem _ hmem))

theorem isCut_visitSiblings {count : Nat}
    (hcases : ∀ entry ∈ entries, Ends (visitOne entry) .proceed ∨ IsCut count (visitOne entry))
    (hcut : ∃ entry ∈ entries, IsCut count (visitOne entry)) :
    IsCut count (visitSiblings visitOne entries) := by
  induction entries with
  | nil =>
      obtain ⟨entry, hmem, -⟩ := hcut
      cases hmem
  | cons entry rest ih =>
      rw [visitSiblings]
      obtain ⟨other, hmem, hother⟩ := hcut
      rcases List.mem_cons.mp hmem with rfl | hmem
      · exact hother.bind
      · have hrest := ih (fun next hnext => hcases next (List.mem_cons_of_mem _ hnext))
          ⟨other, hmem, hother⟩
        rcases hcases entry List.mem_cons_self with hends | hfirst
        · exact hends.bind_isCut hrest
        · exact hfirst.bind

end Siblings

section Entry

variable {below : String → List Entry → Action (List Visit) Decision} {entry : Entry}

theorem ends_visitEntry
    (hbelow : entry.isDirectory = true → ∀ children, source path = .ok children →
      Ends (below path (sortEntries children)) .proceed) :
    Ends (visitEntry source .tireless below path entry) .proceed := by
  unfold visitEntry
  by_cases hdirectory : entry.isDirectory = true
  · rw [if_pos hdirectory]
    cases hlist : source path with
    | error error =>
        rw [list, hlist]
        exact ends_tireless _
    | ok children =>
        rw [list_of_source hlist]
        exact (ends_tireless _).bind (hbelow hdirectory children hlist)
  · rw [if_neg hdirectory]
    exact ends_tireless _

theorem isCut_visitEntry (hdirectory : entry.isDirectory = true) {children : List Entry}
    (hlist : source path = .ok children) {count : Nat}
    (hbelow : IsCut count (below path (sortEntries children))) :
    IsCut (count + 1) (visitEntry source .tireless below path entry) := by
  obtain ⟨directory, visits, hcount, hrun⟩ := hbelow
  unfold visitEntry
  rw [if_pos hdirectory, list_of_source hlist]
  refine ⟨directory, ⟨path, some entry, none⟩ :: visits, Nat.succ_le_succ hcount, ?_⟩
  intro history
  have hvisit : (Visitor.tireless ⟨path, some entry, none⟩).run history =
      (.ok .proceed, history ++ [⟨path, some entry, none⟩]) := rfl
  rw [Action.run_bind_of_ok hvisit, hrun, List.append_assoc]
  rfl

end Entry

/-- What is below a directory comes to an end or is cut off. -/
theorem visitBelow_cases {entries : List Entry} (hlist : source path = .ok entries) :
    (IsShallow source depth path →
      Ends (visitBelow source .tireless depth path (sortEntries entries)) .proceed) ∧
      (¬IsShallow source depth path →
        IsCut depth (visitBelow source .tireless depth path (sortEntries entries))) := by
  induction depth generalizing path entries with
  | zero =>
      constructor
      · intro hshallow
        exact absurd (hshallow [] (.here hlist)) (Nat.not_lt_zero _)
      · intro _
        exact ⟨path, [], Nat.zero_le _, fun history => by rw [List.append_nil]; rfl⟩
  | succ depth ih =>
      constructor
      · intro hshallow
        rw [visitBelow]
        refine ends_visitSiblings fun entry hmem => ends_visitEntry ?_
        intro hdirectory children hchildren
        exact (ih hchildren).1 (hshallow.down hlist (mem_sortEntries.mp hmem) hdirectory)
      · intro hdeep
        rw [visitBelow]
        refine isCut_visitSiblings ?_ ?_
        · intro entry hmem
          by_cases hcut : entry.isDirectory = true ∧ ∃ children,
              source (Text.joinPath path entry.name) = .ok children ∧
                ¬IsShallow source depth (Text.joinPath path entry.name)
          · obtain ⟨hdirectory, children, hchildren, hbelow⟩ := hcut
            exact Or.inr (isCut_visitEntry hdirectory hchildren ((ih hchildren).2 hbelow))
          · refine Or.inl (ends_visitEntry fun hdirectory children hchildren => ?_)
            refine (ih hchildren).1 (Classical.byContradiction fun hbelow => hcut ?_)
            exact ⟨hdirectory, children, hchildren, hbelow⟩
        · -- the names that lead too deep start with a directory that is cut off
          obtain ⟨names, hnests, hlong⟩ : ∃ names, Nests source path names ∧
              depth + 1 ≤ names.length := by
            simpa [IsShallow] using hdeep
          cases hnests with
          | here _ => exact absurd hlong (Nat.not_succ_le_zero _)
          | @down _ found entry rest hfound hmem hdirectory hbelow =>
              obtain rfl := Except.ok.inj (hlist.symm.trans hfound)
              obtain ⟨children, hchildren⟩ := hbelow.exists_list
              refine ⟨entry, mem_sortEntries.mpr hmem,
                isCut_visitEntry hdirectory hchildren ((ih hchildren).2 fun hshallow => ?_)⟩
              exact absurd (hshallow rest hbelow)
                (Nat.not_lt.mpr (Nat.le_of_succ_le_succ hlong))

theorem ends_walk (hshallow : IsShallow source depth path) :
    Ends (TreeImage.walk source depth path .tireless) () := by
  unfold TreeImage.walk
  cases hlist : source path with
  | error error =>
      rw [list, hlist]
      exact (ends_tireless _).bind (ends_pure ())
  | ok entries =>
      rw [list_of_source hlist]
      exact ((visitBelow_cases hlist).1 hshallow).bind (ends_pure ())

theorem isCut_walk (hdeep : ¬IsShallow source depth path) :
    IsCut depth (TreeImage.walk source depth path .tireless) := by
  obtain ⟨names, hnests, -⟩ : ∃ names, Nests source path names ∧ depth ≤ names.length := by
    simpa [IsShallow] using hdeep
  obtain ⟨entries, hlist⟩ := hnests.exists_list
  unfold TreeImage.walk
  rw [list_of_source hlist]
  exact ((visitBelow_cases hlist).2 hdeep).bind

theorem walk_congr {σ : Type} (visit : Visitor σ) {other : Nat}
    (hshallow : IsShallow source depth path) (hother : IsShallow source other path) :
    TreeImage.walk source depth path visit = TreeImage.walk source other path visit := by
  unfold TreeImage.walk
  cases hlist : source path with
  | error error =>
      rw [list, hlist]
      rfl
  | ok entries =>
      rw [list_of_source hlist]
      dsimp only
      rw [visitBelow_congr visit hlist hshallow hother]

end Walk

end TreeImage
