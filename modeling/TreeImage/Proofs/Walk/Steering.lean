import TreeImage.Proofs.Walk.Preorder

/-!
Which visits a walk makes.  The answers of the visitor take stops out of the pre-order, and the walk
makes all other visits, in this order; it fails as the visitor does.
-/

namespace TreeImage.Walk

/-- A visit with its stop, and what the visitor answers or fails with. -/
structure Call where
  stop : Stop
  answer : Except Error Decision

abbrev Log := List (Visit × Except Error Decision)

def Call.logged (call : Call) : Visit × Except Error Decision := (call.stop.visit, call.answer)

def Visitor.recorded {σ : Type} (visit : Visitor σ) : Visitor (σ × Log) :=
  fun place (state, log) =>
    match (visit place).run state with
    | (answer, last) => (answer, last, log ++ [(place, answer)])

def Visit.isDirectory (visit : Visit) : Bool := visit.entry.any Entry.isDirectory

inductive IsFinal : Except Error Decision → Prop
  | stop : IsFinal (.ok .stop)
  | failure (error : Error) : IsFinal (.error error)

theorem isFinal_of_ne {answer : Except Error Decision} (hproceed : answer ≠ .ok .proceed)
    (hskip : answer ≠ .ok .skip) : IsFinal answer := by
  rcases answer with error | decision
  · exact .failure error
  · cases decision with
    | proceed => exact absurd rfl hproceed
    | skip => exact absurd rfl hskip
    | stop => exact .stop

/-- Whether an answer takes out a stop: one below a directory that is skipped, one at or below a
later sibling of anything else that is skipped, or one after the last visit. -/
inductive Call.Excludes (call : Call) (other : Stop) : Prop
  | contents {number : Nat} {rest : List Nat} (hanswer : call.answer = .ok .skip)
      (hdirectory : call.stop.visit.isDirectory = true)
      (hplace : other.place = call.stop.place ++ number :: rest)
  | siblings {parent rest : List Nat} {index later : Nat} (hanswer : call.answer = .ok .skip)
      (hleaf : call.stop.visit.isDirectory = false) (hstop : call.stop.place = parent ++ [index])
      (hlater : index < later) (hplace : other.place = parent ++ later :: rest)
  | after (hfinal : IsFinal call.answer) (hafter : call.stop.place < other.place)

/-- Whether calls are made at just those stops that none of their answers takes out. -/
structure IsSteered (stops : List Stop) (made : List Call) : Prop where
  sublist : (made.map Call.stop).Sublist stops
  mem_iff : ∀ stop ∈ stops,
    stop ∈ made.map Call.stop ↔ ∀ call ∈ made, ¬call.Excludes stop

/-- Whether a result is that of calls: the last answer if it is final, and no other answer is. -/
inductive Concludes : List Call → Except Error Decision → Prop
  | through {made : List Call} (hon : ∀ call ∈ made, ¬IsFinal call.answer) :
      Concludes made (.ok .proceed)
  | last {made : List Call} {call : Call} (hon : ∀ call ∈ made, ¬IsFinal call.answer)
      (hfinal : IsFinal call.answer) : Concludes (made ++ [call]) call.answer

section Calls

variable {call : Call} {other : Stop} {front rest : List Stop} {made further : List Call}
  {result : Except Error Decision}

theorem Call.Excludes.lt (hexcludes : call.Excludes other) : call.stop.place < other.place := by
  cases hexcludes with
  | @contents number rest _ _ hplace =>
      rw [hplace]
      exact place_lt_below _ number rest
  | @siblings _ rest _ _ _ _ hstop hlater hplace =>
      rw [hstop, hplace]
      exact place_lt_of_lt hlater [] rest
  | after _ hafter => exact hafter

theorem Call.Excludes.exists_place (hexcludes : call.Excludes other)
    (hon : ¬IsFinal call.answer) {place tail : List Nat} {number : Nat}
    (hplace : call.stop.place = place ++ number :: tail) :
    ∃ tail', other.place = place ++ tail' := by
  cases hexcludes with
  | contents _ _ hother => exact ⟨_, by rw [hother, hplace, List.append_assoc]⟩
  | @siblings parent _ _ _ _ _ hstop _ hother =>
      have hparent : parent = place ++ (number :: tail).dropLast := by
        have hdrop := congrArg List.dropLast (hstop.symm.trans hplace)
        rwa [List.dropLast_concat, List.dropLast_append_cons] at hdrop
      exact ⟨_, by rw [hother, hparent, List.append_assoc]⟩
  | after hfinal => exact absurd hfinal hon

theorem Call.not_excludes_of_proceed (hanswer : call.answer = .ok .proceed) :
    ¬call.Excludes other := by
  intro hexcludes
  rcases hexcludes with hskip | hskip | hfinal
  · cases hanswer.symm.trans hskip
  · cases hanswer.symm.trans hskip
  · rw [hanswer] at hfinal
    cases hfinal

theorem isSteered_nil : IsSteered [] [] := ⟨.slnil, List.forall_mem_nil _⟩

theorem isSteered_single (call : Call) : IsSteered [call.stop] [call] := by
  refine ⟨.refl _, ?_⟩
  simp only [List.mem_singleton, List.map_singleton, forall_eq, true_iff]
  exact fun hexcludes => lt_irrefl _ hexcludes.lt

theorem IsSteered.append (hmade : IsSteered front made) (hfurther : IsSteered rest further)
    (hrest : ∀ call ∈ made, ∀ stop ∈ rest, ¬call.Excludes stop)
    (hfront : ∀ call ∈ further, ∀ stop ∈ front, ¬call.Excludes stop) :
    IsSteered (front ++ rest) (made ++ further) := by
  refine ⟨?_, fun stop hmem => ?_⟩
  · rw [List.map_append]
    exact hmade.sublist.append hfurther.sublist
  · rw [List.map_append, List.mem_append, List.forall_mem_append]
    constructor
    · rintro (hstop | hstop)
      · have hmem := hmade.sublist.subset hstop
        exact ⟨(hmade.mem_iff stop hmem).mp hstop, fun call hcall => hfront call hcall stop hmem⟩
      · have hmem := hfurther.sublist.subset hstop
        exact ⟨fun call hcall => hrest call hcall stop hmem, (hfurther.mem_iff stop hmem).mp hstop⟩
    · rintro ⟨hmadeOn, hfurtherOn⟩
      rcases List.mem_append.mp hmem with hmem | hmem
      · exact Or.inl ((hmade.mem_iff stop hmem).mpr hmadeOn)
      · exact Or.inr ((hfurther.mem_iff stop hmem).mpr hfurtherOn)

theorem IsSteered.append_excluded (hmade : IsSteered front made)
    (hrest : ∀ stop ∈ rest, ∃ call ∈ made, call.Excludes stop) :
    IsSteered (front ++ rest) made := by
  refine ⟨hmade.sublist.trans (List.sublist_append_left front rest), fun stop hmem => ?_⟩
  rcases List.mem_append.mp hmem with hmem | hmem
  · exact hmade.mem_iff stop hmem
  · obtain ⟨call, hcall, hexcludes⟩ := hrest stop hmem
    constructor
    · intro hstop
      exact (hmade.mem_iff stop (hmade.sublist.subset hstop)).mp hstop
    · exact fun hon => absurd hexcludes (hon call hcall)

theorem IsSteered.nodup (hmade : IsSteered front made)
    (hpairwise : front.Pairwise fun one two => one.place < two.place) :
    (made.map fun call => call.stop.place).Nodup := by
  have hordered := List.pairwise_map.mp (hpairwise.sublist hmade.sublist)
  exact List.pairwise_map.mpr (hordered.imp fun hlt => hlt.ne)

theorem Concludes.append (hmade : ∀ call ∈ made, ¬IsFinal call.answer)
    (hfurther : Concludes further result) : Concludes (made ++ further) result := by
  cases hfurther with
  | through hon => exact .through (List.forall_mem_append.mpr ⟨hmade, hon⟩)
  | last hon hfinal =>
      rw [← List.append_assoc]
      exact .last (List.forall_mem_append.mpr ⟨hmade, hon⟩) hfinal

theorem Concludes.eq_error_iff (hconcludes : Concludes made result) (error : Error) :
    result = .error error ↔ ∃ call ∈ made, call.answer = .error error := by
  have hrefused : ∀ {call : Call}, call.answer = .error error → IsFinal call.answer :=
    fun hanswer => hanswer ▸ .failure error
  cases hconcludes with
  | through hon =>
      refine ⟨nofun, ?_⟩
      rintro ⟨call, hmem, hanswer⟩
      exact absurd (hrefused hanswer) (hon call hmem)
  | @last made call hon hfinal =>
      constructor
      · exact fun hanswer => ⟨call, List.mem_concat_self, hanswer⟩
      · rintro ⟨other, hmem, hanswer⟩
        rcases List.mem_append.mp hmem with hmem | hmem
        · exact absurd (hrefused hanswer) (hon other hmem)
        · rwa [← List.mem_singleton.mp hmem]

end Calls

structure Parts (place : List Nat) (index : Nat) (here : Stop) (contents later : List Stop) :
    Prop where
  place_here : here.place = place ++ [index]
  place_contents : ∀ stop ∈ contents, ∃ number rest, stop.place = here.place ++ number :: rest
  place_later : ∀ stop ∈ later, ∃ number rest, index < number ∧ stop.place = place ++ number :: rest

namespace Parts

variable {place : List Nat} {index : Nat} {here stop : Stop} {contents later : List Stop}
  {made further : List Call} {answer : Except Error Decision}

theorem lt_contents (hparts : Parts place index here contents later) (hmem : stop ∈ contents) :
    here.place < stop.place := by
  obtain ⟨number, rest, hplace⟩ := hparts.place_contents stop hmem
  rw [hplace]
  exact place_lt_below here.place number rest

theorem exists_place (hparts : Parts place index here contents later)
    (hmem : stop ∈ here :: contents) : ∃ rest, stop.place = place ++ index :: rest := by
  rcases List.mem_cons.mp hmem with rfl | hmem
  · exact ⟨[], hparts.place_here⟩
  · obtain ⟨number, rest, hplace⟩ := hparts.place_contents stop hmem
    exact ⟨number :: rest, by rw [hplace, hparts.place_here, List.append_assoc]; rfl⟩

theorem lt_later (hparts : Parts place index here contents later) (hmem : stop ∈ here :: contents)
    {next : Stop} (hnext : next ∈ later) : stop.place < next.place := by
  obtain ⟨front, hplace⟩ := hparts.exists_place hmem
  obtain ⟨number, rest, hlt, hother⟩ := hparts.place_later next hnext
  rw [hplace, hother]
  exact place_lt_of_lt hlt front rest

theorem place_ne_later (hparts : Parts place index here contents later) (hmem : stop ∈ later)
    (rest : List Nat) : stop.place ≠ place ++ index :: rest := by
  obtain ⟨number, rest', hlt, hplace⟩ := hparts.place_later stop hmem
  rw [hplace]
  intro hsame
  exact absurd (List.cons.inj (List.append_cancel_left hsame)).1 hlt.ne'

theorem not_excludes_later (hparts : Parts place index here contents later) {call : Call}
    (hcall : call.stop ∈ contents) (hon : ¬IsFinal call.answer) (hmem : stop ∈ later) :
    ¬call.Excludes stop := by
  intro hexcludes
  obtain ⟨number, rest, hplace⟩ := hparts.place_contents call.stop hcall
  obtain ⟨tail, hother⟩ := hexcludes.exists_place hon hplace
  rw [hparts.place_here, List.append_assoc] at hother
  exact hparts.place_ne_later hmem tail hother

theorem not_excludes_skip (hparts : Parts place index here contents later)
    (hdirectory : here.visit.isDirectory = true) (hmem : stop ∈ later) :
    ¬(Call.mk here (.ok .skip)).Excludes stop := by
  intro hexcludes
  cases hexcludes with
  | contents _ _ hplace =>
      rw [hparts.place_here, List.append_assoc] at hplace
      exact hparts.place_ne_later hmem _ hplace
  | siblings _ hleaf => exact Bool.false_ne_true (hleaf.symm.trans hdirectory)
  | after hfinal => cases hfinal

theorem isSteered_proceed (hparts : Parts place index here contents later)
    (hmade : IsSteered contents made) :
    IsSteered (here :: contents) (⟨here, .ok .proceed⟩ :: made) := by
  refine (isSteered_single ⟨here, .ok .proceed⟩).append hmade ?_ ?_
  · intro call hcall stop _
    rw [List.mem_singleton.mp hcall]
    exact Call.not_excludes_of_proceed rfl
  · intro call hcall stop hstop hexcludes
    rw [List.mem_singleton.mp hstop] at hexcludes
    have hmem := hmade.sublist.subset (List.mem_map_of_mem hcall)
    exact lt_asymm hexcludes.lt (hparts.lt_contents hmem)

theorem isSteered_skip (hparts : Parts place index here contents later)
    (hdirectory : here.visit.isDirectory = true) :
    IsSteered (here :: contents) [⟨here, .ok .skip⟩] := by
  refine (isSteered_single ⟨here, .ok .skip⟩).append_excluded fun stop hmem => ?_
  obtain ⟨number, rest, hplace⟩ := hparts.place_contents stop hmem
  exact ⟨_, List.mem_singleton_self _, .contents rfl hdirectory hplace⟩

theorem isSteered_skip_leaf (hparts : Parts place index here [] later)
    (hleaf : here.visit.isDirectory = false) : IsSteered (here :: later) [⟨here, .ok .skip⟩] := by
  refine (isSteered_single ⟨here, .ok .skip⟩).append_excluded fun stop hmem => ?_
  obtain ⟨number, rest, hlt, hplace⟩ := hparts.place_later stop hmem
  exact ⟨_, List.mem_singleton_self _, .siblings rfl hleaf hparts.place_here hlt hplace⟩

theorem isSteered_final (hparts : Parts place index here contents later)
    (hfinal : IsFinal answer) : IsSteered (here :: contents) [⟨here, answer⟩] := by
  refine (isSteered_single ⟨here, answer⟩).append_excluded fun stop hmem => ?_
  exact ⟨_, List.mem_singleton_self _, .after hfinal (hparts.lt_contents hmem)⟩

theorem isSteered_end (hparts : Parts place index here contents later)
    (hmade : IsSteered (here :: contents) made) {call : Call} (hcall : call ∈ made)
    (hfinal : IsFinal call.answer) : IsSteered (here :: (contents ++ later)) made := by
  refine hmade.append_excluded fun stop hmem => ⟨call, hcall, .after hfinal ?_⟩
  exact hparts.lt_later (hmade.sublist.subset (List.mem_map_of_mem hcall)) hmem

theorem isSteered_append (hparts : Parts place index here contents later)
    (hmade : IsSteered (here :: contents) made)
    (hlater : ∀ call ∈ made, ∀ stop ∈ later, ¬call.Excludes stop)
    (hfurther : IsSteered later further) :
    IsSteered (here :: (contents ++ later)) (made ++ further) := by
  refine hmade.append hfurther hlater fun call hcall stop hstop hexcludes => ?_
  have hmem := hfurther.sublist.subset (List.mem_map_of_mem hcall)
  exact lt_asymm hexcludes.lt (hparts.lt_later hstop hmem)

end Parts

section Run

variable {σ : Type} {source : Source} {path : String} {entry : Entry} {state last : σ}

section Siblings

variable {visitOne : Entry → Action σ Decision} (rest : List Entry)

theorem run_visitSiblings_next {decision : Decision}
    (hrun : (visitOne entry).run state = (.ok decision, last))
    (hnext : decision = .proceed ∨ decision = .skip ∧ entry.isDirectory = true) :
    (visitSiblings visitOne (entry :: rest)).run state =
      (visitSiblings visitOne rest).run last := by
  rw [visitSiblings, Action.run_bind_of_ok hrun]
  rcases hnext with rfl | ⟨rfl, hdirectory⟩
  · rfl
  · dsimp only
    rw [if_pos hdirectory]

theorem run_visitSiblings_skip (hrun : (visitOne entry).run state = (.ok .skip, last))
    (hleaf : entry.isDirectory = false) :
    (visitSiblings visitOne (entry :: rest)).run state = (.ok .proceed, last) := by
  rw [visitSiblings, Action.run_bind_of_ok hrun]
  dsimp only
  rw [hleaf, if_neg Bool.false_ne_true]
  rfl

theorem run_visitSiblings_last {result : Except Error Decision}
    (hrun : (visitOne entry).run state = (result, last)) (hfinal : IsFinal result) :
    (visitSiblings visitOne (entry :: rest)).run state = (result, last) := by
  rw [visitSiblings]
  cases hfinal with
  | stop => exact Action.run_bind_of_ok hrun
  | failure error => exact Action.run_bind_of_error hrun

end Siblings

section Directory

variable {visit : Visitor σ} {children : List Entry} (hdirectory : entry.isDirectory = true)
  (hlist : source path = .ok children) (below : String → List Entry → Action σ Decision)
include hdirectory hlist

theorem run_visitEntry_proceed
    (hrun : (visit ⟨path, some entry, none⟩).run state = (.ok .proceed, last)) :
    (visitEntry source visit below path entry).run state =
      (below path (sortEntries children)).run last := by
  rw [visitEntry, if_pos hdirectory, list_of_source hlist]
  exact Action.run_bind_of_ok hrun

theorem run_visitEntry_of_ne {answer : Except Error Decision}
    (hrun : (visit ⟨path, some entry, none⟩).run state = (answer, last))
    (hanswer : answer ≠ .ok .proceed) :
    (visitEntry source visit below path entry).run state = (answer, last) := by
  rw [visitEntry, if_pos hdirectory, list_of_source hlist]
  rcases answer with error | decision
  · exact Action.run_bind_of_error hrun
  · refine (Action.run_bind_of_ok hrun).trans ?_
    cases decision with
    | proceed => exact absurd rfl hanswer
    | skip => rfl
    | stop => rfl

end Directory

theorem visitEntry_bare {failure : Option Error} (hbare : IsBare source path entry failure)
    (visit : Visitor σ) (below : String → List Entry → Action σ Decision) :
    visitEntry source visit below path entry = visit ⟨path, some entry, failure⟩ := by
  cases hbare with
  | leaf hleaf => rw [visitEntry, hleaf, if_neg Bool.false_ne_true]
  | unlisted hdirectory hlist => rw [visitEntry, if_pos hdirectory, list, hlist]; rfl

theorem run_recorded {visit : Visitor σ} {place : Visit} {answer : Except Error Decision}
    (hrun : (visit place).run state = (answer, last)) (log : Log) :
    (visit.recorded place).run (state, log) = (answer, last, log ++ [(place, answer)]) := by
  show (match (visit place).run state with
    | (answer, last) => (answer, last, log ++ [(place, answer)])) = _
  rw [hrun]

/-- Whether a step from a state makes calls at stops as their answers allow, and does the same when
it is recorded but for the log. -/
def SteersFrom (state : σ) (log : Log) (stops : List Stop) (step : Action σ Decision)
    (recorded : Action (σ × Log) Decision) : Prop :=
  ∃ made result last,
    step.run state = (result, last) ∧
    recorded.run (state, log) = (result, last, log ++ made.map Call.logged) ∧
    IsSteered stops made ∧ Concludes made result

def Steers (stops : List Stop) (step : Action σ Decision) (recorded : Action (σ × Log) Decision) :
    Prop :=
  ∀ state log, SteersFrom state log stops step recorded

/-- Whether a step makes a call at a stop and then, if the visitor goes on, others as their answers
allow. -/
def Enters (here : Stop) (contents : List Stop) (step : Action σ Decision)
    (recorded : Action (σ × Log) Decision) : Prop :=
  ∀ state log, ∃ answer made result last,
    step.run state = (result, last) ∧
    recorded.run (state, log) =
      (result, last, log ++ (Call.mk here answer :: made).map Call.logged) ∧
    (answer = .ok .proceed ∧ IsSteered contents made ∧ Concludes made result ∨
      answer ≠ .ok .proceed ∧ made = [] ∧ result = answer)

theorem enters_bare {failure : Option Error} (hbare : IsBare source path entry failure)
    (place : List Nat) (visit : Visitor σ) (below : String → List Entry → Action σ Decision)
    (recordedBelow : String → List Entry → Action (σ × Log) Decision) :
    Enters ⟨place, ⟨path, some entry, failure⟩⟩ [] (visitEntry source visit below path entry)
      (visitEntry source visit.recorded recordedBelow path entry) := by
  intro state log
  rw [visitEntry_bare hbare, visitEntry_bare hbare]
  obtain ⟨answer, last, hrun⟩ : ∃ answer last,
      (visit ⟨path, some entry, failure⟩).run state = (answer, last) := ⟨_, _, rfl⟩
  refine ⟨answer, [], answer, last, hrun, run_recorded hrun log, ?_⟩
  by_cases hanswer : answer = .ok .proceed
  · refine Or.inl ⟨hanswer, isSteered_nil, ?_⟩
    rw [hanswer]
    exact .through (List.forall_mem_nil _)
  · exact Or.inr ⟨hanswer, rfl, rfl⟩

theorem enters_directory (hdirectory : entry.isDirectory = true) {children : List Entry}
    (hlist : source path = .ok children) {contents : List Stop} {visit : Visitor σ}
    {below : String → List Entry → Action σ Decision}
    {recordedBelow : String → List Entry → Action (σ × Log) Decision}
    (hcontents : Steers contents (below path (sortEntries children))
      (recordedBelow path (sortEntries children))) (place : List Nat) :
    Enters ⟨place, ⟨path, some entry, none⟩⟩ contents (visitEntry source visit below path entry)
      (visitEntry source visit.recorded recordedBelow path entry) := by
  intro state log
  obtain ⟨answer, middle, hrun⟩ : ∃ answer middle,
      (visit ⟨path, some entry, none⟩).run state = (answer, middle) := ⟨_, _, rfl⟩
  by_cases hanswer : answer = .ok .proceed
  · subst hanswer
    obtain ⟨made, result, last, hstep, hrecorded, hsteered, hconcludes⟩ :=
      hcontents middle (log ++ [(⟨path, some entry, none⟩, .ok .proceed)])
    refine ⟨_, made, result, last, ?_, ?_, Or.inl ⟨rfl, hsteered, hconcludes⟩⟩
    · rw [run_visitEntry_proceed hdirectory hlist below hrun, hstep]
    · rw [run_visitEntry_proceed hdirectory hlist recordedBelow (run_recorded hrun log), hrecorded,
        List.append_assoc]
      rfl
  · refine ⟨answer, [], answer, middle, ?_, ?_, Or.inr ⟨hanswer, rfl, rfl⟩⟩
    · exact run_visitEntry_of_ne hdirectory hlist below hrun hanswer
    · exact run_visitEntry_of_ne hdirectory hlist recordedBelow (run_recorded hrun log) hanswer

section Cons

variable {visitOne : Entry → Action σ Decision} {recordedOne : Entry → Action (σ × Log) Decision}
  {rest : List Entry} {place : List Nat} {index : Nat} {here : Stop} {contents later : List Stop}
  (hparts : Parts place index here contents later) {made : List Call} {log : Log}
include hparts

/-- The calls at later siblings come after those at the first of them and below it, if none of these
is final or takes out a later sibling. -/
theorem steersFrom_next {decision : Decision}
    (hstep : (visitOne entry).run state = (.ok decision, last))
    (hrecorded : (recordedOne entry).run (state, log) =
      (.ok decision, last, log ++ made.map Call.logged))
    (hnext : decision = .proceed ∨ decision = .skip ∧ entry.isDirectory = true)
    (hmade : IsSteered (here :: contents) made)
    (hlater : ∀ call ∈ made, ∀ stop ∈ later, ¬call.Excludes stop)
    (hon : ∀ call ∈ made, ¬IsFinal call.answer)
    (hrest : Steers later (visitSiblings visitOne rest) (visitSiblings recordedOne rest)) :
    SteersFrom state log (here :: (contents ++ later)) (visitSiblings visitOne (entry :: rest))
      (visitSiblings recordedOne (entry :: rest)) := by
  obtain ⟨further, result, last', hstep', hrecorded', hfurther, hconcludes⟩ :=
    hrest last (log ++ made.map Call.logged)
  refine ⟨made ++ further, result, last', ?_, ?_, ?_, hconcludes.append hon⟩
  · rw [run_visitSiblings_next rest hstep hnext, hstep']
  · rw [run_visitSiblings_next rest hrecorded hnext, hrecorded', List.map_append, List.append_assoc]
  · exact hparts.isSteered_append hmade hlater hfurther

theorem steersFrom_last {call : Call} (hfinal : IsFinal call.answer)
    (hstep : (visitOne entry).run state = (call.answer, last))
    (hrecorded : (recordedOne entry).run (state, log) =
      (call.answer, last, log ++ (made ++ [call]).map Call.logged))
    (hmade : IsSteered (here :: contents) (made ++ [call]))
    (hon : ∀ call ∈ made, ¬IsFinal call.answer) :
    SteersFrom state log (here :: (contents ++ later)) (visitSiblings visitOne (entry :: rest))
      (visitSiblings recordedOne (entry :: rest)) :=
  ⟨made ++ [call], call.answer, last, run_visitSiblings_last rest hstep hfinal,
    run_visitSiblings_last rest hrecorded hfinal,
    hparts.isSteered_end hmade List.mem_concat_self hfinal, .last hon hfinal⟩

/-- Siblings are visited as the answers at the first of them and below it allow. -/
theorem steers_cons (hentry : here.visit.isDirectory = entry.isDirectory)
    (hleaf : entry.isDirectory = false → contents = [])
    (henters : Enters here contents (visitOne entry) (recordedOne entry))
    (hrest : Steers later (visitSiblings visitOne rest) (visitSiblings recordedOne rest)) :
    Steers (here :: (contents ++ later)) (visitSiblings visitOne (entry :: rest))
      (visitSiblings recordedOne (entry :: rest)) := by
  intro state log
  obtain ⟨answer, made, result, last, hstep, hrecorded, hcases⟩ := henters state log
  rcases hcases with ⟨rfl, hmade, hconcludes⟩ | ⟨hanswer, rfl, rfl⟩
  · -- what is below was visited; its result tells whether the later siblings are
    have hhere := hparts.isSteered_proceed hmade
    have hproceed : ¬IsFinal (.ok .proceed) := nofun
    cases hconcludes with
    | through hon =>
        refine steersFrom_next hparts hstep hrecorded (Or.inl rfl) hhere ?_
          (List.forall_mem_cons.mpr ⟨hproceed, hon⟩) hrest
        refine List.forall_mem_cons.mpr ⟨fun stop _ => Call.not_excludes_of_proceed rfl, ?_⟩
        intro call hcall stop hmem
        have hstop := hmade.sublist.subset (List.mem_map_of_mem hcall)
        exact hparts.not_excludes_later hstop (hon call hcall) hmem
    | last hon hfinal =>
        exact steersFrom_last hparts hfinal hstep hrecorded hhere
          (List.forall_mem_cons.mpr ⟨hproceed, hon⟩)
  · by_cases hskip : result = .ok .skip
    · subst hskip
      have hon : ∀ call ∈ [Call.mk here (.ok .skip)], ¬IsFinal call.answer :=
        List.forall_mem_singleton.mpr nofun
      cases hdirectory : entry.isDirectory with
      | true =>
          -- only what is below the directory is left out
          have hskipped := hentry.trans hdirectory
          exact steersFrom_next hparts hstep hrecorded (Or.inr ⟨rfl, hdirectory⟩)
            (hparts.isSteered_skip hskipped)
            (List.forall_mem_singleton.mpr fun stop => hparts.not_excludes_skip hskipped) hon hrest
      | false =>
          -- the later siblings are left out, and those of the parent are not
          obtain rfl := hleaf hdirectory
          exact ⟨_, _, last, run_visitSiblings_skip rest hstep hdirectory,
            run_visitSiblings_skip rest hrecorded hdirectory,
            hparts.isSteered_skip_leaf (hentry.trans hdirectory), .through hon⟩
    · have hfinal := isFinal_of_ne hanswer hskip
      exact steersFrom_last hparts hfinal hstep hrecorded (hparts.isSteered_final hfinal)
        (List.forall_mem_nil _)

end Cons

/-- The walk below a directory makes calls as their answers allow.  The induction is on the stops
below; levels are left for each directory that is listed. -/
theorem steers_below (visit : Visitor σ) {place : List Nat} {index depth : Nat}
    {entries : List Entry} {stops : List Stop}
    (hbelow : Below source place path index entries stops)
    (hshallow : ∀ entry ∈ entries, entry.isDirectory = true →
      IsShallow source depth (Text.joinPath path entry.name)) :
    Steers stops (visitBelow source visit (depth + 1) path entries)
      (visitBelow source visit.recorded (depth + 1) path entries) := by
  induction hbelow generalizing depth with
  | nil =>
      intro state log
      refine ⟨[], .ok .proceed, state, rfl, ?_, isSteered_nil, .through (List.forall_mem_nil _)⟩
      rw [List.map_nil, List.append_nil]
      rfl
  | @bare place path index entry rest failure later hbare hlater ih =>
      have hrest := ih fun entry hmem => hshallow entry (List.mem_cons_of_mem _ hmem)
      have hparts : Parts place index
          ⟨place ++ [index], ⟨Text.joinPath path entry.name, some entry, failure⟩⟩ [] later :=
        ⟨rfl, List.forall_mem_nil _, fun stop hmem => hlater.exists_place hmem⟩
      exact steers_cons hparts rfl (fun _ => rfl) (enters_bare hbare _ visit _ _) hrest
  | @directory place path index entry rest children ordered contents later hdirectory hlist horder
      hcontents hlater ihContents ih =>
      have hrest := ih fun entry hmem => hshallow entry (List.mem_cons_of_mem _ hmem)
      have hhere := hshallow entry List.mem_cons_self hdirectory
      obtain rfl := horder.unique (inNameOrder_sortEntries children)
      -- the directory is listed, so that it takes a level
      cases depth with
      | zero => exact absurd (hhere [] (.here hlist)) (Nat.not_lt_zero _)
      | succ depth =>
          have hdown : ∀ next ∈ sortEntries children, next.isDirectory = true →
              IsShallow source depth (Text.joinPath (Text.joinPath path entry.name) next.name) :=
            fun next hmem => hhere.down hlist (mem_sortEntries.mp hmem)
          refine steers_cons ⟨rfl, ?_, fun stop hmem => hlater.exists_place hmem⟩ rfl ?_
            (enters_directory hdirectory hlist (ihContents hdown) _) hrest
          · intro stop hmem
            obtain ⟨number, rest, -, hplace⟩ := hcontents.exists_place hmem
            exact ⟨number, rest, hplace⟩
          · exact fun hleaf => absurd hdirectory (hleaf ▸ Bool.false_ne_true)

/-- What a walk does if stops are all that it could make: what its recording tells are calls that
their answers allow, no two of them at one place, and it fails just if one of them does.  A root
that cannot be listed is all that it visits. -/
structure Walks (source : Source) (root : String) (depth : Nat) (visit : Visitor σ) (state : σ)
    (stops : List Stop) (made : List Call) : Prop where
  recorded : (TreeImage.walk source depth root visit.recorded).run (state, []) =
    (((TreeImage.walk source depth root visit).run state).1,
      ((TreeImage.walk source depth root visit).run state).2, made.map Call.logged)
  steered : IsSteered stops made
  nodup : (made.map fun call => call.stop.place).Nodup
  eq_error_iff : ∀ error, ((TreeImage.walk source depth root visit).run state).1 = .error error ↔
    ∃ call ∈ made, call.answer = .error error
  unlisted : ∀ error, source root = .error error →
    (made.map fun call => call.stop.visit) = [⟨root, none, some error⟩]

theorem run_bind_unit {step : Action σ Decision} {result : Except Error Decision}
    (hrun : step.run state = (result, last)) :
    (step >>= fun _ => (pure () : Action σ Unit)).run state = (result.map fun _ => (), last) := by
  rcases result with error | decision
  · exact Action.run_bind_of_error hrun
  · exact Action.run_bind_of_ok hrun

theorem walks_of_run {root : String} {depth : Nat} {visit : Visitor σ} {stops : List Stop}
    {made : List Call} {step : Action σ Decision} {recorded : Action (σ × Log) Decision}
    {result : Except Error Decision}
    (hwalk : TreeImage.walk source depth root visit = step >>= fun _ => pure ())
    (hwalk' : TreeImage.walk source depth root visit.recorded = recorded >>= fun _ => pure ())
    (hstep : step.run state = (result, last))
    (hrecorded : recorded.run (state, []) = (result, last, made.map Call.logged))
    (hstops : IsPreorder source root stops) (hmade : IsSteered stops made)
    (herror : ∀ error, result = .error error ↔ ∃ call ∈ made, call.answer = .error error)
    (hunlisted : ∀ error, source root = .error error →
      (made.map fun call => call.stop.visit) = [⟨root, none, some error⟩]) :
    Walks source root depth visit state stops made := by
  refine ⟨?_, hmade, hmade.nodup hstops.pairwise, fun error => ?_, hunlisted⟩
  · rw [hwalk, hwalk', run_bind_unit hstep]
    exact run_bind_unit hrecorded
  · rw [hwalk, run_bind_unit hstep, ← herror]
    cases result with
    | error failure => simp [Except.map]
    | ok decision => simp [Except.map]

theorem IsPreorder.exists_walks {root : String} {stops : List Stop}
    (hstops : IsPreorder source root stops) {depth : Nat} (hshallow : IsShallow source depth root)
    (visit : Visitor σ) (state : σ) : ∃ made, Walks source root depth visit state stops made := by
  cases hstops with
  | @unlisted error hlist =>
      obtain ⟨answer, last, hrun⟩ : ∃ answer last,
          (visit ⟨root, none, some error⟩).run state = (answer, last) := ⟨_, _, rfl⟩
      let call : Call := ⟨⟨[], ⟨root, none, some error⟩⟩, answer⟩
      refine ⟨[call], walks_of_run ?_ ?_ hrun (run_recorded hrun []) (.unlisted hlist)
        (isSteered_single call) ?_ ?_⟩
      · rw [TreeImage.walk, list, hlist]
        rfl
      · rw [TreeImage.walk, list, hlist]
        rfl
      · simp [call]
      · intro failure hfailure
        rw [Except.error.inj (hfailure.symm.trans hlist)]
        rfl
  | @listed entries ordered stops hlist horder hbelow =>
      obtain rfl := horder.unique (inNameOrder_sortEntries entries)
      cases depth with
      | zero => exact absurd (hshallow [] (.here hlist)) (Nat.not_lt_zero _)
      | succ depth =>
          obtain ⟨made, result, last, hstep, hrecorded, hmade, hconcludes⟩ :=
            steers_below visit hbelow
              (fun entry hmem => hshallow.down hlist (mem_sortEntries.mp hmem)) state []
          refine ⟨made, walks_of_run ?_ ?_ hstep hrecorded (.listed hlist horder hbelow) hmade
            hconcludes.eq_error_iff ?_⟩
          · rw [TreeImage.walk, list_of_source hlist]
          · rw [TreeImage.walk, list_of_source hlist]
          · intro failure hfailure
            cases hfailure.symm.trans hlist

/-- A walk over finitely many directories, any of which may fail to list, makes just the visits of
the one pre-order that the answers of its visitor do not take out. -/
theorem walk_follows_answers {source : Source} {root : String}
    (hfinite : {names | Nests source root names}.Finite) :
    ∃ full, IsPreorder source root full ∧ (∀ other, IsPreorder source root other → other = full) ∧
      (full.Pairwise fun one two => one.place < two.place) ∧
      (∃ depth, IsShallow source depth root) ∧
      ∀ depth, IsShallow source depth root → ∀ (σ : Type) (visit : Visitor σ) (state : σ),
        ∃ made, Walks source root depth visit state full made := by
  obtain ⟨depth, hshallow⟩ := exists_isShallow hfinite
  obtain ⟨full, hfull⟩ := hshallow.exists_isPreorder
  exact ⟨full, hfull, fun other hother => hother.unique hfull, hfull.pairwise, ⟨depth, hshallow⟩,
    fun _ hlevels _ visit state => hfull.exists_walks hlevels visit state⟩

end Run

def sampleSource (path : String) : Except Error (List Entry) :=
  if path = "/" then
    .ok [⟨"zeta", .file⟩, ⟨"Beta", .directory⟩, ⟨"alpha", .directory⟩, ⟨"gamma", .file⟩]
  else if path = "/alpha" then .ok [⟨"two", .file⟩, ⟨"One", .file⟩, ⟨"three", .file⟩]
  else if path = "/Beta" then .ok [⟨"leaf", .file⟩, ⟨"inner", .directory⟩]
  else .error (.notFound path)

/-- The visitor that skips a file and the directory that cannot be listed, and stops later. -/
def sampleVisitor : Visitor Unit := fun visit =>
  if visit.path = "/alpha/One" ∨ visit.path = "/Beta/inner" then return .skip
  else if visit.path = "/gamma" then return .stop
  else return .proceed

theorem joinPath_sample : Text.joinPath "/" "alpha" = "/alpha" ∧
    Text.joinPath "/" "Beta" = "/Beta" ∧
    Text.joinPath (Text.joinPath "/" "Beta") "inner" = "/Beta/inner" := by
  decide +kernel

theorem nests_sampleSource {names : List String} (hnests : Nests sampleSource "/" names) :
    names ∈ [[], ["alpha"], ["Beta"]] := by
  obtain ⟨halpha, hbeta, hinner⟩ := joinPath_sample
  cases hnests with
  | here => simp
  | @down _ entries entry rest hlist hmem hdirectory hbelow =>
      obtain rfl : _ = entries := Except.ok.inj hlist
      simp only [List.mem_cons, List.not_mem_nil, or_false] at hmem
      rcases hmem with rfl | rfl | rfl | rfl
      · cases hdirectory
      · rw [hbeta] at hbelow hinner
        cases hbelow with
        | here => simp
        | @down _ entries entry rest hlist hmem hdirectory hbelow =>
            obtain rfl : _ = entries := Except.ok.inj hlist
            simp only [List.mem_cons, List.not_mem_nil, or_false] at hmem
            rcases hmem with rfl | rfl
            · cases hdirectory
            · rw [hinner] at hbelow
              obtain ⟨children, hchildren⟩ := hbelow.exists_list
              cases hchildren
      · rw [halpha] at hbelow
        cases hbelow with
        | here => simp
        | @down _ entries entry rest hlist hmem hdirectory hbelow =>
            obtain rfl : _ = entries := Except.ok.inj hlist
            simp only [List.mem_cons, List.not_mem_nil, or_false] at hmem
            rcases hmem with rfl | rfl | rfl
            all_goals cases hdirectory
      · cases hdirectory

theorem list_sampleSource :
    list sampleSource "/" = .ok
        [⟨"alpha", .directory⟩, ⟨"Beta", .directory⟩, ⟨"gamma", .file⟩, ⟨"zeta", .file⟩] ∧
      list sampleSource (Text.joinPath "/" "alpha") = .ok
        [⟨"One", .file⟩, ⟨"three", .file⟩, ⟨"two", .file⟩] ∧
      list sampleSource (Text.joinPath "/" "Beta") = .ok [⟨"inner", .directory⟩, ⟨"leaf", .file⟩] ∧
      list sampleSource (Text.joinPath (Text.joinPath "/" "Beta") "inner") =
        .error (.notFound "/Beta/inner") := by
  have hsorted : ∀ {path listed ordered}, sampleSource path = .ok listed → ordered.Perm listed →
      (ordered.Pairwise fun one two => one.key < two.key) → list sampleSource path = .ok ordered :=
    fun hlist hperm hpairwise => (list_of_source hlist).trans
      (congrArg _ ((inNameOrder_sortEntries _).unique (.of_perm hperm hpairwise)))
  obtain ⟨halpha, hbeta, hinner⟩ := joinPath_sample
  rw [hinner, halpha, hbeta]
  refine ⟨hsorted rfl ?_ ?_, hsorted rfl ?_ ?_, hsorted rfl ?_ ?_, rfl⟩
  all_goals decide +kernel

/-- The walk leaves out the files after the one that is skipped, goes on after the directory that
cannot be listed, and ends before the last file. -/
theorem walk_follows_answers_sample :
    {names | Nests sampleSource "/" names}.Finite ∧
      ∃ full made, IsPreorder sampleSource "/" full ∧
        Walks sampleSource "/" 2 sampleVisitor () full made ∧
        (made.map fun call => call.stop.visit.path) =
          ["/alpha", "/alpha/One", "/Beta", "/Beta/inner", "/Beta/leaf", "/gamma"] := by
  have hfinite : {names | Nests sampleSource "/" names}.Finite :=
    (List.finite_toSet [[], ["alpha"], ["Beta"]]).subset fun names => nests_sampleSource
  have hshallow : IsShallow sampleSource 2 "/" := by
    intro names hnests
    have hmem := nests_sampleSource hnests
    simp only [List.mem_cons, List.not_mem_nil, or_false] at hmem
    rcases hmem with rfl | rfl | rfl
    all_goals decide
  obtain ⟨full, hfull, -, -, -, hwalks⟩ := walk_follows_answers hfinite
  obtain ⟨made, hmade⟩ := hwalks 2 hshallow Unit sampleVisitor ()
  refine ⟨hfinite, full, made, hfull, hmade, ?_⟩
  obtain ⟨hroot, halpha, hbeta, hinner⟩ := list_sampleSource
  have hlog := congrArg (fun run => run.2.2.map fun logged => logged.1.path) hmade.recorded
  rw [List.map_map] at hlog
  refine hlog.symm.trans ?_
  simp only [TreeImage.walk, hroot, visitBelow, visitSiblings, visitEntry, Entry.isDirectory,
    beq_self_eq_true, if_true, halpha, hbeta, hinner]
  decide +kernel

end TreeImage.Walk
