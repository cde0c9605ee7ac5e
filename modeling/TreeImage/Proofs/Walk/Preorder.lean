import Mathlib.Data.Set.Finite.Lattice
import Mathlib.Data.String.Basic
import TreeImage.Proofs.Walk.Depth

namespace TreeImage.Walk

def Entry.key (entry : Entry) : String := Text.lowercase entry.name

/-- Whether listed entries are ordered by their keys, those with one key as they were listed. -/
structure InNameOrder (listed ordered : List Entry) : Prop where
  pairwise : ordered.Pairwise fun first second => first.key ≤ second.key
  filter : ∀ key, (ordered.filter fun entry => entry.key = key) =
    listed.filter fun entry => entry.key = key

section Order

variable {listed ordered other : List Entry} {first entry : Entry}

theorem InNameOrder.mem_iff (horder : InNameOrder listed ordered) :
    entry ∈ ordered ↔ entry ∈ listed := by
  have hmem := congrArg (entry ∈ ·) (horder.filter entry.key)
  simpa using hmem

theorem InNameOrder.of_cons (horder : InNameOrder (first :: listed) (first :: ordered)) :
    InNameOrder listed ordered := by
  refine ⟨(List.pairwise_cons.mp horder.pairwise).2, fun key => ?_⟩
  have hfilter := horder.filter key
  rw [List.filter_cons, List.filter_cons] at hfilter
  split at hfilter
  · exact (List.cons.inj hfilter).2
  · exact hfilter

theorem key_le_of_mem (hpairwise : (first :: ordered).Pairwise fun one two => one.key ≤ two.key)
    (hmem : entry ∈ first :: ordered) : first.key ≤ entry.key := by
  rcases List.mem_cons.mp hmem with rfl | hmem
  · exact le_rfl
  · exact (List.pairwise_cons.mp hpairwise).1 entry hmem

theorem InNameOrder.eq_of_pairwise (horder : InNameOrder listed ordered)
    (hlisted : listed.Pairwise fun one two => one.key ≤ two.key) : ordered = listed := by
  induction ordered generalizing listed with
  | nil =>
      cases listed with
      | nil => rfl
      | cons first rest => cases horder.mem_iff.mpr List.mem_cons_self
  | cons first rest ih =>
      cases listed with
      | nil => cases horder.mem_iff.mp List.mem_cons_self
      | cons second further =>
          -- both begin with the first entry that has the least key
          have hkey : first.key = second.key :=
            le_antisymm (key_le_of_mem horder.pairwise (horder.mem_iff.mpr List.mem_cons_self))
              (key_le_of_mem hlisted (horder.mem_iff.mp List.mem_cons_self))
          have hfilter := horder.filter first.key
          rw [List.filter_cons_of_pos (by simp),
            List.filter_cons_of_pos (by simp [hkey])] at hfilter
          obtain rfl := (List.cons.inj hfilter).1
          rw [ih horder.of_cons (List.pairwise_cons.mp hlisted).2]

theorem InNameOrder.unique (horder : InNameOrder listed ordered)
    (hother : InNameOrder listed other) : ordered = other := by
  have hsame : InNameOrder other ordered :=
    ⟨horder.pairwise, fun key => (horder.filter key).trans (hother.filter key).symm⟩
  exact hsame.eq_of_pairwise hother.pairwise

theorem InNameOrder.of_perm (hperm : ordered.Perm listed)
    (hpairwise : ordered.Pairwise fun one two => one.key < two.key) :
    InNameOrder listed ordered := by
  refine ⟨hpairwise.imp fun hlt => hlt.le, fun key => ?_⟩
  have hfilter := hperm.filter fun entry => entry.key = key
  have hsingle : (ordered.filter fun entry => entry.key = key).Pairwise fun _ _ => False := by
    refine (hpairwise.filter _).imp_of_mem fun hone htwo hlt => ?_
    -- no two entries have one key
    simp only [List.mem_filter, decide_eq_true_eq] at hone htwo
    exact hlt.ne (hone.2.trans htwo.2.symm)
  exact hfilter.eq_of_pairwise (fun _ _ _ _ hfalse => hfalse.elim) hsingle
    (hsingle.perm hfilter id)

theorem filter_mergeSort {α : Type} {le : α → α → Bool}
    (htrans : ∀ one two three, le one two = true → le two three = true → le one three = true)
    (htotal : ∀ one two, (le one two || le two one) = true) (items : List α) {select : α → Bool}
    (hselect : ∀ one two, select one = true → select two = true → le one two = true) :
    (items.mergeSort le).filter select = items.filter select := by
  have hordered : (items.filter select).Pairwise fun one two => le one two = true :=
    List.pairwise_of_forall_mem_list fun one hone two htwo =>
      hselect one two (List.of_mem_filter hone) (List.of_mem_filter htwo)
  have hsublist : (items.filter select).Sublist (items.mergeSort le) :=
    List.sublist_mergeSort htrans htotal hordered List.filter_sublist
  -- both have the same items, so that a sublist is all
  have hfilter := hsublist.filter select
  rw [List.filter_filter] at hfilter
  simp only [Bool.and_self] at hfilter
  exact (hfilter.eq_of_length ((List.mergeSort_perm items le).filter select).length_eq.symm).symm

/-- The walk takes entries in the order of their keys. -/
theorem inNameOrder_sortEntries (entries : List Entry) :
    InNameOrder entries (sortEntries entries) := by
  have hle : ∀ one two : String × Entry,
      (compare one.1 two.1 != .gt) = true ↔ one.1 ≤ two.1 := fun one two => by
    rw [bne_iff_ne, compare_le_iff_le]
  have htrans : ∀ one two three : String × Entry, (compare one.1 two.1 != .gt) = true →
      (compare two.1 three.1 != .gt) = true → (compare one.1 three.1 != .gt) = true := by
    intro one two three hone htwo
    exact (hle one three).mpr (((hle one two).mp hone).trans ((hle two three).mp htwo))
  have htotal : ∀ one two : String × Entry,
      ((compare one.1 two.1 != .gt) || (compare two.1 one.1 != .gt)) = true := by
    intro one two
    rw [Bool.or_eq_true, hle, hle]
    exact le_total one.1 two.1
  have hkeyed : ∀ item ∈ entries.map fun entry => (entry.key, entry), item.1 = item.2.key := by
    rintro item hitem
    obtain ⟨entry, -, rfl⟩ := List.mem_map.mp hitem
    rfl
  constructor
  · refine List.pairwise_map.mpr ?_
    refine (List.pairwise_mergeSort htrans htotal _).imp_of_mem ?_
    intro one two hone htwo hordered
    rw [← hkeyed one (List.mem_mergeSort.mp hone), ← hkeyed two (List.mem_mergeSort.mp htwo)]
    exact (hle one two).mp hordered
  · intro key
    have hselect : ∀ one two : String × Entry, decide (one.1 = key) = true →
        decide (two.1 = key) = true → (compare one.1 two.1 != .gt) = true := by
      intro one two hone htwo
      exact (hle one two).mpr (by rw [of_decide_eq_true hone, of_decide_eq_true htwo])
    calc (sortEntries entries).filter (fun entry => entry.key = key)
        = (((entries.map fun entry => (entry.key, entry)).mergeSort fun one two =>
            compare one.1 two.1 != .gt).filter fun item => item.1 = key).map Prod.snd := by
          rw [sortEntries, List.filter_map]
          refine congrArg _ (List.filter_congr fun item hitem => ?_)
          rw [hkeyed item (List.mem_mergeSort.mp hitem)]
          rfl
      _ = ((entries.map fun entry => (entry.key, entry)).filter
            fun item => item.1 = key).map Prod.snd := by
          rw [filter_mergeSort htrans htotal _ hselect]
      _ = entries.filter fun entry => entry.key = key := by
          rw [List.filter_map, List.map_map]
          exact List.map_id _

end Order

/-- A visit and where it is in the tree: the numbers of the siblings on the way down to it. -/
structure Stop where
  place : List Nat
  visit : Visit

/-- Whether nothing is below an entry: it is no directory, or one that cannot be listed. -/
inductive IsBare (source : Source) (path : String) (entry : Entry) : Option Error → Prop
  | leaf (hleaf : entry.isDirectory = false) : IsBare source path entry none
  | unlisted {error : Error} (hdirectory : entry.isDirectory = true)
      (hlist : source path = .error error) : IsBare source path entry (some error)

/-- Whether stops are those at the entries of a directory, the first of which has a number, and
below them.  They are in pre-order. -/
inductive Below (source : Source) : List Nat → String → Nat → List Entry → List Stop → Prop
  | nil {place : List Nat} {path : String} {index : Nat} : Below source place path index [] []
  | bare {place : List Nat} {path : String} {index : Nat} {entry : Entry} {rest : List Entry}
      {failure : Option Error} {later : List Stop}
      (hbare : IsBare source (Text.joinPath path entry.name) entry failure)
      (hlater : Below source place path (index + 1) rest later) :
      Below source place path index (entry :: rest)
        (⟨place ++ [index], ⟨Text.joinPath path entry.name, some entry, failure⟩⟩ :: later)
  | directory {place : List Nat} {path : String} {index : Nat} {entry : Entry}
      {rest children ordered : List Entry} {contents later : List Stop}
      (hdirectory : entry.isDirectory = true)
      (hlist : source (Text.joinPath path entry.name) = .ok children)
      (horder : InNameOrder children ordered)
      (hcontents : Below source (place ++ [index]) (Text.joinPath path entry.name) 0 ordered
        contents)
      (hlater : Below source place path (index + 1) rest later) :
      Below source place path index (entry :: rest)
        (⟨place ++ [index], ⟨Text.joinPath path entry.name, some entry, none⟩⟩ ::
          (contents ++ later))

/-- Whether stops are all that a walk from a root could make, in pre-order.  The root is among them
only if it cannot be listed. -/
inductive IsPreorder (source : Source) (root : String) : List Stop → Prop
  | unlisted {error : Error} (hlist : source root = .error error) :
      IsPreorder source root [⟨[], ⟨root, none, some error⟩⟩]
  | listed {entries ordered : List Entry} {stops : List Stop} (hlist : source root = .ok entries)
      (horder : InNameOrder entries ordered) (hbelow : Below source [] root 0 ordered stops) :
      IsPreorder source root stops

variable {source : Source} {place : List Nat} {path root : String} {index depth : Nat}
  {entries : List Entry} {stops other : List Stop} {stop : Stop}

section Places

theorem place_lt_of_lt {later : Nat} (hlt : index < later) (front rest : List Nat) :
    place ++ index :: front < place ++ later :: rest :=
  List.append_left_lt (List.cons_lt_cons_iff.mpr (Or.inl hlt))

theorem place_lt_below (place : List Nat) (index : Nat) (rest : List Nat) :
    place < place ++ index :: rest := by
  simpa using List.append_left_lt (List.nil_lt_cons index rest)

theorem Below.exists_place (hbelow : Below source place path index entries stops)
    (hmem : stop ∈ stops) :
    ∃ number rest, index ≤ number ∧ stop.place = place ++ number :: rest := by
  induction hbelow with
  | nil => cases hmem
  | @bare place path index entry rest failure later hbare hlater ih =>
      rcases List.mem_cons.mp hmem with rfl | hmem
      · exact ⟨index, [], le_rfl, rfl⟩
      · obtain ⟨number, rest, hle, hplace⟩ := ih hmem
        exact ⟨number, rest, Nat.le_of_succ_le hle, hplace⟩
  | @directory place path index entry rest children ordered contents later hdirectory hlist horder
      hcontents hlater ihContents ih =>
      rcases List.mem_cons.mp hmem with rfl | hmem
      · exact ⟨index, [], le_rfl, rfl⟩
      · rcases List.mem_append.mp hmem with hmem | hmem
        · obtain ⟨number, rest, -, hplace⟩ := ihContents hmem
          exact ⟨index, number :: rest, le_rfl, by rw [hplace, List.append_assoc]; rfl⟩
        · obtain ⟨number, rest, hle, hplace⟩ := ih hmem
          exact ⟨number, rest, Nat.le_of_succ_le hle, hplace⟩

theorem Below.lt_of_later {front : List Nat}
    (hlater : Below source place path (index + 1) entries stops) (hmem : stop ∈ stops) :
    place ++ index :: front < stop.place := by
  obtain ⟨number, rest, hlt, hplace⟩ := hlater.exists_place hmem
  rw [hplace]
  exact place_lt_of_lt hlt front rest

theorem Below.lt_of_mem (hbelow : Below source place path index entries stops)
    (hmem : stop ∈ stops) : place < stop.place := by
  obtain ⟨number, rest, -, hplace⟩ := hbelow.exists_place hmem
  rw [hplace]
  exact place_lt_below place number rest

theorem Below.pairwise (hbelow : Below source place path index entries stops) :
    stops.Pairwise fun one two => one.place < two.place := by
  induction hbelow with
  | nil => exact .nil
  | bare hbare hlater ih => exact .cons (fun stop hmem => hlater.lt_of_later hmem) ih
  | @directory place path index entry rest children ordered contents later hdirectory hlist horder
      hcontents hlater ihContents ih =>
      refine .cons (fun stop hmem => ?_) (List.pairwise_append.mpr ⟨ihContents, ih, ?_⟩)
      · rcases List.mem_append.mp hmem with hmem | hmem
        · exact hcontents.lt_of_mem hmem
        · exact hlater.lt_of_later hmem
      · intro one hone two htwo
        obtain ⟨number, rest, -, hplace⟩ := hcontents.exists_place hone
        rw [hplace, List.append_assoc]
        exact hlater.lt_of_later htwo

end Places

theorem IsBare.unique {entry : Entry} {failure failure' : Option Error}
    (hbare : IsBare source path entry failure) (hother : IsBare source path entry failure') :
    failure = failure' := by
  cases hbare with
  | leaf hleaf =>
      cases hother with
      | leaf => rfl
      | unlisted hdirectory hlist => simp [hleaf] at hdirectory
  | unlisted hdirectory hlist =>
      cases hother with
      | leaf hleaf => simp [hleaf] at hdirectory
      | unlisted _ hlist' => rw [Except.error.inj (hlist.symm.trans hlist')]

theorem IsBare.not_listed {entry : Entry} {failure : Option Error} {children : List Entry}
    (hbare : IsBare source path entry failure) (hdirectory : entry.isDirectory = true) :
    source path ≠ .ok children := by
  cases hbare with
  | leaf hleaf => simp [hleaf] at hdirectory
  | unlisted _ hlist => simp [hlist]

theorem Below.unique (hbelow : Below source place path index entries stops)
    (hother : Below source place path index entries other) : stops = other := by
  induction hbelow generalizing other with
  | nil =>
      cases hother
      rfl
  | bare hbare hlater ih =>
      cases hother with
      | bare hbare' hlater' => rw [hbare.unique hbare', ih hlater']
      | directory hdirectory hlist => exact absurd hlist (hbare.not_listed hdirectory)
  | directory hdirectory hlist horder hcontents hlater ihContents ih =>
      cases hother with
      | bare hbare' hlater' => exact absurd hlist (hbare'.not_listed hdirectory)
      | directory _ hlist' horder' hcontents' hlater' =>
          obtain rfl := Except.ok.inj (hlist.symm.trans hlist')
          obtain rfl := horder.unique horder'
          rw [ihContents hcontents', ih hlater']

theorem exists_below_of_contents (hcontents : ∀ entry ∈ entries, ∀ number children,
      entry.isDirectory = true → source (Text.joinPath path entry.name) = .ok children →
        ∃ contents, Below source (place ++ [number]) (Text.joinPath path entry.name) 0
          (sortEntries children) contents) :
    ∃ stops, Below source place path index entries stops := by
  induction entries generalizing index with
  | nil => exact ⟨[], .nil⟩
  | cons entry rest ih =>
      obtain ⟨later, hlater⟩ : ∃ later, Below source place path (index + 1) rest later :=
        ih fun next hmem => hcontents next (List.mem_cons_of_mem _ hmem)
      by_cases hdirectory : entry.isDirectory = true
      · cases hlist : source (Text.joinPath path entry.name) with
        | error error => exact ⟨_, .bare (.unlisted hdirectory hlist) hlater⟩
        | ok children =>
            obtain ⟨contents, hbelow⟩ :=
              hcontents entry List.mem_cons_self index children hdirectory hlist
            exact ⟨_, .directory hdirectory hlist (inNameOrder_sortEntries children) hbelow hlater⟩
      · exact ⟨_, .bare (.leaf (Bool.eq_false_of_not_eq_true hdirectory)) hlater⟩

theorem IsShallow.exists_below (hlist : source path = .ok entries)
    (hshallow : IsShallow source depth path) :
    ∃ stops, Below source place path 0 (sortEntries entries) stops := by
  induction depth generalizing place path entries with
  | zero => exact absurd (hshallow [] (.here hlist)) (Nat.not_lt_zero _)
  | succ depth ih =>
      refine exists_below_of_contents fun entry hmem number children hdirectory hchildren => ?_
      exact ih hchildren (hshallow.down hlist (mem_sortEntries.mp hmem) hdirectory)

theorem IsShallow.exists_isPreorder (hshallow : IsShallow source depth root) :
    ∃ stops, IsPreorder source root stops := by
  cases hlist : source root with
  | error error => exact ⟨_, .unlisted hlist⟩
  | ok entries =>
      obtain ⟨stops, hbelow⟩ := hshallow.exists_below hlist
      exact ⟨stops, .listed hlist (inNameOrder_sortEntries entries) hbelow⟩

theorem IsPreorder.unique (hstops : IsPreorder source root stops)
    (hother : IsPreorder source root other) : stops = other := by
  cases hstops with
  | unlisted hlist =>
      cases hother with
      | unlisted hlist' => rw [Except.error.inj (hlist.symm.trans hlist')]
      | listed hlist' => simp [hlist] at hlist'
  | listed hlist horder hbelow =>
      cases hother with
      | unlisted hlist' => simp [hlist] at hlist'
      | listed hlist' horder' hbelow' =>
          obtain rfl := Except.ok.inj (hlist.symm.trans hlist')
          obtain rfl := horder.unique horder'
          exact hbelow.unique hbelow'

theorem IsPreorder.pairwise (hstops : IsPreorder source root stops) :
    stops.Pairwise fun one two => one.place < two.place := by
  cases hstops with
  | unlisted hlist => exact List.pairwise_singleton _ _
  | listed hlist horder hbelow => exact hbelow.pairwise

theorem exists_isShallow (hfinite : {names | Nests source root names}.Finite) :
    ∃ depth, IsShallow source depth root := by
  obtain ⟨bound, hbound⟩ := (hfinite.image List.length).bddAbove
  refine ⟨bound + 1, fun names hnests => ?_⟩
  exact Nat.lt_succ_of_le (hbound (Set.mem_image_of_mem List.length hnests))

end TreeImage.Walk
