import TreeImage.Proofs.Format.Grammar
import TreeImage.Proofs.Text.Path

namespace TreeImage.Format

/-- Whether the format can hold an entry: its name can be an entry's and has a length that fits its
field, and its inode starts inside a metadata block. -/
structure ListingEntry.IsStorable (entry : ListingEntry) : Prop where
  name_valid : Listing.isEntryName entry.name = true
  name_length : (Text.utf8 entry.name).length ≤ 65535
  offset_lt : entry.ref.offset.toNat < metadataBlockSize

namespace Listing

theorem segments_of_isEntryName {name : String} (hname : isEntryName name = true) :
    Text.segments name = [name] := by
  simp only [isEntryName, Bool.and_eq_true, bne_iff_ne, Bool.not_eq_true', List.contains_eq_mem,
    decide_eq_false_iff_not] at hname
  obtain ⟨⟨⟨hempty, hslash⟩, hdot⟩, -⟩ := hname
  exact Text.segments_of_name hslash hempty hdot

theorem ne_up_of_isEntryName {name : String} (hname : isEntryName name = true) : name ≠ ".." := by
  rintro rfl
  simp [isEntryName] at hname

theorem isEntryName_of_mem_decode {data : Bytes} {entries : List ListingEntry}
    (hdecode : decode data = .ok entries) {entry : ListingEntry} (hmem : entry ∈ entries) :
    isEntryName entry.name = true := by
  obtain ⟨runs, hruns, -, rfl⟩ := decode_eq_ok.mp hdecode
  obtain ⟨run, hrun, hmem⟩ := List.mem_flatMap.mp hmem
  obtain ⟨item, hitem, rfl⟩ := List.mem_map.mp hmem
  exact ((hruns run hrun).spelled item hitem).isEntryName

theorem toInt_sub {base number : UInt32} (hlow : -0x8000 ≤ distance base number)
    (hhigh : distance base number ≤ 0x7fff) :
    (number.toNat : Int) = (base.toNat + (number - base).toUInt16.toInt16.toInt) % 0x100000000 := by
  have hbase := base.toNat_lt
  have hnumber := number.toNat_lt
  unfold distance at hlow hhigh
  rw [toInt_toInt16, UInt32.toNat_toUInt16, UInt32.toNat_sub]
  split
  all_goals omega

theorem spells_encodeEntry {base : UInt32} {entry : ListingEntry} (hentry : entry.IsStorable)
    (hlow : -0x8000 ≤ distance base entry.inodeNumber)
    (hhigh : distance base entry.inodeNumber ≤ 0x7fff) :
    SpellsEntry entry.ref.block base (encodeEntry base entry) entry := by
  obtain ⟨hname, hlength, hoffset⟩ := hentry
  obtain ⟨hne, hslash, hhere, hup⟩ := isEntryName_iff.mp hname
  have hpositive := length_utf8_pos_iff.mpr hne
  have hcode : (UInt16.ofNat entry.kind.code).toNat = entry.kind.code := by
    cases entry.kind <;> rfl
  have hlast : (UInt16.ofNat (Text.utf8 entry.name).length - 1).toNat =
      (Text.utf8 entry.name).length - 1 := by
    rw [UInt16.toNat_sub, UInt16.toNat_ofNat']
    simp only [UInt16.reduceToNat]
    omega
  refine ⟨⟨(entry.inodeNumber - base).toUInt16, UInt16.ofNat entry.kind.code, ?_, .inl hcode,
    toInt_sub hlow hhigh⟩, rfl, hoffset, hpositive, by omega, hslash, hhere, hup⟩
  simp only [encodeEntry, word16, hcode, hlast, List.append_assoc]

theorem fitsRun_of_mem_runTail {first entry : ListingEntry} {rest : List ListingEntry}
    (hmem : entry ∈ runTail first rest) : fitsRun first entry = true :=
  List.all_eq_true.mp List.all_takeWhile entry hmem

theorem length_runTail_lt (first : ListingEntry) (rest : List ListingEntry) :
    (runTail first rest).length < maxRunLength := by
  have hwhile := (List.takeWhile_sublist (fitsRun first)
    (l := rest.take (maxRunLength - 1))).length_le
  have htake := List.length_take_le (maxRunLength - 1) rest
  unfold runTail maxRunLength at *
  omega

theorem runTail_append_drop (first : ListingEntry) (rest : List ListingEntry) :
    runTail first rest ++ rest.drop (runTail first rest).length = rest :=
  List.prefix_iff_eq_append.mp ((List.takeWhile_prefix _).trans (List.take_prefix _ _))

theorem length_encodeRun_pos (run : ListingEntry × List ListingEntry) :
    12 ≤ (encodeRun run).length := by
  simp only [encodeRun, List.length_append, length_littleEndian, length_word32]
  omega

@[simp] theorem encode_nil : encode [] = [] := by
  rw [encode, runs, List.flatMap_nil]

theorem encode_ne_nil {entries : List ListingEntry} (hne : entries ≠ []) : encode entries ≠ [] := by
  obtain ⟨first, rest, rfl⟩ := List.exists_cons_of_ne_nil hne
  intro hnil
  rw [encode, runs, List.flatMap_cons] at hnil
  have hlength := length_encodeRun_pos (first, runTail first rest)
  rw [(List.append_eq_nil_iff.mp hnil).1] at hlength
  cases hlength

theorem encode_cons (first : ListingEntry) (rest : List ListingEntry) :
    encode (first :: rest) = encodeRun (first, runTail first rest) ++
      encode (rest.drop (runTail first rest).length) := by
  rw [encode, runs, List.flatMap_cons]
  rfl

theorem length_encodeEntry (base : UInt32) (entry : ListingEntry) :
    (encodeEntry base entry).length = 8 + (Text.utf8 entry.name).length := by
  simp only [encodeEntry, List.length_append, length_word16, length_littleEndian]

/-- A listing is no longer than its entries would be in runs of their own. -/
theorem length_encode_le (entries : List ListingEntry) :
    (encode entries).length ≤
      (entries.map fun entry => 20 + (Text.utf8 entry.name).length).sum := by
  induction entries using runs.induct with
  | case1 => simp
  | case2 first rest ih =>
      have htail : ∀ (base : UInt32) (run : List ListingEntry),
          (run.flatMap (encodeEntry base)).length ≤
            (run.map fun entry => 20 + (Text.utf8 entry.name).length).sum := by
        intro base run
        induction run with
        | nil => exact Nat.le_refl 0
        | cons entry run ih =>
            rw [List.flatMap_cons, List.length_append, length_encodeEntry, List.map_cons,
              List.sum_cons]
            omega
      have hrun := htail first.inodeNumber (runTail first rest)
      rw [encode_cons, List.length_append, List.map_cons, List.sum_cons]
      conv => rhs; rw [← runTail_append_drop first rest]
      rw [List.map_append, List.sum_append, encodeRun]
      simp only [List.length_append, length_littleEndian, length_word32, List.flatMap_cons,
        length_encodeEntry]
      omega

/-- A listing is at least as long as its entries are without the headers of runs. -/
theorem le_length_encode (entries : List ListingEntry) :
    (entries.map fun entry => 8 + (Text.utf8 entry.name).length).sum ≤ (encode entries).length := by
  induction entries using runs.induct with
  | case1 => simp
  | case2 first rest ih =>
      have htail : ((runTail first rest).flatMap (encodeEntry first.inodeNumber)).length =
          ((runTail first rest).map fun entry => 8 + (Text.utf8 entry.name).length).sum := by
        rw [List.length_flatMap]
        exact congrArg List.sum (List.map_congr_left fun entry _ => length_encodeEntry _ entry)
      rw [encode_cons, List.length_append, List.map_cons, List.sum_cons]
      conv => lhs; rw [← runTail_append_drop first rest]
      rw [List.map_append, List.sum_append, encodeRun]
      simp only [List.length_append, length_littleEndian, length_word32, List.flatMap_cons,
        length_encodeEntry, htail]
      omega

/-- What the grammar says of entries that are written as one run. -/
def runOf (run : ListingEntry × List ListingEntry) : Run :=
  ⟨run.1.ref.block, run.1.inodeNumber,
    (run.1 :: run.2).map fun entry => (encodeEntry run.1.inodeNumber entry, entry)⟩

@[simp] theorem bytes_runOf (run : ListingEntry × List ListingEntry) :
    (runOf run).bytes = encodeRun run := by
  simp [runOf, Run.bytes, encodeRun, List.flatMap_map]

@[simp] theorem entries_runOf (run : ListingEntry × List ListingEntry) :
    (runOf run).entries = run.1 :: run.2 := by
  simp [runOf, Run.entries, Function.comp_def]

theorem flatMap_runs (entries : List ListingEntry) :
    (runs entries).flatMap (fun run => run.1 :: run.2) = entries := by
  induction entries using runs.induct with
  | case1 => rw [runs, List.flatMap_nil]
  | case2 first rest ih => rw [runs, List.flatMap_cons, ih, List.cons_append, runTail_append_drop]

theorem close_of_mem_runs {entries : List ListingEntry} {run : ListingEntry × List ListingEntry}
    (hrun : run ∈ runs entries) :
    run.2.length < maxRunLength ∧ ∀ entry ∈ run.1 :: run.2, fitsRun run.1 entry = true := by
  induction entries using runs.induct with
  | case1 =>
      rw [runs] at hrun
      cases hrun
  | case2 first rest ih =>
      rw [runs] at hrun
      rcases List.mem_cons.mp hrun with rfl | hrun
      · refine ⟨length_runTail_lt first rest, List.forall_mem_cons.mpr ⟨?_, fun entry =>
          fitsRun_of_mem_runTail⟩⟩
        simp [fitsRun, distance]
      · exact ih hrun

theorem fitsRun_iff {first entry : ListingEntry} :
    fitsRun first entry = true ↔ entry.ref.block = first.ref.block ∧
      -0x8000 ≤ distance first.inodeNumber entry.inodeNumber ∧
      distance first.inodeNumber entry.inodeNumber ≤ 0x7fff := by
  simp [fitsRun, and_assoc]

theorem isValid_runOf {entries : List ListingEntry} {run : ListingEntry × List ListingEntry}
    (hentries : ∀ entry ∈ entries, entry.IsStorable) (hrun : run ∈ runs entries) :
    (runOf run).IsValid := by
  obtain ⟨hlength, hclose⟩ := close_of_mem_runs hrun
  have hcount : (runOf run).items.length = run.2.length + 1 := List.length_map _
  refine ⟨List.cons_ne_nil _ _, hcount ▸ hlength, fun item hitem => ?_⟩
  obtain ⟨entry, hmem, rfl⟩ := List.mem_map.mp hitem
  obtain ⟨hblock, hlow, hhigh⟩ := fitsRun_iff.mp (hclose entry hmem)
  have hstorable := hentries entry (by
    rw [← flatMap_runs entries]
    exact List.mem_flatMap.mpr ⟨run, hrun, hmem⟩)
  have hspells := spells_encodeEntry hstorable hlow hhigh
  rwa [hblock] at hspells

theorem encode_eq_flatMap (entries : List ListingEntry) :
    encode entries = ((runs entries).map runOf).flatMap Run.bytes := by
  simp [encode, List.flatMap_map]

theorem eq_flatMap_runOf (entries : List ListingEntry) :
    entries = ((runs entries).map runOf).flatMap Run.entries := by
  simp [List.flatMap_map, flatMap_runs]

theorem decode_encode_of_storable {entries : List ListingEntry}
    (hentries : ∀ entry ∈ entries, entry.IsStorable) :
    decode (encode entries) = .ok entries := by
  refine decode_eq_ok.mpr ⟨(runs entries).map runOf, ?_, encode_eq_flatMap entries,
    eq_flatMap_runOf entries⟩
  rintro _ hmem
  obtain ⟨run, hrun, rfl⟩ := List.mem_map.mp hmem
  exact isValid_runOf hentries hrun

/-- What is written for entries is a sequence of runs of at most 256 entries each, which share a
metadata block and have numbers near the one in the header, and it gives the entries back. -/
theorem encode_in_runs (entries : List ListingEntry)
    (hentries : ∀ entry ∈ entries, entry.IsStorable) :
    decode (encode entries) = .ok entries ∧
      ∃ parts : List Run, encode entries = parts.flatMap Run.bytes ∧
        entries = parts.flatMap Run.entries ∧
        ∀ run ∈ parts, run.IsValid ∧ 1 ≤ run.entries.length ∧ run.entries.length ≤ 256 ∧
          ∀ entry ∈ run.entries, entry.ref.block = run.block ∧
            -0x8000 ≤ (entry.inodeNumber.toNat : Int) - run.base.toNat ∧
            (entry.inodeNumber.toNat : Int) - run.base.toNat ≤ 0x7fff := by
  refine ⟨decode_encode_of_storable hentries, (runs entries).map runOf, encode_eq_flatMap entries,
    eq_flatMap_runOf entries, ?_⟩
  rintro _ hmem
  obtain ⟨run, hrun, rfl⟩ := List.mem_map.mp hmem
  obtain ⟨hlength, hclose⟩ := close_of_mem_runs hrun
  rw [entries_runOf]
  exact ⟨isValid_runOf hentries hrun, Nat.succ_pos _, hlength, fun entry hmem =>
    fitsRun_iff.mp (hclose entry hmem)⟩

/-- The first two entries are as far apart as a run allows, and the third is in another block. -/
theorem encode_in_runs_far :
    let entries : List ListingEntry :=
      [⟨"b", .directory, 0, ⟨0, 8191⟩⟩, ⟨"a", .socket, 32767, ⟨0, 0⟩⟩, ⟨"c", .file, 0, ⟨1, 0⟩⟩]
    (∀ entry ∈ entries, entry.IsStorable) ∧ decode (encode entries) = .ok entries := by
  intro entries
  have hentries : ∀ entry ∈ entries, entry.IsStorable := by
    simp only [entries, List.forall_mem_cons]
    refine ⟨⟨?_, ?_, ?_⟩, ⟨?_, ?_, ?_⟩, ⟨?_, ?_, ?_⟩, nofun⟩
    all_goals decide
  exact ⟨hentries, (encode_in_runs entries hentries).1⟩

end Listing

end TreeImage.Format
