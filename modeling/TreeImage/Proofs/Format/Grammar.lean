import TreeImage.Proofs.Format.Steps
import TreeImage.Proofs.Text.Path

namespace TreeImage.Format

theorem EntryKind.ofCode?_eq_some_iff {code : Nat} {kind : EntryKind} :
    ofCode? code = some kind ↔ code = kind.code ∨ code = kind.code + extendedOffset := by
  constructor
  · intro hkind
    unfold ofCode? at hkind
    split at hkind
    all_goals
      cases hkind
      try decide
  · rintro (rfl | rfl)
    · exact ofCode?_code kind
    · exact ofCode?_code_add kind

namespace Listing

theorem isEntryName_iff {name : String} :
    isEntryName name = true ↔ name ≠ "" ∧ '/' ∉ name.toList ∧ name ≠ "." ∧ name ≠ ".." := by
  simp [isEntryName, and_assoc]

theorem length_utf8_pos_iff {name : String} : 0 < (Text.utf8 name).length ↔ name ≠ "" := by
  rw [Text.length_utf8, Nat.pos_iff_ne_zero, ne_eq, String.utf8ByteSize_eq_zero_iff]

theorem toNat_signExtend (delta : UInt16) :
    delta.toInt16.toInt32.toUInt32.toNat =
      delta.toNat + if 32768 ≤ delta.toNat then 4294901760 else 0 := by
  have hbits : delta.toInt16.toInt32.toUInt32.toNat = (delta.toBitVec.signExtend 32).toNat := rfl
  have hdelta : delta.toBitVec.toNat = delta.toNat := rfl
  have hlt := delta.toNat_lt
  rw [hbits, BitVec.toNat_signExtend, BitVec.msb_eq_decide]
  simp only [BitVec.toNat_setWidth, hdelta]
  simp

theorem toInt_toInt16 (delta : UInt16) :
    delta.toInt16.toInt =
      if delta.toNat < 32768 then (delta.toNat : Int) else delta.toNat - 65536 := by
  have hbits : delta.toInt16.toInt = delta.toBitVec.toInt := rfl
  have hdelta : delta.toBitVec.toNat = delta.toNat := rfl
  rw [hbits, BitVec.toInt_eq_toNat_cond, hdelta]
  split
  all_goals
    split
    all_goals omega

theorem eq_atDistance_iff {base number : UInt32} {delta : UInt16} :
    number = atDistance base delta ↔
      (number.toNat : Int) = (base.toNat + delta.toInt16.toInt) % 0x100000000 := by
  have hbase := base.toNat_lt
  have hnumber := number.toNat_lt
  have hdelta := delta.toNat_lt
  rw [← UInt32.toNat_inj, atDistance, UInt32.toNat_add, toNat_signExtend, toInt_toInt16]
  split
  all_goals
    split
    all_goals omega

/-- Whether bytes spell an entry of a run with a block and a base number. -/
structure SpellsEntry (block base : UInt32) (data : Bytes) (entry : ListingEntry) : Prop where
  fields : ∃ delta code : UInt16,
    data = word16 entry.ref.offset ++ (word16 delta ++ (word16 code ++
      (littleEndian 2 ((Text.utf8 entry.name).length - 1) ++ Text.utf8 entry.name))) ∧
    (code.toNat = entry.kind.code ∨ code.toNat = entry.kind.code + EntryKind.extendedOffset) ∧
    (entry.inodeNumber.toNat : Int) = (base.toNat + delta.toInt16.toInt) % 0x100000000
  block_eq : entry.ref.block = block
  offset_lt : entry.ref.offset.toNat < metadataBlockSize
  length_pos : 0 < (Text.utf8 entry.name).length
  length_le : (Text.utf8 entry.name).length ≤ 2 ^ 16
  no_slash : '/' ∉ entry.name.toList
  ne_here : entry.name ≠ "."
  ne_up : entry.name ≠ ".."

theorem SpellsEntry.isEntryName {block base : UInt32} {data : Bytes} {entry : ListingEntry}
    (hspells : SpellsEntry block base data entry) : Listing.isEntryName entry.name = true :=
  isEntryName_iff.mpr ⟨length_utf8_pos_iff.mp hspells.length_pos, hspells.no_slash,
    hspells.ne_here, hspells.ne_up⟩

/-- A run of a listing: what its header says, and its entries with their bytes. -/
structure Run where
  block : UInt32
  base : UInt32
  items : List (Bytes × ListingEntry)

namespace Run

def entries (run : Run) : List ListingEntry := run.items.map Prod.snd

def bytes (run : Run) : Bytes :=
  littleEndian 4 (run.items.length - 1) ++
    (word32 run.block ++ (word32 run.base ++ run.items.flatMap Prod.fst))

structure IsValid (run : Run) : Prop where
  ne_nil : run.items ≠ []
  length_le : run.items.length ≤ maxRunLength
  spelled : ∀ item ∈ run.items, SpellsEntry run.block run.base item.1 item.2

theorem bytes_ne_nil (run : Run) : run.bytes ≠ [] := by
  intro hnil
  have hlength := congrArg List.length hnil
  simp [bytes] at hlength

end Run

/-- Whether bytes are a concatenation of runs with the given entries. -/
def Spells (data : Bytes) (entries : List ListingEntry) : Prop :=
  ∃ runs : List Run, (∀ run ∈ runs, run.IsValid) ∧ data = runs.flatMap Run.bytes ∧
    entries = runs.flatMap Run.entries

variable {block base : UInt32} {data rest : Bytes} {entry : ListingEntry}

theorem spells_of_decodeEntry (hdecode : decodeEntry block base data = .ok (entry, rest)) :
    ∃ front, data = front ++ rest ∧ SpellsEntry block base front entry := by
  simp only [decodeEntry, Decoder.bind_eq_ok, Decoder.u16_eq_ok, Decoder.bytes_eq_ok] at hdecode
  obtain ⟨offset, _, rfl, delta, _, rfl, code, _, rfl, last, _, rfl, spelled, left,
    ⟨rfl, hlength⟩, hentry⟩ := hdecode
  split at hentry
  · cases hentry
  · rename_i hoffset
    cases hkind : EntryKind.ofCode? code.toNat with
    | none =>
        rw [hkind] at hentry
        cases hentry
    | some kind =>
        rw [hkind] at hentry
        cases htext : Text.ofUtf8? spelled with
        | none =>
            rw [htext] at hentry
            cases hentry
        | some name =>
            rw [htext] at hentry
            obtain rfl := Text.ofUtf8?_eq_some_iff.mp htext
            cases hname : isEntryName name with
            | false =>
                simp only [hname, Bool.false_eq_true, if_false] at hentry
                cases hentry
            | true =>
                simp only [hname, if_true] at hentry
                cases hentry
                obtain ⟨hne, hslash, hhere, hup⟩ := isEntryName_iff.mp hname
                have hlast := last.toNat_lt
                refine ⟨word16 offset ++ (word16 delta ++ (word16 code ++ (word16 last ++
                  Text.utf8 name))), by simp only [List.append_assoc], ⟨delta, code, ?_,
                  EntryKind.ofCode?_eq_some_iff.mp hkind, eq_atDistance_iff.mp rfl⟩, rfl,
                  Nat.lt_of_not_le hoffset, length_utf8_pos_iff.mpr hne, ?_, hslash, hhere, hup⟩
                · rw [hlength, Nat.add_sub_cancel]
                  rfl
                · dsimp only
                  omega

theorem decodeEntry_of_spells {front : Bytes} (hspells : SpellsEntry block base front entry) :
    decodeEntry block base (front ++ rest) = .ok (entry, rest) := by
  have hname := hspells.isEntryName
  obtain ⟨⟨delta, code, rfl, hcode, hnumber⟩, rfl, hoffset, hpositive, hle, -⟩ := hspells
  have hlast : (UInt16.ofNat ((Text.utf8 entry.name).length - 1)).toNat =
      (Text.utf8 entry.name).length - 1 :=
    UInt16.toNat_ofNat_of_lt' (show _ < 2 ^ 16 by omega)
  have hword : littleEndian 2 ((Text.utf8 entry.name).length - 1) =
      word16 (UInt16.ofNat ((Text.utf8 entry.name).length - 1)) := by
    rw [word16, hlast]
  simp only [decodeEntry, Decoder.bind_eq_ok, Decoder.u16_eq_ok, Decoder.bytes_eq_ok,
    List.append_assoc, hword]
  refine ⟨_, _, rfl, delta, _, rfl, code, _, rfl, _, _, rfl, Text.utf8 entry.name, rest,
    ⟨rfl, by omega⟩, ?_⟩
  rw [if_neg (Nat.not_le_of_lt hoffset), EntryKind.ofCode?_eq_some_iff.mpr hcode,
    Text.ofUtf8?_utf8]
  simp only [hname, if_true, ← eq_atDistance_iff.mpr hnumber]
  rfl

theorem decodeEntry_eq_ok :
    decodeEntry block base data = .ok (entry, rest) ↔
      ∃ front, data = front ++ rest ∧ SpellsEntry block base front entry := by
  constructor
  · exact spells_of_decodeEntry
  · rintro ⟨front, rfl, hspells⟩
    exact decodeEntry_of_spells hspells

theorem decodeEntries_eq_ok {count : Nat} {done entries : List ListingEntry} :
    decodeEntries block base count done data = .ok (entries, rest) ↔
      ∃ items : List (Bytes × ListingEntry), items.length = count ∧
        (∀ item ∈ items, SpellsEntry block base item.1 item.2) ∧
        data = items.flatMap Prod.fst ++ rest ∧
        entries = (items.map Prod.snd).reverse ++ done := by
  induction count generalizing done data with
  | zero =>
      constructor
      · intro hdecode
        cases hdecode
        exact ⟨[], rfl, nofun, rfl, rfl⟩
      · rintro ⟨items, hlength, -, rfl, rfl⟩
        obtain rfl := List.length_eq_zero_iff.mp hlength
        rfl
  | succ count ih =>
      simp only [decodeEntries, Decoder.bind_eq_ok, decodeEntry_eq_ok, ih]
      constructor
      · rintro ⟨entry, _, ⟨front, rfl, hentry⟩, items, rfl, hitems, rfl, rfl⟩
        exact ⟨(front, entry) :: items, rfl, List.forall_mem_cons.mpr ⟨hentry, hitems⟩, by simp,
          by simp⟩
      · rintro ⟨items, hlength, hitems, rfl, rfl⟩
        cases items with
        | nil => cases hlength
        | cons item items =>
            obtain ⟨hentry, hitems⟩ := List.forall_mem_cons.mp hitems
            exact ⟨item.2, _, ⟨item.1, by simp only [List.flatMap_cons, List.append_assoc], hentry⟩,
              items, Nat.succ.inj hlength, hitems, rfl, by simp⟩

theorem decodeRun_eq_ok {done entries : List ListingEntry} :
    decodeRun done data = .ok (entries, rest) ↔
      ∃ run : Run, run.IsValid ∧ data = run.bytes ++ rest ∧
        entries = run.entries.reverse ++ done := by
  unfold decodeRun
  simp only [Decoder.bind_eq_ok, Decoder.u32_eq_ok]
  constructor
  · rintro ⟨last, _, rfl, block, _, rfl, base, _, rfl, hdecode⟩
    split at hdecode
    · cases hdecode
    · rename_i hcount
      obtain ⟨items, hlength, hitems, rfl, rfl⟩ := decodeEntries_eq_ok.mp hdecode
      refine ⟨⟨block, base, items⟩, ⟨?_, ?_, hitems⟩, ?_, rfl⟩
      · rintro rfl
        cases hlength
      · dsimp only
        omega
      · simp only [Run.bytes, hlength, Nat.add_sub_cancel, List.append_assoc]
        rfl
  · rintro ⟨⟨block, base, items⟩, ⟨hne, hle, hitems⟩, rfl, rfl⟩
    dsimp only at hne hle hitems
    have hpositive := List.length_pos_iff.mpr hne
    have hlast : (UInt32.ofNat (items.length - 1)).toNat = items.length - 1 :=
      UInt32.toNat_ofNat_of_lt' (show _ < 2 ^ 32 by unfold maxRunLength at hle; omega)
    have hword : littleEndian 4 (items.length - 1) = word32 (UInt32.ofNat (items.length - 1)) := by
      rw [word32, hlast]
    simp only [Run.bytes, hword, List.append_assoc]
    refine ⟨_, _, rfl, block, _, rfl, base, _, rfl, ?_⟩
    rw [if_neg (by omega)]
    exact decodeEntries_eq_ok.mpr ⟨items, by omega, hitems, rfl, rfl⟩

theorem decodeRuns_eq_ok {fuel : Nat} {done entries : List ListingEntry}
    (hfuel : data.length ≤ fuel) :
    decodeRuns fuel done data = .ok entries ↔
      ∃ runs : List Run, (∀ run ∈ runs, run.IsValid) ∧ data = runs.flatMap Run.bytes ∧
        entries = (runs.flatMap Run.entries).reverse ++ done := by
  have hends : ∀ {done : List ListingEntry}, (Except.ok done : Except Error _) = .ok entries ↔
      ∃ runs : List Run, (∀ run ∈ runs, run.IsValid) ∧ [] = runs.flatMap Run.bytes ∧
        entries = (runs.flatMap Run.entries).reverse ++ done := by
    intro done
    constructor
    · intro hdecode
      cases hdecode
      exact ⟨[], nofun, rfl, rfl⟩
    · rintro ⟨runs, -, hdata, rfl⟩
      cases runs with
      | nil => rfl
      | cons run runs => exact absurd (List.append_eq_nil_iff.mp hdata.symm).1 run.bytes_ne_nil
  -- a run takes a byte or more, so the fuel is never used up before the bytes
  induction fuel generalizing done data with
  | zero =>
      obtain rfl := List.length_eq_zero_iff.mp (Nat.le_zero.mp hfuel)
      exact hends
  | succ fuel ih =>
      rw [decodeRuns]
      by_cases hnil : data = []
      · rw [if_pos hnil, hnil]
        exact hends
      · rw [if_neg hnil, Except.bind_eq_ok]
        constructor
        · rintro ⟨⟨found, rest⟩, hrun, hdecode⟩
          obtain ⟨run, hvalid, rfl, rfl⟩ := decodeRun_eq_ok.mp hrun
          have hlength := List.length_pos_iff.mpr run.bytes_ne_nil
          rw [List.length_append] at hfuel
          obtain ⟨runs, hruns, rfl, rfl⟩ := (ih (by omega)).mp hdecode
          exact ⟨run :: runs, List.forall_mem_cons.mpr ⟨hvalid, hruns⟩, rfl, by simp⟩
        · rintro ⟨runs, hruns, rfl, rfl⟩
          cases runs with
          | nil => exact absurd rfl hnil
          | cons run runs =>
              obtain ⟨hvalid, hruns⟩ := List.forall_mem_cons.mp hruns
              have hlength := List.length_pos_iff.mpr run.bytes_ne_nil
              rw [List.flatMap_cons, List.length_append] at hfuel
              have hrest : (runs.flatMap Run.bytes).length ≤ fuel := by omega
              exact ⟨(_, _), decodeRun_eq_ok.mpr ⟨run, hvalid, rfl, rfl⟩,
                (ih hrest).mpr ⟨runs, hruns, rfl, by simp⟩⟩

theorem decode_eq_ok {entries : List ListingEntry} :
    decode data = .ok entries ↔ Spells data entries := by
  have hmap : decode data = .ok entries ↔
      decodeRuns data.length [] data = .ok entries.reverse := by
    unfold decode
    cases decodeRuns data.length [] data with
    | error error => exact iff_of_false nofun nofun
    | ok found => simp [Except.map, List.reverse_eq_iff]
  rw [hmap, decodeRuns_eq_ok (Nat.le_refl _)]
  simp [Spells]

/-- Only one run is at the front of a byte string. -/
theorem Run.IsValid.bytes_inj {run other : Run} (hrun : run.IsValid) (hother : other.IsValid)
    {rest more : Bytes} (hsame : run.bytes ++ rest = other.bytes ++ more) : rest = more := by
  have hfirst : decodeRun [] (run.bytes ++ rest) = .ok (run.entries.reverse ++ [], rest) :=
    decodeRun_eq_ok.mpr ⟨run, hrun, rfl, rfl⟩
  have hsecond : decodeRun [] (run.bytes ++ rest) = .ok (other.entries.reverse ++ [], more) :=
    decodeRun_eq_ok.mpr ⟨other, hother, hsame, rfl⟩
  exact (Prod.mk.inj (Except.ok.inj (hfirst.symm.trans hsecond))).2

theorem Run.IsValid.spells_rest {run : Run} (hrun : run.IsValid) {rest : Bytes}
    {entries : List ListingEntry} (hspells : Spells (run.bytes ++ rest) entries) :
    ∃ others, Spells rest others := by
  obtain ⟨runs, hruns, hdata, -⟩ := hspells
  cases runs with
  | nil => exact absurd (List.append_eq_nil_iff.mp hdata).1 run.bytes_ne_nil
  | cons first runs =>
      obtain ⟨hfirst, hruns⟩ := List.forall_mem_cons.mp hruns
      obtain rfl := hrun.bytes_inj hfirst hdata
      exact ⟨_, runs, hruns, rfl, rfl⟩

def IsTruncated (data : Bytes) : Prop :=
  ∃ (runs : List Run) (run : Run) (cut : Nat), (∀ other ∈ runs, other.IsValid) ∧ run.IsValid ∧
    0 < cut ∧ cut < run.bytes.length ∧ data = runs.flatMap Run.bytes ++ run.bytes.take cut

theorem IsTruncated.not_spells {data : Bytes} (htruncated : IsTruncated data) :
    ∀ entries, ¬Spells data entries := by
  obtain ⟨runs, run, cut, hruns, hrun, hpositive, hlt, rfl⟩ := htruncated
  induction runs with
  | nil =>
      rintro entries ⟨found, hfound, hdata, -⟩
      cases found with
      | nil =>
          have hlength := congrArg List.length hdata
          simp only [List.flatMap_nil, List.nil_append, List.length_take,
            List.length_nil] at hlength
          omega
      | cons first found =>
          -- the run that is cut off would have bytes left after its last one
          obtain ⟨hfirst, -⟩ := List.forall_mem_cons.mp hfound
          have hwhole : run.bytes ++ [] =
              first.bytes ++ (found.flatMap Run.bytes ++ run.bytes.drop cut) := by
            rw [List.append_nil, ← List.append_assoc, ← List.flatMap_cons, ← hdata]
            exact (List.take_append_drop cut run.bytes).symm
          have hnil := (List.append_eq_nil_iff.mp (hrun.bytes_inj hfirst hwhole).symm).2
          rw [List.drop_eq_nil_iff] at hnil
          omega
  | cons first runs ih =>
      intro entries hspells
      obtain ⟨hfirst, hruns⟩ := List.forall_mem_cons.mp hruns
      rw [List.flatMap_cons, List.append_assoc] at hspells
      obtain ⟨others, hothers⟩ := hfirst.spells_rest hspells
      exact ih hruns others hothers

theorem corruptTable_of_decode {error : Error} (hdecode : decode data = .error error) :
    ∃ damage, error = .corruptTable damage := by
  have hfault : error.IsFault := decode_faults data error hdecode
  have hreport : error.IsReport False := decode_reports data error hdecode
  cases error with
  | corruptTable damage => exact ⟨damage, rfl⟩
  | io cause => exact hreport.elim
  | trap cause => exact hreport.elim
  | _ => exact hfault.elim

/-- A listing is read exactly if its bytes are a concatenation of runs, and then as the entries of
these runs.  Other bytes are damage, and so is what ends inside a run. -/
theorem decode_exact (data : Bytes) :
    (∀ entries, decode data = .ok entries ↔ Spells data entries) ∧
      ((∃ entries, Spells data entries) ∨
        ∃ damage, decode data = .error (.corruptTable damage)) ∧
      (IsTruncated data → ∃ damage, decode data = .error (.corruptTable damage)) := by
  have hdamage : (∀ entries, ¬Spells data entries) →
      ∃ damage, decode data = .error (.corruptTable damage) := by
    intro hnone
    cases hdecode : decode data with
    | error error =>
        obtain ⟨damage, rfl⟩ := corruptTable_of_decode hdecode
        exact ⟨damage, rfl⟩
    | ok entries => exact absurd (decode_eq_ok.mp hdecode) (hnone entries)
  refine ⟨fun entries => decode_eq_ok, ?_, fun htruncated => hdamage htruncated.not_spells⟩
  by_cases hspells : ∃ entries, Spells data entries
  · exact .inl hspells
  · exact .inr (hdamage fun entries hentries => hspells ⟨entries, hentries⟩)

/-- A run of the file "ab" with inode number 8, which the header gives as one less than 9. -/
def runOfOne : Run :=
  ⟨7, 9, [([3, 0, 255, 255, 2, 0, 1, 0, 97, 98], ⟨"ab", .file, 8, ⟨7, 3⟩⟩)]⟩

theorem isValid_runOfOne : runOfOne.IsValid := by
  refine ⟨List.cons_ne_nil _ _, by decide, fun item hitem => ?_⟩
  obtain rfl := List.mem_singleton.mp hitem
  exact ⟨⟨65535, 2, by decide, .inl rfl, by decide⟩, rfl, by decide, by decide, by decide,
    by decide, by decide, by decide⟩

theorem decode_exact_runOfOne :
    decode runOfOne.bytes = .ok runOfOne.entries ∧
      ∃ damage, decode (runOfOne.bytes.take 21) = .error (.corruptTable damage) :=
  ⟨((decode_exact runOfOne.bytes).1 _).mpr ⟨[runOfOne],
      List.forall_mem_singleton.mpr isValid_runOfOne, by simp, by simp⟩,
    (decode_exact (runOfOne.bytes.take 21)).2.2 ⟨[], runOfOne, 21, nofun, isValid_runOfOne,
      by decide, by decide, rfl⟩⟩

end Listing

end TreeImage.Format
