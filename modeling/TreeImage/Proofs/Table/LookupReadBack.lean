import TreeImage.Proofs.Codec.FrameLimit
import TreeImage.Proofs.Storage.Stream
import TreeImage.Proofs.Table.Agreement
import TreeImage.Proofs.Table.Lookup

namespace TreeImage.Table.Lookup

open Format

variable {region : Region} {codec : Codec} {compress : Bool}
  {start count entrySize : Nat} {entries : Bytes}

theorem read_of_stores (hcodec : compress = true → codec.IsFaithful)
    (hmoves : region.storage.Moves)
    (hfits : region.Fits (start, (holding codec compress start entries).stored))
    (hstores : region.Stores start (holding codec compress start entries).stored)
    (hcount : entries.length = count * entrySize) (hspace : count * entrySize < addressSpace) :
    readIndex region (holding codec compress start entries).indexStart count entrySize
        (holding codec compress start entries).stop =
      .ok ((holding codec compress start entries).placed.map Prod.fst) ∧
    readEntries region codec ((holding codec compress start entries).placed.map Prod.fst)
        (holding codec compress start entries).indexStart count entrySize =
      .ok (blocksOf entrySize entries) := by
  have hstop : (holding codec compress start entries).stop = start + _ := stop_eq _
  constructor
  · refine readIndex_of_stores hmoves (Region.check_eq_ok.mpr ?_) hstores hcount hspace
      (Nat.le_refl _)
    intro size hsize
    exact Nat.le_trans (Nat.le_of_eq hstop) (hfits size hsize)
  -- an empty table stores no byte, so its place may lie past the end of the storage
  · by_cases hentries : entries = []
    · subst hentries
      rw [List.length_nil] at hcount
      rw [readEntries_eq_ok, ← hcount]
      exact ⟨by decide, #[], by simp [holding, placed, place, readBlocks], Nat.le_refl _,
        by rw [blocksOf_nil]; exact blocksOf_nil _⟩
    · have hagrees := hstores.agreesBelow_opened hmoves hfits (stored_ne_nil hentries)
      rw [← hstop] at hagrees
      rw [readEntries_of_agrees hagrees (Nat.le_add_right _ _)]
      exact readEntries_of_stores hcodec region.isOpen_opened hstores.opened hcount hspace

/-- A lookup table gives its entries back.  If there is room for it, it is written; once it is
written, the index that is read holds one position for each 8192 bytes of entries, and through it
come the entries.  The blocks follow one another from the start of the table, each at its position,
and the index follows them.  The codec matters only to a table that is compressed.  Beyond giving
back what it compressed, it is assumed to compress no block to nothing (`compress_ne_nil`), since no
reader takes a stored length of zero (`readBlock_of_compress_eq_nil`). -/
theorem entries_read_back (hcodec : compress = true → codec.IsFaithful)
    (hcount : entries.length = count * entrySize) (hspace : count * entrySize < addressSpace)
    (hmoves : region.storage.Moves) :
    let script := ofEntries codec compress start entries
    let lookup := holding codec compress start entries
    (region.start + start + lookup.stored.length < addressSpace →
      region.Fits (start, lookup.stored) →
      (∀ budget, region.storage.budget = some budget → lookup.stored.length ≤ budget) →
        ∃ last, script.run region = (.ok lookup, last)) ∧
    ∀ written last, script.run region = (.ok written, last) → written = lookup ∧
      last.Stores start lookup.stored ∧ lookup.stop = start + lookup.stored.length ∧
      Region.Lays start script.writes lookup.stored ∧
      ∃ positions found,
        script.writes.map Prod.fst = positions ++ [lookup.indexStart] ∧
        positions.length = (entries.length + 8191) / 8192 ∧ positions.Pairwise (· < ·) ∧
        (∀ first, positions.head? = some first → first = start) ∧
        (∀ limit, lookup.stop ≤ limit →
          readIndex last lookup.indexStart count entrySize limit = .ok positions) ∧
        readEntries last codec positions lookup.indexStart count entrySize = .ok found ∧
        found.flatten = entries := by
  intro script lookup
  have hscript : script = ⟨lookup.writes, .ok lookup⟩ :=
    ofEntries_eq (fun hcompress => (hcodec hcompress).compresses) start entries
  have hlays : Region.Lays start lookup.writes lookup.stored := lays_writes lookup
  have hne : lookup.writes ≠ [] := by simp [writes]
  constructor
  · intro hroom hfits hbudget
    obtain ⟨put, last, -, -, ⟨hrun, -⟩ | ⟨-, hpast | ⟨hspent, hshort⟩⟩⟩ :=
      hlays.write_cases hne hmoves fun _ => hroom
    · rw [hscript]
      exact ⟨last, Script.run_of_ok hrun⟩
    · exact absurd hfits hpast
    · exact absurd (hbudget put hspent) (Nat.not_le_of_lt hshort)
  · intro written last hrun
    rw [hscript] at hrun ⊢
    obtain ⟨hwritten, hwrites⟩ := Script.run_eq_ok.mp hrun
    obtain rfl := Except.ok.inj hwritten
    obtain ⟨hfits, hput, hstores⟩ := hlays.stores_of_run hne hmoves hwrites
    obtain ⟨hindex, hfound⟩ := read_of_stores hcodec (hput.moves hmoves)
      ((hput.fits_iff _).mpr hfits) hstores hcount hspace
    refine ⟨rfl, hstores, stop_eq lookup, hlays, _, _, ?_, ?_, ?_, fun _ => head?_placed,
      fun limit hlimit => readIndex_mono hlimit hindex, hfound, ?_⟩
    · dsimp only
      rw [writes, List.map_append]
      rfl
    · rw [List.length_map, placed, length_place, length_blocks_holding]
      rfl
    · exact pairwise_place (fun block hmem => ne_nil_of_mem_blocks hmem) _
    · by_cases hsize : entrySize = 0
      · rw [hsize, Nat.mul_zero, List.length_eq_zero_iff] at hcount
        rw [hcount, blocksOf_nil, List.flatten_nil]
      · exact flatten_blocksOf hsize entries

/-- The table of one entry more than a block holds, a few bytes after the start of a storage. -/
def twoBlocks : Lookup := holding Codecs.machine.gzip true 5 (List.replicate 8196 7)

theorem entries_read_back_twoBlocks :
    ∃ last, (ofEntries Codecs.machine.gzip true 5 (List.replicate 8196 7)).run
        ⟨Storage.ofBytes [], 0, none⟩ = (.ok twoBlocks, last) ∧
      ∃ positions found, positions.length = 2 ∧ positions.head? = some 5 ∧
        readIndex last twoBlocks.indexStart 2049 4 addressSpace = .ok positions ∧
        readEntries last Codecs.machine.gzip positions twoBlocks.indexStart 2049 4 = .ok found ∧
        found.flatten = List.replicate 8196 7 := by
  have hcodec : Codecs.machine.gzip.IsFaithful := Codec.isFaithful_machine .gzip _ rfl
  have hlength : (List.replicate 8196 (7 : UInt8)).length = 8196 := List.length_replicate
  have hstored := length_stored_le Codecs.machine.gzip true 5 (List.replicate 8196 7)
  have hstop : twoBlocks.stop = 5 + twoBlocks.stored.length := stop_eq twoBlocks
  change twoBlocks.stored.length ≤ _ at hstored
  rw [hlength] at hstored
  have hroom : 0 + 5 + twoBlocks.stored.length < addressSpace := by
    unfold addressSpace
    omega
  obtain ⟨hwritten, hread⟩ := @entries_read_back ⟨Storage.ofBytes [], 0, none⟩
    Codecs.machine.gzip true 5 2049 4 (List.replicate 8196 7) (fun _ => hcodec) hlength (by decide)
    (fun _ _ hcount => hcount)
  obtain ⟨last, hrun⟩ := hwritten hroom (by nofun) (by nofun)
  obtain ⟨-, -, -, -, positions, found, -, htwo, -, hfirst, hindex, hfound, hentries⟩ :=
    hread _ last hrun
  rw [hlength] at htwo
  refine ⟨last, hrun, positions, found, htwo, ?_,
    hindex addressSpace (show twoBlocks.stop ≤ _ by omega), hfound, hentries⟩
  obtain ⟨first, others, rfl⟩ := List.exists_cons_of_length_eq_add_one htwo
  rw [hfirst first rfl]
  rfl

end TreeImage.Table.Lookup
