import TreeImage.Proofs.Bytes.Buffer
import TreeImage.Proofs.Storage.Region

namespace TreeImage

namespace Region

/-- Whether a region stores these bytes at an offset, where 64 bits can name all of them. -/
structure Stores (region : Region) (offset : Nat) (bytes : Bytes) : Prop where
  isPrefix : bytes <+: region.storage.content.toList.drop (region.start + offset)
  end_lt : bytes ≠ [] → region.start + offset + bytes.length < addressSpace

variable {region : Region} {offset : Nat} {bytes front back : Bytes}

theorem Stores.left (hstores : region.Stores offset (front ++ back)) :
    region.Stores offset front := by
  refine ⟨(List.prefix_append front back).trans hstores.isPrefix, ?_⟩
  intro hne
  have hlt := hstores.end_lt fun hnil => hne (List.append_eq_nil_iff.mp hnil).1
  rw [List.length_append] at hlt
  omega

theorem Stores.right (hstores : region.Stores offset (front ++ back)) :
    region.Stores (offset + front.length) back := by
  constructor
  · obtain ⟨rest, hrest⟩ := hstores.isPrefix
    refine ⟨rest, ?_⟩
    rw [← Nat.add_assoc, ← List.drop_drop, ← hrest, List.append_assoc, List.drop_left]
  · intro hne
    have hlt := hstores.end_lt fun hnil => hne (List.append_eq_nil_iff.mp hnil).2
    rw [List.length_append] at hlt
    omega

/-- A window that is open at its end, of a storage that moves all it is asked to. -/
structure IsOpen (region : Region) : Prop where
  moves : ∀ address count, region.storage.grant address count = count
  declared : region.declared = none

/-- What is stored is read, in calls of any size, unless it passes the declared size. -/
theorem Stores.read_of_check (hstores : region.Stores offset bytes)
    (hmoves : region.storage.Moves) (hcheck : region.check offset bytes.length = .ok ()) :
    region.read offset bytes.length = .ok bytes := by
  by_cases hnil : bytes = []
  · subst hnil
    rw [Region.read, fetch, hcheck, Except.ok_bind, List.length_nil, Storage.gather, if_pos rfl]
    rfl
  · have hend := hstores.end_lt hnil
    have hpositive := List.length_pos_iff.mpr hnil
    have hheld := hstores.isPrefix.length_le
    have hsize : region.storage.content.toList.length = region.storage.size := Array.length_toList
    rw [List.length_drop, hsize] at hheld
    rw [read_eq_held hmoves (by omega) (by omega), hcheck]
    exact congrArg Except.ok (List.prefix_iff_eq_take.mp hstores.isPrefix).symm

theorem IsOpen.toMoves (hopen : region.IsOpen) : region.storage.Moves := by
  intro address count hcount
  rwa [hopen.moves]

theorem IsOpen.check_eq_ok (hopen : region.IsOpen) (offset count : Nat) :
    region.check offset count = .ok () := by
  rw [check, hopen.declared]

theorem Stores.read (hstores : region.Stores offset bytes) (hopen : region.IsOpen) :
    region.read offset bytes.length = .ok bytes :=
  hstores.read_of_check hopen.toMoves (hopen.check_eq_ok ..)

theorem Stores.of_getElem? {other : Region} (hstores : region.Stores offset bytes)
    (hstart : other.start = region.start)
    (hsame : ∀ i < bytes.length, region.start + offset + i < region.storage.content.size →
      other.storage.content.toList[region.start + offset + i]? =
        region.storage.content.toList[region.start + offset + i]?) :
    other.Stores offset bytes := by
  refine ⟨?_, by rw [hstart]; exact hstores.end_lt⟩
  rw [List.prefix_iff_getElem?, hstart]
  intro i hi
  have hfound := List.prefix_iff_getElem?.mp hstores.isPrefix i hi
  rw [List.getElem?_drop] at hfound ⊢
  have hinside := (List.getElem?_eq_some_iff.mp hfound).1
  rw [Array.length_toList] at hinside
  rw [hsame i hi hinside, hfound]

/-- Whether writes follow one another from an offset on, without gaps. -/
def Follows : (offset : Nat) → List (Nat × Bytes) → Prop
  | _, [] => True
  | offset, (place, bytes) :: writes =>
      place = offset ∧ Follows (offset + bytes.length) writes

/-- Whether writes put bytes down in one run from an offset on. -/
structure Lays (offset : Nat) (writes : List (Nat × Bytes)) (bytes : Bytes) : Prop where
  follows : Follows offset writes
  bytes_eq : writes.flatMap Prod.snd = bytes

theorem Lays.append {first second : List (Nat × Bytes)} (hfirst : Lays offset first front)
    (hsecond : Lays (offset + front.length) second back) :
    Lays offset (first ++ second) (front ++ back) := by
  obtain ⟨hfollows, rfl⟩ := hfirst
  obtain ⟨hnext, rfl⟩ := hsecond
  refine ⟨?_, List.flatMap_append⟩
  induction first generalizing offset with
  | nil => exact hnext
  | cons write writes ih =>
      refine ⟨hfollows.1, ih hfollows.2 ?_⟩
      rwa [List.flatMap_cons, List.length_append, ← Nat.add_assoc] at hnext

theorem lays_singleton (offset : Nat) (bytes : Bytes) : Lays offset [(offset, bytes)] bytes :=
  ⟨⟨rfl, trivial⟩, List.append_nil bytes⟩

theorem lays_nil (offset : Nat) : Lays offset [] [] := ⟨trivial, rfl⟩

end Region

end TreeImage
