import TreeImage.Image.Basic
import TreeImage.Proofs.Format.Listing

namespace TreeImage

open Format

namespace Image

variable {image : Image}

theorem readListing_eq_ok {body : DirectoryBody} {listing : List ListingEntry} :
    image.readListing body = .ok listing ↔
      body.fileSize.toNat = listingBias ∧ listing = [] ∨
        ∃ cursor data last, listingBias < body.fileSize.toNat ∧
          image.directoryTable.cursor ⟨body.startBlock, body.offset⟩ = .ok cursor ∧
          RecordSource.take (body.fileSize.toNat - listingBias) cursor = .ok (data, last) ∧
          Listing.decode data = .ok listing := by
  rcases Nat.lt_trichotomy body.fileSize.toNat listingBias with hsize | hsize | hsize
  · have hread : image.readListing body =
        .error (.corruptTable (.listingSize body.fileSize.toNat)) := by
      rw [readListing, if_pos hsize]
      rfl
    rw [hread]
    constructor
    · intro h
      cases h
    · rintro (⟨hequal, -⟩ | ⟨_, _, _, hlarge, -⟩)
      · omega
      · omega
  · have hread : image.readListing body = .ok [] := by
      rw [readListing, if_neg (by omega), if_pos hsize]
      rfl
    rw [hread]
    constructor
    · intro h
      exact Or.inl ⟨hsize, (Except.ok.inj h).symm⟩
    · rintro (⟨-, rfl⟩ | ⟨_, _, _, hlarge, -⟩)
      · rfl
      · omega
  · have hread : image.readListing body =
        (image.directoryTable.cursor ⟨body.startBlock, body.offset⟩ >>= fun cursor =>
          RecordSource.take (body.fileSize.toNat - listingBias) cursor >>= fun taken =>
            Listing.decode taken.1) := by
      rw [readListing, if_neg (by omega), if_neg (by omega), Trapping.sub_eq_ok (by omega)]
      rfl
    rw [hread]
    constructor
    · intro h
      obtain ⟨cursor, hcursor, h⟩ := Except.bind_eq_ok.mp h
      obtain ⟨⟨data, last⟩, htake, hdecode⟩ := Except.bind_eq_ok.mp h
      exact Or.inr ⟨cursor, data, last, hsize, hcursor, htake, hdecode⟩
    · rintro (⟨hequal, -⟩ | ⟨cursor, data, last, -, hcursor, htake, hdecode⟩)
      · omega
      · rw [hcursor, Except.ok_bind, htake]
        exact hdecode

theorem isEntryName_of_mem_readListing {body : DirectoryBody} {listing : List ListingEntry}
    (hlisting : image.readListing body = .ok listing) {entry : ListingEntry}
    (hmem : entry ∈ listing) : Listing.isEntryName entry.name = true := by
  rcases readListing_eq_ok.mp hlisting with ⟨-, rfl⟩ | ⟨_, data, _, -, -, -, hdecode⟩
  · cases hmem
  · exact Listing.isEntryName_of_mem_decode hdecode hmem

end Image

end TreeImage
