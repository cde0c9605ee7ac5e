import TreeImage.Proofs.Codec.Basic
import TreeImage.Proofs.Codec.BoundedInflate
import TreeImage.Proofs.Codec.Zlib

/-!
The limit on the data of a frame.  What a frame holds does not depend on a limit, and a library
that decodes it as a stream gives it piece by piece.  Asking for one byte more than a limit allows
tells a frame that ends at the limit from a longer one, so that the limit accepts the data or
rejects them by their length.
-/

namespace TreeImage.Codec

namespace Zlib

/-- Whether a library gives data in order and up to their end, where `leaves` says what is left of
the data of a frame.  A frame that is damaged has no data, and no end either: it is reported, at the
latest after all bytes that are given of it. -/
structure Library.Delivers (library : Library) (leaves : library.Decoding → Bytes → Prop) :
    Prop where
  sound : ∀ {decoding data room}, leaves decoding data → 0 < room → ∃ piece next,
    library.read room decoding = .ok (piece, next) ∧
      ∃ rest, data = piece ++ rest ∧ leaves next rest ∧ (piece.val = [] → rest = [])
  damaged : ∀ {decoding room piece next}, (∀ data, ¬leaves decoding data) → 0 < room →
    library.read room decoding = .ok (piece, next) → piece.val ≠ [] ∧ ∀ data, ¬leaves next data

/-- Whether a library decodes frames as streams of the data that they hold. -/
def Library.Streams (library : Library) (holds : (frame data : Bytes) → Prop) : Prop :=
  ∃ leaves, library.Delivers leaves ∧
    ∀ frame data, leaves (library.start frame) data ↔ holds frame data

section Stream

variable {library : Library} {leaves : library.Decoding → Bytes → Prop}

/-- A whole frame is read to its end or as far as is asked for. -/
theorem Library.Delivers.readToEnd_eq (hdelivers : library.Delivers leaves)
    (capacity left : Nat) {decoding : library.Decoding} {data : Bytes}
    (hleaves : leaves decoding data) (got : Buffer) :
    library.readToEnd capacity left decoding got = .ok (got.pushAll (data.take left)) := by
  induction left using Nat.strongRecOn generalizing decoding data got with
  | _ left ih =>
      rw [Library.readToEnd]
      by_cases hzero : left = 0
      · rw [if_pos hzero, hzero]
        rfl
      · have hroom : 0 < min left (library.room capacity got.size) :=
          Nat.lt_min.mpr ⟨Nat.pos_of_ne_zero hzero, library.room_pos ..⟩
        obtain ⟨⟨piece, hpiece⟩, next, hnext, rest, rfl, hrest, hend⟩ :=
          hdelivers.sound hleaves hroom
        dsimp only at hend ⊢
        rw [if_neg hzero, hnext]
        dsimp only
        by_cases hnil : piece = []
        · rw [if_pos hnil, hend hnil, hnil, List.nil_append, List.take_nil]
          rfl
        · have hpositive := List.length_pos_iff.mpr hnil
          have hfits : piece.length ≤ left := Nat.le_trans hpiece (Nat.min_le_left ..)
          rw [if_neg hnil, ih (left - piece.length) (by omega) hrest, List.take_append,
            List.take_of_length_le hfits]
          congr 1
          apply Array.toList_inj.mp
          simp only [Buffer.toList_pushAll, List.append_assoc]

theorem Library.Delivers.size_of_readToEnd (hdelivers : library.Delivers leaves)
    {capacity left : Nat} {decoding : library.Decoding} {got last : Buffer}
    (hdamaged : ∀ data, ¬leaves decoding data)
    (hlast : library.readToEnd capacity left decoding got = .ok last) :
    last.size = got.size + left := by
  induction left using Nat.strongRecOn generalizing decoding got with
  | _ left ih =>
      rw [Library.readToEnd] at hlast
      split at hlast
      · rename_i hzero
        cases hlast
        omega
      · rename_i hzero
        have hroom : 0 < min left (library.room capacity got.size) :=
          Nat.lt_min.mpr ⟨Nat.pos_of_ne_zero hzero, library.room_pos ..⟩
        split at hlast
        · cases hlast
        · rename_i piece hpiece next hnext
          obtain ⟨hsome, hstill⟩ := hdelivers.damaged hdamaged hroom hnext
          dsimp only at hsome
          have hpositive := List.length_pos_iff.mpr hsome
          rw [if_neg hsome] at hlast
          have hsize := ih (left - piece.length) (by omega) hstill hlast
          rw [hsize, ← Array.length_toList, Buffer.toList_pushAll, List.length_append,
            Array.length_toList]
          omega

end Stream

end Zlib

/-- How a codec treats a limit on the data of a frame. -/
structure ChecksLimit (codec : Codec) (frame : Bytes) (holds : (data : Bytes) → Prop) : Prop where
  /-- Under every limit the whole frame is read, to its end and its checksum, and the data that it
  holds are given if they are not longer. -/
  whole : ∀ limit data, limit ≤ maxCapacity →
    (codec.decompress frame limit = .ok data ↔ holds data ∧ data.length ≤ limit)
  /-- Data given under one limit are given under every limit that leaves room for them. -/
  accepts : ∀ limit data, codec.decompress frame limit = .ok data →
    ∀ other, data.length ≤ other → other ≤ maxCapacity → codec.decompress frame other = .ok data
  /-- They are rejected under every other limit. -/
  rejects : ∀ limit data, codec.decompress frame limit = .ok data →
    ∀ other, other < data.length →
      codec.decompress frame other = .error (.corruptTable (.pastLimit other))
  /-- A frame that is not read is a defect of a table, whatever is wrong with it. -/
  corrupt : ∀ limit error, limit ≤ maxCapacity → codec.decompress frame limit = .error error →
    ∃ damage, error = .corruptTable damage

theorem gzip_decompress_of_streams {library : Zlib.Library} {holds : (frame data : Bytes) → Prop}
    (hstreams : library.Streams holds) (level : Nat) {frame data : Bytes}
    (hholds : holds frame data) {limit : Nat} (hlimit : limit ≤ maxCapacity) :
    (gzip library level).decompress frame limit =
      if data.length ≤ limit then .ok data else .error (.corruptTable (.pastLimit limit)) := by
  obtain ⟨leaves, hdelivers, hstart⟩ := hstreams
  have hend := hdelivers.readToEnd_eq limit (limit + 1) ((hstart frame data).mpr hholds) #[]
  have htaken : (Buffer.pushAll #[] (data.take (limit + 1))).toList = data.take (limit + 1) := by
    rw [Buffer.toList_pushAll]
    rfl
  have hsize : (Buffer.pushAll #[] (data.take (limit + 1))).size = min (limit + 1) data.length := by
    rw [← Array.length_toList, htaken, List.length_take]
  unfold gzip
  dsimp only
  rw [if_neg (Nat.not_lt_of_le hlimit), hend, Except.mapError_ok, Except.ok_bind, hsize, htaken]
  by_cases hfits : data.length ≤ limit
  · rw [if_pos hfits, if_neg (by omega), List.take_of_length_le (by omega)]
    rfl
  · rw [if_neg hfits, if_pos (by omega)]
    rfl

theorem holds_of_gzip_decompress {library : Zlib.Library} {holds : (frame data : Bytes) → Prop}
    (hstreams : library.Streams holds) {level limit : Nat} {frame data : Bytes}
    (hdecompress : (gzip library level).decompress frame limit = .ok data) : holds frame data := by
  obtain ⟨hlimit, got, hgot, hfits, -⟩ := gzip_decompress_eq_ok.mp hdecompress
  by_cases hdamaged : ∀ other, ¬holds frame other
  · obtain ⟨leaves, hdelivers, hstart⟩ := hstreams
    have hsize := hdelivers.size_of_readToEnd
      (fun other hother => hdamaged other ((hstart frame other).mp hother)) hgot
    simp only [Array.size_empty] at hsize
    omega
  · obtain ⟨other, hother⟩ := not_forall_not.mp hdamaged
    rw [gzip_decompress_of_streams hstreams level hother hlimit] at hdecompress
    split at hdecompress
    · exact Except.ok.inj hdecompress ▸ hother
    · cases hdecompress

namespace Zlib

/-- A frame holds what its stream says, if its header is right and the checksum of the data comes
after the stream.  More bytes may follow. -/
inductive Holds : (frame data : Bytes) → Prop
  | intro {method flags : UInt8} {body trailer after : Bytes} {last : Progress} :
      isHeader method flags = true → ReadsBlocks ⟨BitSource.ofBytes body, #[]⟩ last →
        last.source.align.bytes = trailer ++ after → trailer.length = 4 →
        fromBigEndian trailer = adler32 last.output.toList →
        Holds (method :: flags :: body) last.output.toList

section Machine

variable {frame data : Bytes} {limit : Nat}

theorem holds_of_expand (hexpand : expand limit frame = .ok data) : Holds frame data := by
  unfold expand at hexpand
  split at hexpand
  · split at hexpand
    · cases hexpand
    · rename_i hheader
      obtain ⟨last, hinflate, hexpand⟩ := Except.bind_eq_ok.mp hexpand
      obtain ⟨hwhole, hexpand⟩ := Except.refuse_eq_ok.mp hexpand
      obtain ⟨hchecksum, hexpand⟩ := Except.refuse_eq_ok.mp hexpand
      cases hexpand
      refine .intro (by simpa using hheader) (readsBlocks_of_inflate hinflate)
        (List.take_append_drop 4 _).symm ?_ (Decidable.not_not.mp hchecksum)
      exact Nat.le_antisymm (List.length_take_le ..) (Nat.le_of_not_lt hwhole)
  · cases hexpand

theorem Holds.expand_eq (hholds : Holds frame data) (limit : Nat) :
    if data.length ≤ limit then expand limit frame = .ok data
    else ∃ output isUsedUp, expand limit frame = .error (.full output isUsedUp) ∧
      output.toList = data.take limit := by
  cases hholds with
  | @intro method flags body trailer after last hheader hreads htrailer hlength hchecksum =>
      have hends := hreads.inflate_ends limit
      have htaken : last.source.align.bytes.take 4 = trailer := by
        rw [htrailer, List.take_append_of_le_length (Nat.le_of_eq hlength.symm),
          List.take_of_length_le (Nat.le_of_eq hlength)]
      have hheader : ¬(!isHeader method flags) = true := by simp [hheader]
      rw [Array.length_toList, expand, if_neg hheader]
      split
      · rename_i hroom
        rw [hends.of_le hroom, Except.ok_bind]
        simp only [htaken]
        refine Except.refuse_eq_ok.mpr ⟨Nat.not_lt_of_le (Nat.le_of_eq hlength.symm), ?_⟩
        exact Except.refuse_eq_ok.mpr ⟨not_not_intro hchecksum, rfl⟩
      · rename_i hpast
        obtain ⟨output, isUsedUp, hfull, houtput⟩ := hends.of_lt (Nat.lt_of_not_le hpast)
        exact ⟨output, isUsedUp, by rw [hfull, Except.error_bind], houtput⟩

def Decoding.Leaves : Decoding → Bytes → Prop
  | .within frame given _, rest => ∃ data, Holds frame data ∧ rest = data.drop given
  | .known data, rest => rest = data

theorem exists_of_give {room given : Nat} {isDrained : Bool} {fault : StreamFault}
    {bytes : Bytes} {piece : {piece : Bytes // piece.length ≤ room}} {next : Decoding}
    (hroom : 0 < room)
    (hgive : Decoding.give room frame given isDrained fault bytes = .ok (piece, next)) :
    piece.val ≠ [] ∧ ∃ reached isDrained, next = .within frame reached isDrained := by
  unfold Decoding.give at hgive
  split at hgive
  · cases hgive
  · rename_i hbytes
    cases hgive
    refine ⟨?_, _, _, rfl⟩
    simp only [Decoding.front, ne_eq, List.take_eq_nil_iff, not_or]
    exact ⟨Nat.ne_of_gt hroom, hbytes⟩

theorem Holds.read_within (hholds : Holds frame data) (given : Nat) (isDrained : Bool) {room : Nat}
    (hroom : 0 < room) : ∃ piece next,
      Decoding.read room (.within frame given isDrained) = .ok (piece, next) ∧
        piece.val = (data.drop given).take room ∧ next.Leaves (data.drop (given + room)) := by
  have hexpand := hholds.expand_eq (expansionLimit (given + room))
  have hlimit := lt_expansionLimit (given + room)
  rw [Decoding.read]
  split at hexpand
  · rw [hexpand]
    exact ⟨_, _, rfl, rfl, rfl⟩
  · rename_i hlong
    obtain ⟨output, isUsedUp, hfull, houtput⟩ := hexpand
    have hlength : (output.toList.drop given).length = expansionLimit (given + room) - given := by
      rw [houtput, List.length_drop, List.length_take]
      omega
    have hsome : output.toList.drop given ≠ [] := by
      rw [← List.length_pos_iff]
      omega
    rw [hfull]
    dsimp only
    rw [Decoding.give, if_neg hsome]
    refine ⟨_, _, rfl, ?_, data, hholds, ?_⟩
    · simp only [Decoding.front, houtput, List.drop_take, List.take_take]
      rw [Nat.min_eq_left (by omega)]
    · rw [hlength, Nat.min_eq_left (by omega)]

theorem delivers_library : library.Delivers Decoding.Leaves where
  sound := by
    intro decoding rest room hleaves hroom
    match decoding, hleaves with
    | .known data, hleaves =>
        subst hleaves
        refine ⟨_, _, rfl, rest.drop room, (List.take_append_drop room rest).symm, rfl, ?_⟩
        intro hnil
        have hlength := congrArg List.length hnil
        simp only [Decoding.front, List.length_take, List.length_nil] at hlength
        exact List.drop_eq_nil_of_le (by omega)
    | .within frame given isDrained, ⟨data, hholds, hrest⟩ =>
        obtain ⟨piece, next, hread, hpiece, hnext⟩ := hholds.read_within given isDrained hroom
        refine ⟨piece, next, hread, data.drop (given + room), ?_, hnext, ?_⟩
        · rw [hrest, hpiece, ← List.drop_drop, List.take_append_drop]
        · intro hnil
          have hlength := congrArg List.length (hpiece.symm.trans hnil)
          simp only [List.length_take, List.length_drop, List.length_nil] at hlength
          exact List.drop_eq_nil_of_le (by omega)
  damaged := by
    intro decoding room piece next hdamaged hroom hread
    match decoding, hdamaged with
    | .known data, hdamaged => exact absurd rfl (hdamaged data)
    | .within frame given isDrained, hdamaged =>
        have hnone : ∀ data, ¬Holds frame data :=
          fun data hholds => hdamaged _ ⟨data, hholds, rfl⟩
        have hgave : piece.val ≠ [] ∧
            ∃ reached isDrained, next = .within frame reached isDrained := by
          have hread : Decoding.read room (.within frame given isDrained) = .ok (piece, next) :=
            hread
          rw [Decoding.read] at hread
          split at hread
          · rename_i hexpand
            exact absurd (holds_of_expand hexpand) (hnone _)
          · exact exists_of_give hroom hread
          · exact exists_of_give hroom hread
        obtain ⟨hsome, reached, isDrained, rfl⟩ := hgave
        exact ⟨hsome, fun _ ⟨data, hholds, _⟩ => hnone data hholds⟩

theorem streams_library : library.Streams Holds := by
  refine ⟨Decoding.Leaves, delivers_library, fun frame data => ?_⟩
  constructor
  · rintro ⟨data, hholds, rfl⟩
    exact hholds
  · intro hholds
    exact ⟨data, hholds, rfl⟩

theorem holds_compress {level : Nat} (hlevel : level ≠ 0) (data : Bytes) :
    Holds (compress level data) data :=
  holds_of_expand (expand_compress hlevel (Nat.le_refl _))

end Machine

end Zlib

theorem isFaithful_machine : Codecs.machine.All IsFaithful := by
  refine Codecs.all_of_forall ⟨?_, ?_, ?_⟩ nofun
  · intro block
    exact ⟨_, rfl⟩
  · intro block stored limit hcompress hlimit hcapacity
    cases hcompress
    exact (gzip_decompress_of_streams Zlib.streams_library _
      (Zlib.holds_compress (by decide) block) hcapacity).trans (if_pos hlimit)
  · intro block stored _ hcompress hnil
    cases hcompress
    cases hnil

/-- A limit on the data of a frame accepts or rejects them, and never alters them. -/
theorem checksLimit_gzip {library : Zlib.Library} {holds : (frame data : Bytes) → Prop}
    (hstreams : library.Streams holds) (level : Nat) (frame : Bytes) :
    (gzip library level).ChecksLimit frame (holds frame) := by
  refine ⟨?_, ?_, ?_, ?_⟩
  · intro limit data hlimit
    constructor
    · intro hdecompress
      exact ⟨holds_of_gzip_decompress hstreams hdecompress,
        keepsLimit_gzip library level _ _ _ hdecompress⟩
    · rintro ⟨hholds, hfits⟩
      rw [gzip_decompress_of_streams hstreams level hholds hlimit, if_pos hfits]
  · intro limit data hdecompress other hfits hother
    have hholds := holds_of_gzip_decompress hstreams hdecompress
    rw [gzip_decompress_of_streams hstreams level hholds hother, if_pos hfits]
  · intro limit data hdecompress other hpast
    have hholds := holds_of_gzip_decompress hstreams hdecompress
    have hlimit := (gzip_decompress_eq_ok.mp hdecompress).1
    have hfits := keepsLimit_gzip library level _ _ _ hdecompress
    rw [gzip_decompress_of_streams hstreams level hholds (by omega), if_neg (by omega)]
  · intro limit error hlimit
    exact isWary_gzip library level frame limit error hlimit

/-- Three bytes come back under their own length and a larger one, and not under a smaller one. -/
theorem checksLimit_threeBytes :
    Zlib.library.Streams Zlib.Holds ∧
      (gzip Zlib.library 9).decompress (Zlib.compress 9 [5, 6, 7]) 3 = .ok [5, 6, 7] ∧
      (gzip Zlib.library 9).decompress (Zlib.compress 9 [5, 6, 7]) 8192 = .ok [5, 6, 7] ∧
      (gzip Zlib.library 9).decompress (Zlib.compress 9 [5, 6, 7]) 2 =
        .error (.corruptTable (.pastLimit 2)) := by
  have hlimit := checksLimit_gzip Zlib.streams_library 9 (Zlib.compress 9 [5, 6, 7])
  have hexact := (hlimit.whole 3 [5, 6, 7] (by decide)).mpr
    ⟨Zlib.holds_compress (by decide) _, Nat.le_refl 3⟩
  exact ⟨Zlib.streams_library, hexact, hlimit.accepts _ _ hexact _ (by decide) (by decide),
    hlimit.rejects _ _ hexact 2 (by decide)⟩

/-- The three letters `abc`, in a frame. -/
def lettersFrame : Bytes := [0x78, 0x9c, 0x4b, 0x4c, 0x4a, 0x06, 0x00, 0x02, 0x4d, 0x01, 0x27]

/-- Data that a limit accepts are not given under a larger one for which there is no buffer. -/
theorem exists_limit_past_capacity :
    (gzip Zlib.library 9).decompress lettersFrame 3 = .ok [97, 98, 99] ∧
      (gzip Zlib.library 9).decompress lettersFrame 0x8000000000000000 =
        .error (.trap .capacity) := by
  have hexpand : (Zlib.expand 3 lettersFrame).toOption = some [97, 98, 99] := by decide +kernel
  have hholds := Zlib.holds_of_expand (Except.eq_ok_of_toOption hexpand)
  exact ⟨gzip_decompress_of_streams Zlib.streams_library 9 hholds (by decide), rfl⟩

end TreeImage.Codec
