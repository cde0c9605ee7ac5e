import TreeImage.Codec.Library
import TreeImage.Proofs.Error.Action

namespace TreeImage

namespace Algorithm

variable {codecs : Codecs} {algorithm : Algorithm} {codec : Codec}

theorem ofId?_eq_some_iff {id : Nat} : ofId? id = some algorithm ↔ id = algorithm.id := by
  constructor
  · intro hid
    unfold ofId? at hid
    split at hid
    all_goals
      cases hid
      try rfl
  · rintro rfl
    exact ofId?_id algorithm

theorem id_mem (algorithm : Algorithm) : algorithm.id ∈ [1, 2, 3, 4, 5, 6] := by
  cases algorithm
  all_goals decide

theorem eq_of_codec_eq_error {error : Error} (hcodec : algorithm.codec codecs = .error error) :
    error = .unsupported (.codec algorithm.name) := by
  unfold codec at hcodec
  split at hcodec
  · cases hcodec
  · cases hcodec
  · exact (Except.error.inj hcodec).symm

theorem algorithm_of_codec (hcodec : algorithm.codec codecs = .ok codec) :
    codec.algorithm = algorithm := by
  unfold Algorithm.codec at hcodec
  split at hcodec
  · cases hcodec
    exact codecs.gzip_algorithm
  · rename_i hzstd
    cases hcodec
    exact codecs.zstd_algorithm _ hzstd
  · cases hcodec

end Algorithm

/-- Whether all codecs that are built in have a property. -/
def Codecs.All (codecs : Codecs) (property : Codec → Prop) : Prop :=
  ∀ (algorithm : Algorithm) (codec : Codec), algorithm.codec codecs = .ok codec → property codec

theorem Codecs.all_of_forall {codecs : Codecs} {property : Codec → Prop}
    (hgzip : property codecs.gzip) (hzstd : ∀ codec, codecs.zstd = some codec → property codec) :
    codecs.All property := by
  intro algorithm codec hcodec
  unfold Algorithm.codec at hcodec
  split at hcodec
  · cases hcodec
    exact hgzip
  · rename_i hsome
    cases hcodec
    exact hzstd _ hsome
  · cases hcodec

namespace Codec

def Compresses (codec : Codec) : Prop := ∀ block, ∃ stored, codec.compress block = .ok stored

/-- Whether a codec compresses every block, gives back what it compressed if it is allowed to be as
long as it was, and compresses no block to nothing. -/
structure IsFaithful (codec : Codec) : Prop where
  compresses : codec.Compresses
  restores : ∀ block stored limit, codec.compress block = .ok stored → block.length ≤ limit →
    limit ≤ maxCapacity → codec.decompress stored limit = .ok block
  compress_ne_nil : ∀ block stored, block ≠ [] → codec.compress block = .ok stored → stored ≠ []

/-- Whether a codec gives no more bytes than it is allowed to. -/
def KeepsLimit (codec : Codec) : Prop :=
  ∀ stored limit block, codec.decompress stored limit = .ok block → block.length ≤ limit

/-- Whether bytes that a codec cannot decompress are a defect of a table to it. -/
def IsWary (codec : Codec) : Prop :=
  ∀ stored limit error, limit ≤ maxCapacity → codec.decompress stored limit = .error error →
    ∃ damage, error = .corruptTable damage

theorem toNat_le_maxCapacity (size : UInt32) : size.toNat ≤ maxCapacity := by
  have hsize := size.toNat_lt
  unfold maxCapacity
  omega

/-- Whether stored bytes, compressed or not, stand for a block. -/
structure Represents (codec : Codec) (stored : Bytes) (isCompressed : Bool) (block : Bytes) :
    Prop where
  stored_ne_nil : stored ≠ []
  length_le : stored.length ≤ block.length
  restores : ∀ limit, block.length ≤ limit → limit ≤ maxCapacity →
    (if isCompressed then codec.decompress stored limit else .ok stored) = .ok block

section Shrink

variable {codec : Codec} {block stored : Bytes} {isCompressed : Bool}

/-- Either a block was compressed to fewer bytes, or it is stored as it is. -/
theorem shrink_eq_ok : codec.shrink block = .ok (stored, isCompressed) ↔
    ∃ compressed, codec.compress block = .ok compressed ∧
      (compressed.length < block.length ∧ stored = compressed ∧ isCompressed = true ∨
        block.length ≤ compressed.length ∧ stored = block ∧ isCompressed = false) := by
  unfold shrink
  rw [Except.bind_eq_ok]
  refine exists_congr fun compressed => and_congr_right fun _ => ?_
  split
  · rename_i hshorter
    constructor
    · rintro ⟨⟩
      exact .inl ⟨hshorter, rfl, rfl⟩
    · rintro (⟨-, rfl, rfl⟩ | ⟨hlonger, -⟩)
      · rfl
      · omega
  · rename_i hlonger
    constructor
    · rintro ⟨⟩
      exact .inr ⟨Nat.le_of_not_lt hlonger, rfl, rfl⟩
    · rintro (⟨hshorter, -⟩ | ⟨-, rfl, rfl⟩)
      · omega
      · rfl

/-- Whether bytes are what is stored for a block: the block itself, or fewer bytes that it was
compressed to. -/
def IsForm (codec : Codec) (stored : Bytes) (isCompressed : Bool) (block : Bytes) : Prop :=
  if isCompressed then codec.compress block = .ok stored ∧ stored.length < block.length
  else stored = block

theorem isForm_of_shrink (hshrink : codec.shrink block = .ok (stored, isCompressed)) :
    codec.IsForm stored isCompressed block := by
  obtain ⟨compressed, hcompress, ⟨hshorter, rfl, rfl⟩ | ⟨-, rfl, rfl⟩⟩ := shrink_eq_ok.mp hshrink
  · exact ⟨hcompress, hshorter⟩
  · exact rfl

theorem IsForm.length_le (hform : codec.IsForm stored isCompressed block) :
    stored.length ≤ block.length := by
  cases isCompressed with
  | true => exact Nat.le_of_lt hform.2
  | false => exact Nat.le_of_eq (congrArg List.length hform)

theorem IsForm.represents (hform : codec.IsForm stored isCompressed block)
    (hcodec : isCompressed = true → codec.IsFaithful) (hblock : block ≠ []) :
    codec.Represents stored isCompressed block := by
  cases isCompressed with
  | true =>
      have hfaithful := hcodec rfl
      obtain ⟨hcompress, hshorter⟩ := hform
      refine ⟨hfaithful.compress_ne_nil _ _ hblock hcompress, Nat.le_of_lt hshorter, ?_⟩
      intro limit hlimit hcapacity
      exact hfaithful.restores _ _ _ hcompress hlimit hcapacity
  | false =>
      obtain rfl : stored = block := hform
      exact ⟨hblock, Nat.le_refl _, fun _ _ _ => rfl⟩

theorem Compresses.exists_shrink (hcodec : codec.Compresses) (block : Bytes) :
    ∃ stored isCompressed, codec.shrink block = .ok (stored, isCompressed) := by
  obtain ⟨compressed, hcompress⟩ := hcodec block
  rcases Nat.lt_or_ge compressed.length block.length with hshorter | hlonger
  · exact ⟨_, _, shrink_eq_ok.mpr ⟨compressed, hcompress, .inl ⟨hshorter, rfl, rfl⟩⟩⟩
  · exact ⟨_, _, shrink_eq_ok.mpr ⟨compressed, hcompress, .inr ⟨hlonger, rfl, rfl⟩⟩⟩

end Shrink

section Libraries

variable {limit : Nat} {frame data : Bytes}

theorem gzip_decompress_eq_ok {library : Zlib.Library} {level : Nat} :
    (gzip library level).decompress frame limit = .ok data ↔ limit ≤ maxCapacity ∧
      ∃ got, library.readToEnd limit (limit + 1) (library.start frame) #[] = .ok got ∧
        got.size ≤ limit ∧ got.toList = data := by
  unfold gzip
  dsimp only
  rw [Except.refuse_eq_ok, Nat.not_lt]
  refine and_congr_right fun _ => ?_
  rw [Except.bind_eq_ok]
  refine exists_congr fun got => ?_
  rw [Except.mapError_eq_ok, Except.refuse_eq_ok, Nat.not_lt]
  exact and_congr_right fun _ => and_congr_right fun _ =>
    ⟨fun hdata => Except.ok.inj hdata, fun hdata => congrArg Except.ok hdata⟩

theorem keepsLimit_gzip (library : Zlib.Library) (level : Nat) :
    (gzip library level).KeepsLimit := by
  intro frame limit data hdecompress
  obtain ⟨-, got, -, hfits, rfl⟩ := gzip_decompress_eq_ok.mp hdecompress
  rwa [Array.length_toList]

theorem isWary_gzip (library : Zlib.Library) (level : Nat) : (gzip library level).IsWary := by
  intro frame limit error hlimit herror
  unfold gzip at herror
  dsimp only at herror
  rw [if_neg (Nat.not_lt_of_le hlimit)] at herror
  cases hread : library.readToEnd limit (limit + 1) (library.start frame) #[] with
  | error fault =>
      rw [hread] at herror
      exact ⟨_, (Except.error.inj herror).symm⟩
  | ok got =>
      rw [hread] at herror
      rw [Except.mapError_ok, Except.ok_bind] at herror
      split at herror
      · exact ⟨_, (Except.error.inj herror).symm⟩
      · cases herror

theorem isWary_zstd (library : Zstd.Library) : (zstd library).IsWary := by
  intro frame limit error _ herror
  obtain ⟨fault, -, rfl⟩ := Except.mapError_eq_error.mp herror
  exact ⟨_, rfl⟩

end Libraries

end Codec

theorem Codecs.all_isWary_ofLibraries (zlib : Codec.Zlib.Library)
    (zstd : Option Codec.Zstd.Library) : (ofLibraries zlib zstd).All Codec.IsWary := by
  refine all_of_forall (Codec.isWary_gzip zlib gzipLevel) ?_
  intro codec hcodec
  obtain ⟨library, -, rfl⟩ := Option.map_eq_some_iff.mp hcodec
  exact Codec.isWary_zstd library

end TreeImage
