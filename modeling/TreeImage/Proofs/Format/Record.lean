import TreeImage.Format.Record
import TreeImage.Proofs.Bytes.Word
import TreeImage.Proofs.Error.Action

namespace TreeImage

namespace Format

namespace Decoder

variable {σ α β : Type}

theorem bind_eq_ok {step : Decoder σ α} {next : α → Decoder σ β} {source last : σ} {b : β} :
    (step >>= next) source = .ok (b, last) ↔
      ∃ a rest, step source = .ok (a, rest) ∧ next a rest = .ok (b, last) := by
  constructor
  · intro h
    obtain ⟨⟨a, rest⟩, hstep, hnext⟩ := Except.bind_eq_ok.mp h
    exact ⟨a, rest, hstep, hnext⟩
  · rintro ⟨a, rest, hstep, hnext⟩
    exact Except.bind_eq_ok.mpr ⟨(a, rest), hstep, hnext⟩

theorem bind_congr {step twin : Decoder σ α} {source other : σ} (hsame : step source = twin other)
    (next : α → Decoder σ β) : (step >>= next) source = (twin >>= next) other := by
  change step source >>= _ = twin other >>= _
  rw [hsame]

end Decoder

/-- A relation between a source and the byte strings at its front: it hands out any of their first
bytes, and what is left stands at the front of what remains. -/
structure Front (σ : Type) [RecordSource σ] where
  Stands : σ → Bytes → Prop
  take_of_stands : ∀ {source : σ} {head rest : Bytes}, Stands source (head ++ rest) →
    ∃ last, RecordSource.take head.length source = .ok (head, last) ∧ Stands last rest

def Front.ofBytes : Front Bytes where
  Stands source bytes := source = bytes
  take_of_stands := by
    rintro source head rest rfl
    exact ⟨rest, take_bytes_append head rest, rfl⟩

namespace Decoder

variable {σ α β : Type} [RecordSource σ]

/-- A step reads a byte string as a value: it takes just these bytes from the front. -/
def Reads (front : Front σ) (step : Decoder σ α) (bytes : Bytes) (value : α) : Prop :=
  ∀ (source : σ) (rest : Bytes), front.Stands source (bytes ++ rest) →
    ∃ last, step source = .ok (value, last) ∧ front.Stands last rest

variable {front : Front σ}

theorem Reads.pure (value : α) : Reads front (pure value) [] value := by
  intro source rest hstands
  exact ⟨source, rfl, hstands⟩

theorem Reads.bind {step : Decoder σ α} {next : α → Decoder σ β} {head tail : Bytes} {a : α}
    {b : β} (hstep : Reads front step head a) (hnext : Reads front (next a) tail b) :
    Reads front (step >>= next) (head ++ tail) b := by
  intro source rest hstands
  rw [List.append_assoc] at hstands
  obtain ⟨middle, hhead, hstands⟩ := hstep _ _ hstands
  obtain ⟨last, htail, hstands⟩ := hnext _ _ hstands
  exact ⟨last, bind_eq_ok.mpr ⟨a, middle, hhead, htail⟩, hstands⟩

theorem Reads.map {step : Decoder σ α} {next : α → Decoder σ β} {head : Bytes} {a : α} {b : β}
    (hstep : Reads front step head a) (hnext : Reads front (next a) [] b) :
    Reads front (step >>= next) head b := by
  have hbind := hstep.bind hnext
  rwa [List.append_nil] at hbind

theorem Reads.lift {step : Decoder σ α} {next : α → Decoder σ β} {tail : Bytes} {a : α} {b : β}
    (hstep : Reads front step [] a) (hnext : Reads front (next a) tail b) :
    Reads front (step >>= next) tail b := hstep.bind hnext

theorem Reads.ofExcept {result : Except Error α} {a : α} (hresult : result = .ok a) :
    Reads front (liftM result : Decoder σ α) [] a := by
  subst hresult
  intro source rest hstands
  exact ⟨source, rfl, hstands⟩

/-- A step takes a byte string from the front and goes on as another step. -/
def Leads (front : Front σ) (step : Decoder σ α) (bytes : Bytes) (next : Decoder σ α) : Prop :=
  ∀ (source : σ) (rest : Bytes), front.Stands source (bytes ++ rest) →
    ∃ last, step source = next last ∧ front.Stands last rest

theorem Leads.refl (step : Decoder σ α) : Leads front step [] step :=
  fun source _ hstands => ⟨source, rfl, hstands⟩

theorem Reads.leads {step : Decoder σ α} {next : α → Decoder σ β} {head : Bytes} {a : α}
    (hstep : Reads front step head a) : Leads front (step >>= next) head (next a) := by
  intro source rest hstands
  obtain ⟨middle, hhead, hstands⟩ := hstep _ _ hstands
  refine ⟨middle, ?_, hstands⟩
  change step source >>= _ = _
  rw [hhead]
  rfl

theorem Leads.trans {step next last : Decoder σ α} {head tail : Bytes}
    (hstep : Leads front step head next) (hnext : Leads front next tail last) :
    Leads front step (head ++ tail) last := by
  intro source rest hstands
  rw [List.append_assoc] at hstands
  obtain ⟨middle, hhead, hstands⟩ := hstep _ _ hstands
  obtain ⟨reached, htail, hstands⟩ := hnext _ _ hstands
  exact ⟨reached, hhead.trans htail, hstands⟩

theorem Leads.bind {step last : Decoder σ α} {head : Bytes} (hstep : Leads front step head last)
    (next : α → Decoder σ β) : Leads front (step >>= next) head (last >>= next) := by
  intro source rest hstands
  obtain ⟨reached, hhead, hstands⟩ := hstep _ _ hstands
  exact ⟨reached, bind_congr hhead next, hstands⟩

theorem Leads.reads {step next : Decoder σ α} {head tail : Bytes} {a : α}
    (hstep : Leads front step head next) (hnext : Reads front next tail a) :
    Reads front step (head ++ tail) a := by
  intro source rest hstands
  rw [List.append_assoc] at hstands
  obtain ⟨middle, hhead, hstands⟩ := hstep _ _ hstands
  obtain ⟨last, htail, hstands⟩ := hnext _ _ hstands
  exact ⟨last, hhead.trans htail, hstands⟩

theorem Leads.eq_of_bytes {step next : Decoder Bytes α} {head : Bytes}
    (hstep : Leads Front.ofBytes step head next) (rest : Bytes) :
    step (head ++ rest) = next rest := by
  obtain ⟨last, hhead, rfl⟩ := hstep (head ++ rest) rest rfl
  exact hhead

theorem Reads.eq_of_bytes {step : Decoder Bytes α} {head : Bytes} {a : α}
    (hstep : Reads Front.ofBytes step head a) (rest : Bytes) :
    step (head ++ rest) = .ok (a, rest) := by
  obtain ⟨last, hhead, rfl⟩ := hstep (head ++ rest) rest rfl
  exact hhead

theorem Reads.eq_of_whole {step : Decoder Bytes α} {head : Bytes} {a : α}
    (hstep : Reads Front.ofBytes step head a) : step head = .ok (a, []) := by
  have hread := hstep.eq_of_bytes []
  rwa [List.append_nil] at hread

theorem reads_bytes (head : Bytes) : Reads front (bytes head.length) head head :=
  fun _ _ hstands => front.take_of_stands hstands

theorem reads_word {width : Nat} {Word : Type} (ofNat : Nat → Word) (toNat : Word → Nat)
    (hofNat : ∀ word, ofNat (toNat word % 256 ^ width) = word) (word : Word) :
    Reads front (do return ofNat (fromLittleEndian (← bytes width)))
      (littleEndian width (toNat word)) word := by
  have hbytes : Reads front _ _ _ := reads_bytes (littleEndian width (toNat word))
  rw [length_littleEndian] at hbytes
  refine hbytes.map ?_
  rw [fromLittleEndian_littleEndian, hofNat]
  exact Reads.pure word

theorem reads_u16 (word : UInt16) : Reads front u16 (word16 word) word :=
  reads_word UInt16.ofNat UInt16.toNat (fun word => by simp [Nat.mod_eq_of_lt word.toNat_lt]) word

theorem reads_u32 (word : UInt32) : Reads front u32 (word32 word) word :=
  reads_word UInt32.ofNat UInt32.toNat (fun word => by simp [Nat.mod_eq_of_lt word.toNat_lt]) word

theorem reads_u64 (word : UInt64) : Reads front u64 (word64 word) word :=
  reads_word UInt64.ofNat UInt64.toNat (fun word => by simp [Nat.mod_eq_of_lt word.toNat_lt]) word

/-- A number is read back as the word of its width. -/
theorem reads_u16_littleEndian (n : Nat) :
    Reads front (u16 : Decoder σ UInt16) (littleEndian 2 n) (UInt16.ofNat n) := by
  have hbytes : littleEndian 2 n = word16 (UInt16.ofNat n) := by
    rw [word16, UInt16.toNat_ofNat']
    simp only [littleEndian, List.cons.injEq, and_true]
    constructor
    · apply UInt8.toNat_inj.mp
      simp only [UInt8.toNat_ofNat']
      omega
    · apply UInt8.toNat_inj.mp
      simp only [UInt8.toNat_ofNat']
      omega
  rw [hbytes]
  exact reads_u16 _

theorem bytes_eq_ok {count : Nat} {data taken rest : Bytes} :
    (bytes count : Decoder Bytes Bytes) data = .ok (taken, rest) ↔
      data = taken ++ rest ∧ taken.length = count := by
  change RecordSource.take count data = _ ↔ _
  constructor
  · intro htake
    rw [take_bytes] at htake
    split at htake
    · cases htake
    · rename_i henough
      cases htake
      exact ⟨(List.take_append_drop count data).symm,
        List.length_take_of_le (Nat.le_of_not_lt henough)⟩
  · rintro ⟨rfl, rfl⟩
    exact take_bytes_append taken rest

/-- A word is read from a byte string exactly if its own bytes are at the front. -/
theorem word_eq_ok {width : Nat} {Word : Type} {ofNat : Nat → Word} {toNat : Word → Nat}
    (hofNat : ∀ word, ofNat (toNat word % 256 ^ width) = word)
    (htoNat : ∀ n < 256 ^ width, toNat (ofNat n) = n) {data rest : Bytes} {word : Word} :
    (do return ofNat (fromLittleEndian (← bytes width)) : Decoder Bytes Word) data =
        .ok (word, rest) ↔
      data = littleEndian width (toNat word) ++ rest := by
  rw [bind_eq_ok]
  constructor
  · rintro ⟨taken, last, htaken, hword⟩
    obtain ⟨rfl, rfl⟩ := bytes_eq_ok.mp htaken
    cases hword
    rw [htoNat _ (fromLittleEndian_lt taken), littleEndian_fromLittleEndian]
  · rintro rfl
    refine ⟨_, rest, bytes_eq_ok.mpr ⟨rfl, length_littleEndian _ _⟩, ?_⟩
    rw [fromLittleEndian_littleEndian, hofNat]
    rfl

theorem u16_eq_ok {data rest : Bytes} {word : UInt16} :
    (u16 : Decoder Bytes UInt16) data = .ok (word, rest) ↔ data = word16 word ++ rest :=
  word_eq_ok (fun word => by simp [Nat.mod_eq_of_lt word.toNat_lt])
    (fun _ hlt => UInt16.toNat_ofNat_of_lt' hlt)

theorem u32_eq_ok {data rest : Bytes} {word : UInt32} :
    (u32 : Decoder Bytes UInt32) data = .ok (word, rest) ↔ data = word32 word ++ rest :=
  word_eq_ok (fun word => by simp [Nat.mod_eq_of_lt word.toNat_lt])
    (fun _ hlt => UInt32.toNat_ofNat_of_lt' hlt)

theorem u64_eq_ok {data rest : Bytes} {word : UInt64} :
    (u64 : Decoder Bytes UInt64) data = .ok (word, rest) ↔ data = word64 word ++ rest :=
  word_eq_ok (fun word => by simp [Nat.mod_eq_of_lt word.toNat_lt])
    (fun _ hlt => UInt64.toNat_ofNat_of_lt' hlt)

end Decoder

end Format

end TreeImage
