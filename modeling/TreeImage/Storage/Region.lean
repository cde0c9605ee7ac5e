import TreeImage.Storage.Basic

namespace TreeImage

/-- A window of a storage: where it starts, and how large it is if that was declared. -/
structure Region where
  storage : Storage
  start : Nat
  declared : Option Nat

/-- What repeated read calls moved, and how many calls there were. -/
structure Transfer where
  bytes : Bytes
  calls : Nat

namespace Storage

/-- Repeats read calls until `count` more bytes have come or a call gives none. -/
def gather (storage : Storage) (address count : Nat) (got : Bytes) (calls : Nat) :
    Except Error Transfer :=
  if count = 0 then .ok ⟨got, calls⟩
  else if addressSpace ≤ address then .error (.trap .sum)
  else
    let part := storage.read address count
    if part = [] then .ok ⟨got, calls + 1⟩
    else
      gather storage (address + part.length) (count - part.length) (got ++ part) (calls + 1)
termination_by count
decreasing_by
  rename_i hcount _ hpart
  have hlength : part.length ≠ 0 := fun hzero => hpart (List.length_eq_zero_iff.mp hzero)
  change count - part.length < count
  omega

end Storage

namespace Region

/-- The window of a storage from `start` on; a size of zero leaves its end open. -/
def ofStorage (storage : Storage) (start size : Nat) : Region :=
  ⟨storage, start, if size = 0 then none else some size⟩

/-- The declared size, or what the storage holds past the start. -/
def size (region : Region) : Nat := region.declared.getD (region.storage.size - region.start)

def check (region : Region) (offset count : Nat) : Except Error Unit :=
  match region.declared with
  | none => .ok ()
  | some size =>
      if size < offset + count then
        .error (.io ⟨.unexpectedEof,
          s!"access of {count} bytes at offset {offset} exceeds region size {size}"⟩)
      else .ok ()

/-- The first `count` bytes from `offset` on, or as many as the storage gives. -/
def fetch (region : Region) (offset count : Nat) : Except Error Transfer := do
  region.check offset count
  region.storage.gather (region.start + offset) count [] 0

def read (region : Region) (offset count : Nat) : Except Error Bytes := do
  let transfer ← region.fetch offset count
  if transfer.bytes.length < count then
    throw (.io ⟨.unexpectedEof,
      s!"short read at offset {offset}: wanted {count} bytes, got {transfer.bytes.length}"⟩)
  return transfer.bytes

/-- Repeats write calls until all bytes are placed from `offset` on. -/
def place (region : Region) (offset : Nat) (bytes : Bytes) : Except Error Unit × Region :=
  match bytes with
  | [] => (.ok (), region)
  | b :: rest =>
      match region with
      | ⟨storage, start, declared⟩ =>
          if addressSpace ≤ start + offset then
            (.error (.trap .sum), ⟨storage, start, declared⟩)
          else
            match storage.write (start + offset) (b :: rest) with
            | (.error error, storage) => (.error (.io error), ⟨storage, start, declared⟩)
            | (.ok 0, storage) =>
                (.error (.io ⟨.writeZero, s!"backend accepted no bytes at offset {offset}"⟩),
                  ⟨storage, start, declared⟩)
            | (.ok (count + 1), storage) =>
                place ⟨storage, start, declared⟩ (offset + count + 1) (rest.drop count)
termination_by bytes.length
decreasing_by
  simp only [List.length_drop, List.length_cons]
  omega

def write (offset : Nat) (bytes : Bytes) : Action Region Unit := fun region =>
  match region.check offset bytes.length with
  | .error error => (.error error, region)
  | .ok () => region.place offset bytes

end Region

/-- Writes at offsets, to be made in order, and how they end: with a value, or with an error if
there is no more to be written. -/
structure Script (α : Type) where
  writes : List (Nat × Bytes)
  outcome : Except Error α

namespace Script

instance : Monad Script where
  pure value := ⟨[], .ok value⟩
  bind script next :=
    match script with
    | ⟨writes, .error error⟩ => ⟨writes, .error error⟩
    | ⟨writes, .ok value⟩ =>
        let rest := next value
        ⟨writes ++ rest.writes, rest.outcome⟩

instance : MonadLift (Except Error) Script := ⟨fun outcome => ⟨[], outcome⟩⟩

def write (offset : Nat) (bytes : Bytes) : Script Unit := ⟨[(offset, bytes)], .ok ()⟩

/-- Makes the writes on a region up to the first that fails. -/
def run {α : Type} (script : Script α) : Action Region α := do
  script.writes.forM fun (offset, bytes) => Region.write offset bytes
  script.outcome

end Script

end TreeImage
