import TreeImage.Bytes.Buffer
import TreeImage.Codec.Basic

/-!
The codecs over the libraries that compress.  A zlib library is a stream: the data of a frame come
out of a decoding piece by piece.  A frame is read to its end, but for no more than one byte past
the most that it may hold, so that the one byte too many shows.
-/

namespace TreeImage

namespace Codec

/-- The most bytes that a buffer can be made for. -/
def maxCapacity : Nat := 0x7fffffffffffffff

namespace Zlib

/-- A library for zlib frames, and how the buffers grow that it is asked to fill. -/
structure Library where
  /-- What is left of a frame whose data are being read. -/
  Decoding : Type
  /-- Puts data in a frame, with an effort from zero to nine. -/
  encode : (level : Nat) → Bytes → Except IoError Bytes
  start : (frame : Bytes) → Decoding
  /-- Gives the next data for which there is room, or fewer of them.  Nothing comes at the end. -/
  read : (room : Nat) → Decoding →
    Except IoError ({piece : Bytes // piece.length ≤ room} × Decoding)
  /-- The room that a buffer offers which was made for `capacity` bytes and has got some. -/
  room : (capacity got : Nat) → Nat
  room_pos : ∀ capacity got, 0 < room capacity got

/-- Reads a decoding to its end, or until `left` bytes were read, into a buffer that was made for
`capacity` bytes. -/
def Library.readToEnd (library : Library) (capacity left : Nat) (decoding : library.Decoding)
    (got : Buffer) : Except IoError Buffer :=
  if left = 0 then .ok got
  else
    match library.read (min left (library.room capacity got.size)) decoding with
    | .error error => .error error
    | .ok (⟨piece, _⟩, next) =>
        if piece = [] then .ok got
        else library.readToEnd capacity (left - piece.length) next (got.pushAll piece)
termination_by left
decreasing_by
  rename_i _ _ hpiece
  have := List.length_pos_iff.mpr hpiece
  omega

end Zlib

/-- The codec of zlib frames, with an effort that is cut to nine. -/
def gzip (library : Zlib.Library) (level : Nat) : Codec where
  algorithm := .gzip
  compress block := (library.encode (min level 9) block).mapError Error.io
  decompress frame limit := do
    if maxCapacity < limit then throw (.trap .capacity)
    let data ← (library.readToEnd limit (limit + 1) (library.start frame) #[]).mapError
      fun error => .corruptTable (.stream error.text)
    if limit < data.size then throw (.corruptTable (.pastLimit limit))
    return data.toList

structure Zstd.Library where
  compress : Bytes → Except IoError Bytes
  decompress : (frame : Bytes) → (limit : Nat) → Except IoError Bytes

def zstd (library : Zstd.Library) : Codec where
  algorithm := .zstd
  compress block := (library.compress block).mapError Error.io
  decompress frame limit :=
    (library.decompress frame limit).mapError fun error => .corruptTable (.frame error.text)

end Codec

def Codecs.gzipLevel : Nat := 9

/-- The codecs over a zlib library, and over a zstd library if there is one. -/
def Codecs.ofLibraries (zlib : Codec.Zlib.Library) (zstd : Option Codec.Zstd.Library) :
    Codecs where
  gzip := Codec.gzip zlib gzipLevel
  zstd := zstd.map Codec.zstd
  gzip_algorithm := rfl
  zstd_algorithm codec hcodec := by
    obtain ⟨library, -, rfl⟩ := Option.map_eq_some_iff.mp hcodec
    rfl

end TreeImage
