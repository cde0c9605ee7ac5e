import TreeImage.Bytes.Word
import TreeImage.Error.Basic

namespace TreeImage

inductive Algorithm
  | gzip
  | lzma
  | lzo
  | xz
  | lz4
  | zstd
  deriving DecidableEq, Repr, Inhabited

/-- A way to compress blocks, and to get them back given the most bytes they may have. -/
structure Codec where
  algorithm : Algorithm
  compress : Bytes → Except Error Bytes
  decompress : Bytes → Nat → Except Error Bytes

namespace Codec

/-- The bytes to store for a block and whether they are compressed: compression is used only
where it makes a block strictly shorter. -/
def shrink (codec : Codec) (block : Bytes) : Except Error (Bytes × Bool) := do
  let compressed ← codec.compress block
  if compressed.length < block.length then return (compressed, true) else return (block, false)

end Codec

/-- The codecs that are built in; that of zstd may be left out. -/
structure Codecs where
  gzip : Codec
  zstd : Option Codec
  gzip_algorithm : gzip.algorithm = .gzip
  zstd_algorithm : ∀ codec, zstd = some codec → codec.algorithm = .zstd

namespace Algorithm

def id : Algorithm → Nat
  | .gzip => 1
  | .lzma => 2
  | .lzo => 3
  | .xz => 4
  | .lz4 => 5
  | .zstd => 6

def ofId? : Nat → Option Algorithm
  | 1 => some .gzip
  | 2 => some .lzma
  | 3 => some .lzo
  | 4 => some .xz
  | 5 => some .lz4
  | 6 => some .zstd
  | _ => none

def name : Algorithm → String
  | .gzip => "gzip"
  | .lzma => "lzma"
  | .lzo => "lzo"
  | .xz => "xz"
  | .lz4 => "lz4"
  | .zstd => "zstd"

/-- The algorithm with a name, in any case of its letters; `zlib` is another name of `gzip`. -/
def ofName? (name : String) : Option Algorithm :=
  match name.map Char.toLower with
  | "gzip" | "zlib" => some .gzip
  | "lzma" => some .lzma
  | "lzo" => some .lzo
  | "xz" => some .xz
  | "lz4" => some .lz4
  | "zstd" => some .zstd
  | _ => none

def codec (codecs : Codecs) (algorithm : Algorithm) : Except Error Codec :=
  match algorithm, codecs.zstd with
  | .gzip, _ => .ok codecs.gzip
  | .zstd, some codec => .ok codec
  | _, _ => .error (.unsupported (.codec algorithm.name))

@[simp] theorem ofId?_id (algorithm : Algorithm) : ofId? algorithm.id = some algorithm := by
  cases algorithm <;> rfl

end Algorithm

end TreeImage
