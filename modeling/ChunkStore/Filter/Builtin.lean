import ChunkStore.Checksum.Fletcher
import ChunkStore.Filter.Registry
import ChunkStore.ScaleOffset.Packing
import ChunkStore.Zlib.Reader

/-!
# The filters that every dataset may use

`Registry.builtin` holds four codecs: `Codec.deflate` compresses, `Codec.shuffle` brings bytes of
equal weight together, `Codec.fletcher` appends a checksum and `Codec.scaleOffset` packs numbers.
The compression itself is left to a library (`Codec.deflateBy`).
-/

namespace ChunkStore

namespace Codec

/-- The element width of a shuffle: its first client data word, or else the dataset's. -/
def shuffleWidth (ctx : FilterContext) : Nat :=
  match ctx.entry.clientData with
  | [] => ctx.elementSize
  | w :: _ => if w = 0 then ctx.elementSize else w.toNat

/-- Puts byte `j` of all elements next to each other; elements of one byte stay. -/
def shuffle : Codec where
  name := "shuffle"
  decode ctx data :=
    if shuffleWidth ctx ≤ 1 then .ok data
    else (Element.unshuffle data (shuffleWidth ctx)).mapError Error.ofElement
  encode ctx data :=
    if shuffleWidth ctx ≤ 1 then .ok data
    else (Element.shuffle data (shuffleWidth ctx)).mapError Error.ofElement

/-- A word with its bytes in the opposite order. -/
def swapWord (w : UInt32) : UInt32 :=
  UInt32.ofNat (LittleEndian.decode (LittleEndian.encode 4 w.toNat).reverse)

/-- Takes off the checksum at the end, which may be in either byte order. -/
def checkFletcher (data : Bytes) : Except Error Bytes :=
  if data.length < 4 then .error (.corrupt .fletcherChunk (.noChecksum data.length))
  else
    let body := data.take (data.length - 4)
    let stored := UInt32.ofNat (LittleEndian.decode (data.drop (data.length - 4)))
    let computed := Checksum.fletcher32 body
    if stored = computed ∨ swapWord stored = computed then .ok body
    else .error (.fletcherMismatch stored computed)

/-- Appends the Fletcher-32 checksum. -/
def fletcher : Codec where
  name := "fletcher32"
  decode _ data := checkFletcher data
  encode _ data := .ok (data ++ LittleEndian.encode 4 (Checksum.fletcher32 data).toNat)

/-- Why decompression failed, as an error of the filter; a buffer that memory has no room for is
not one. -/
def inflateError {ε : Type} [ToString ε] : Zlib.InflateError ε → Error
  | .noRoom _ => .outOfRange
  | e => .codec "deflate" e.message

/-- The level that a filter asks for: its first client data word, or 6, and 9 at most. -/
def deflateLevel (entry : FilterEntry) : Nat :=
  min ((entry.clientData.head?.map UInt32.toNat).getD 6) 9

/-- Zlib streams of a library. -/
def deflateBy {σ ε : Type} [ToString ε] (library : Zlib.Library σ ε) : Codec where
  name := "deflate"
  decode ctx data := (library.decompress data ctx.outputHint).mapError inflateError
  encode ctx data :=
    (library.compress (deflateLevel ctx.entry) data).mapError fun e => .codec "deflate" (toString e)

/-- Zlib streams of stored blocks. -/
def deflate : Codec := deflateBy Zlib.storing

/-- Unpacks what fits into one chunk. -/
def unpack (ctx : FilterContext) (data : Bytes) : Except Error Bytes := do
  let p ← ScaleOffset.Parameters.ofClientData ctx.entry.clientData
  if ctx.chunkBytes < p.elementCount.toNat * p.size.toNat then
    throw (.corrupt .scaleOffsetParameters
      (.decodedElements p.elementCount.toNat p.size.toNat ctx.chunkBytes))
  ScaleOffset.decode data p

/-- Numbers as distances from the least one. -/
def scaleOffset : Codec where
  name := "scaleoffset"
  decode := unpack
  encode ctx data := do
    ScaleOffset.encode data (← ScaleOffset.Parameters.ofClientData ctx.entry.clientData)

end Codec

/-- The registry of the filters that every dataset may use. -/
def Registry.builtin : Registry :=
  (((Registry.empty.insert shuffleId .shuffle).insert fletcherId .fletcher).insert
    scaleOffsetId .scaleOffset).insert deflateId .deflate

end ChunkStore
