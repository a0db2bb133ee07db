import ChunkStore.Filter.Builtin
import ChunkStore.Index.FixedArray

/-!
# Writing chunks

A `Sink` is a file under construction, which may be unable to grow. An `Appender` runs each chunk
through the filters and puts what is to be stored at the end of its sink. A `FixedArrayBuilder`
collects the descriptors of the chunks and builds the fixed array that finds them: header, data
block and, for more entries than a page holds, the pages.
-/

namespace ChunkStore

/-- A file under construction. -/
structure Sink where
  content : Bytes
  /-- Whether bytes can be put beyond the end. -/
  growable : Bool
  deriving DecidableEq, Repr

/-- The sink with bytes put at its end. -/
def Sink.append (s : Sink) (bytes : Bytes) : Except Error Sink :=
  if s.growable || bytes.isEmpty then .ok { s with content := s.content ++ bytes }
  else .error .sinkFull

/-- Puts filtered chunks at the end of a sink. -/
structure Appender where
  sink : Sink
  pipeline : Pipeline
  registry : Registry
  /-- Bytes of an element. -/
  elementSize : Nat

namespace Appender

/-- Where the next append begins. -/
def endPosition (a : Appender) : Nat := a.sink.content.length

/-- Appends bytes as they are and gives their address. -/
def appendRaw (a : Appender) (bytes : Bytes) : Except Error Nat × Appender :=
  match a.sink.append bytes with
  | .ok sink => (.ok a.endPosition, { a with sink })
  | .error e => (.error e, a)

/-- Appends a chunk after its filters and says where it is stored. -/
def append (a : Appender) (chunk : Bytes) : Except Error Descriptor × Appender :=
  match a.registry.encode a.pipeline chunk a.elementSize with
  | .error e => (.error e, a)
  | .ok encoded =>
    let (result, a) := a.appendRaw encoded.data
    (result.map fun address => ⟨address, encoded.data.length, encoded.mask⟩, a)

end Appender

/-- A bitmap with one more bit set, if it has a byte for it. -/
def setBit? (bitmap : Array UInt8) (i : Nat) : Option (Array UInt8) := do
  let byte ← bitmap[i / 8]?
  return bitmap.setIfInBounds (i / 8) (byte ||| 0x80 >>> UInt8.ofNat (i % 8))

/-- The descriptors of a fixed array that is to be built. -/
structure FixedArrayBuilder where
  widths : FileWidths
  pageBits : UInt8
  /-- Bytes of a stored size; none for an unfiltered dataset. -/
  sizeLength : Option Nat
  entries : List Descriptor
  deriving DecidableEq, Repr

namespace FixedArrayBuilder

/-- A builder for `count` chunks, none of them allocated. -/
def ofCount (widths : FileWidths) (count : Nat) (pageBits : UInt8) (sizeLength : Option Nat) :
    FixedArrayBuilder :=
  ⟨widths, pageBits, sizeLength, List.replicate count .undefined⟩

/-- A builder for all the chunks of a grid's largest extent. -/
def ofGeometry (widths : FileWidths) (g : Geometry) (filtered : Bool) (pageBits : UInt8) :
    Except Error FixedArrayBuilder :=
  if unlimited ∈ g.scaledMaxDims then .error (.unsupportedFeature .fixedArrayUnlimited)
  else match checkedProduct 1 g.scaledMaxDims with
    | none => .error (.corrupt .fixedArray .entryCountOverflow)
    | some count =>
      let sizeLength := if filtered then some (chunkSizeLength g.chunkBytes) else none
      .ok (ofCount widths count pageBits sizeLength)

/-- Puts a descriptor at an index; an index beyond the entries is ignored. -/
def set (b : FixedArrayBuilder) (i : Nat) (d : Descriptor) : FixedArrayBuilder :=
  { b with entries := b.entries.set i d }

/-- Puts the descriptor of the chunk at a coordinate. -/
def setChunk (b : FixedArrayBuilder) (g : Geometry) (coordinate : Coordinate) (d : Descriptor) :
    FixedArrayBuilder :=
  b.set (Coordinate.linearIndex coordinate g.downMaxCounts) d

/-- Bytes of an entry. -/
def entrySize (b : FixedArrayBuilder) : Nat :=
  match b.sizeLength with
  | some n => b.widths.offsetSize + n + 4
  | none => b.widths.offsetSize

/-- Bytes of a stored size and a filter mask. -/
def filteredFields (n : Nat) (d : Descriptor) : Except Error Bytes :=
  if n < 8 ∧ 1 <<< (8 * n) ≤ d.storedSize then
    .error (.corrupt .fixedArray (.storedSizeWidth d.storedSize n))
  else if 8 < n then .error .outOfRange
  else .ok (LittleEndian.encode n d.storedSize ++ LittleEndian.encode 4 d.filterMask.toNat)

/-- One entry. -/
def encodeEntry (b : FixedArrayBuilder) (d : Descriptor) : Except Error Bytes :=
  let address := LittleEndian.encode b.widths.offsetSize d.address
  match b.sizeLength with
  | none => .ok address
  | some n => (filteredFields n d).map (address ++ ·)

/-- Entries one after another. -/
def encodeEntries (b : FixedArrayBuilder) (entries : List Descriptor) : Except Error Bytes :=
  (entries.mapM b.encodeEntry).map List.flatten

/-- The client of the array: 1 for a filtered dataset and 0 for another. -/
def client (b : FixedArrayBuilder) : UInt8 := if b.sizeLength.isSome then 1 else 0

/-- Entries of a page. -/
def pageEntries (b : FixedArrayBuilder) : Nat := 1 <<< min b.pageBits.toNat 63

/-- The header of an array with its data block at `blockAddress`. -/
def header (b : FixedArrayBuilder) (blockAddress : Nat) : Bytes :=
  withChecksum (Index.FixedArray.headerSignature ++
    [0, b.client, UInt8.ofNat b.entrySize, b.pageBits] ++
    LittleEndian.encode b.widths.lengthSize b.entries.length ++
    LittleEndian.encode b.widths.offsetSize blockAddress)

/-- A data block with the given body, for the header at `address`. -/
def block (b : FixedArrayBuilder) (address : Nat) (body : Bytes) : Bytes :=
  withChecksum (Index.FixedArray.blockSignature ++ [0, b.client] ++
    LittleEndian.encode b.widths.offsetSize address ++ body)

/-- The entries cut into pages; the last one may be shorter. -/
def pages (b : FixedArrayBuilder) : List (List Descriptor) :=
  takeChunks b.pageEntries ((b.entries.length + b.pageEntries - 1) / b.pageEntries) b.entries

/-- Marks a page in the bitmap if it has an allocated chunk. -/
def markPage (bitmap : Array UInt8) (page : List Descriptor) (number : Nat) :
    Option (Array UInt8) :=
  if page.any Descriptor.isAllocated then setBit? bitmap number else some bitmap

/-- The bitmap of pages, a bit for each. -/
def markPages (pages : List (List Descriptor)) : Option Bytes := do
  let start := Array.replicate ((pages.length + 7) / 8) 0
  let bitmap ← pages.zipIdx.foldlM (fun bitmap (page, number) => markPage bitmap page number) start
  return bitmap.toList

/-- Header, data block and pages one after another, for a header at `address`. -/
def build (b : FixedArrayBuilder) (address : Nat) : Except Error Bytes := do
  if 255 < b.entrySize then throw (.corrupt .fixedArray (.entrySize b.entrySize))
  let header := b.header (← Bounds.within (address + Index.FixedArray.headerLength b.widths))
  if b.entries.length ≤ b.pageEntries then
    return header ++ b.block address (← b.encodeEntries b.entries)
  else
    let some bitmap := markPages b.pages | throw .outOfRange
    let pages ← b.pages.mapM fun page => do return withChecksum (← b.encodeEntries page)
    return header ++ b.block address bitmap ++ pages.flatten

end FixedArrayBuilder

end ChunkStore
