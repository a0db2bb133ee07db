import ChunkStore.Cache
import ChunkStore.Filter.Builtin
import ChunkStore.Index.Chunks
import ChunkStore.Selection

/-!
# Reading a chunked dataset

A `Dataset` is an open handle on chunks of a file. `Dataset.decodedChunk` finds a chunk through
the index, undoes its filters and keeps it in the cache; a chunk that was never written is made of
fill values. `Dataset.readHyperslab` puts the selected parts of all touched chunks together in
row-major order.
-/

namespace ChunkStore

/-- The extents of a dataset and the shape of its chunks. -/
structure Shape where
  dims : List Nat
  maxDims : List Nat
  chunkDims : List Nat
  /-- Bytes of an element. -/
  elementSize : Nat
  deriving DecidableEq, Repr

namespace Shape

/-- Number of dimensions. -/
def rank (s : Shape) : Nat := s.dims.length

/-- Number of elements, when 64 bits hold every product of the first extents. -/
def numElements (s : Shape) : Except Error Nat := Bounds.product s.dims

/-- The first dimension, from `d` on, in which the extent exceeds its maximum. -/
def excess? (d : Nat) : (dims maxDims : List Nat) → Option Defect
  | n :: dims, m :: maxDims =>
    if m < n then some (.extentBeyondMaximum d n m) else excess? (d + 1) dims maxDims
  | _, _ => none

/-- Insists on lists of one length, on the chunks of the layout and on extents within bounds. -/
def validate (s : Shape) (layout : ChunkedLayout) : Except Error Unit :=
  if s.chunkDims.length ≠ s.rank ∨ s.maxDims.length ≠ s.rank then
    .error (.rankMismatch s.rank (min s.chunkDims.length s.maxDims.length))
  else if layout.chunkDims ≠ s.chunkDims ∨ layout.elementSize ≠ s.elementSize then
    .error (.corrupt .dataLayout
      (.shapesDisagree layout.chunkDims layout.elementSize s.chunkDims s.elementSize))
  else match excess? 0 s.dims s.maxDims with
    | some defect => .error (.corrupt .dataspace defect)
    | none => .ok ()

/-- Whether the chunk at a coordinate reaches beyond the current extent. -/
def isEdgeChunk (s : Shape) (coordinate : Coordinate) : Bool :=
  ((coordinate.zip s.chunkDims).zip s.dims).any fun ((c, k), n) =>
    n < saturate (saturate (c + 1) * k)

end Shape

/-- How a dataset is read. -/
structure AccessProperties where
  cacheLimits : CacheLimits
  /-- Whether the checksums of index structures are compared. -/
  verifyChecksums : Bool
  /-- The bytes of one fill value; zeros when there is none. -/
  fillValue : Option Bytes
  /-- Whether reads may be cancelled. -/
  cancellable : Bool
  deriving DecidableEq, Repr

/-- The default cache, checksums compared, no fill value and no cancelling. -/
def AccessProperties.default : AccessProperties := ⟨.default, true, none, false⟩

/-- An open dataset. -/
structure Dataset where
  shape : Shape
  pipeline : Pipeline
  registry : Registry
  index : ChunkIndex
  cache : Cache
  properties : AccessProperties
  /-- Whether chunks that reach beyond the extent are stored without filters. -/
  skipsPartialChunks : Bool
  /-- Whether cancelling was asked for. -/
  cancelled : Bool

namespace Dataset

/-- `length` bytes of one fill value after another. -/
def repeatFill (fill : Bytes) (length : Nat) : Bytes :=
  ((List.replicate ((length + fill.length - 1) / fill.length) fill).flatten).take length

/-- Insists on a buffer that memory can address, which is less than half of the address space. -/
def checkHeld (bytes : Nat) : Except Error Unit :=
  if bytes < UInt64.size / 2 then .ok () else .error .outOfRange

/-- Insists on a fill value of one element. -/
def checkFill (fill : Option Bytes) (elementSize : Nat) : Except Error Unit :=
  match fill with
  | none => .ok ()
  | some pattern =>
    if pattern.length = elementSize ∧ 0 < elementSize then .ok ()
    else .error (.corrupt .fillValue (.fillLength pattern.length elementSize))

/-- The dataset that a layout, a shape and a pipeline describe. -/
def ofLayout (widths : FileWidths) (layout : DataLayout) (shape : Shape) (pipeline : Pipeline)
    (properties : AccessProperties) (registry : Registry) : Except Error Dataset := do
  let layout ← layout.asChunked
  shape.validate layout
  let geometry ← Geometry.ofExtents shape.dims shape.maxDims shape.chunkDims shape.elementSize
  checkFill properties.fillValue shape.elementSize
  checkHeld geometry.chunkBytes
  let index ← ChunkIndex.ofLayout layout geometry widths (!pipeline.isEmpty)
    properties.verifyChecksums
  return {
    shape, pipeline, registry, index, properties
    cache := .ofLimits properties.cacheLimits
    skipsPartialChunks := layout.skipsPartialChunks
    cancelled := false }

/-- Bytes of a decoded chunk. -/
def chunkBytes (d : Dataset) : Nat := d.index.geometry.chunkBytes

/-- A chunk of fill values. -/
def fillChunk (d : Dataset) : Bytes :=
  match d.properties.fillValue with
  | none => List.replicate d.chunkBytes 0
  | some fill => repeatFill fill d.chunkBytes

/-- Whether reads stop before the next chunk. -/
def isCancelled (d : Dataset) : Bool := d.properties.cancellable && d.cancelled

/-- The dataset after cancelling was asked for. -/
def cancel (d : Dataset) : Dataset := { d with cancelled := true }

/-- The dataset with an empty cache. -/
def clearCache (d : Dataset) : Dataset := { d with cache := d.cache.clear }

/-- Where the chunk at a coordinate is stored. -/
def lookup (coordinate : Coordinate) : Session Dataset Descriptor :=
  Session.zoom Dataset.index (fun index d => { d with index }) (ChunkIndex.lookup coordinate)

/-- Whether the chunk at a coordinate is stored as it is. -/
def isUnfiltered (d : Dataset) (coordinate : Coordinate) : Bool :=
  d.pipeline.isEmpty || (d.skipsPartialChunks && d.shape.isEdgeChunk coordinate)

/-- Undoes the filters of a stored chunk, which must give one whole chunk. -/
def undoFilters (d : Dataset) (coordinate : Coordinate) (mask : UInt32) (stored : Bytes) :
    Except Error Bytes := do
  let decoded ← d.registry.decode d.pipeline mask stored d.shape.elementSize d.chunkBytes
  if decoded.length ≠ d.chunkBytes then
    throw (.corrupt .chunk (.decodedLength coordinate decoded.length d.chunkBytes))
  return decoded

/-- The chunk at a coordinate, from the file. -/
def readChunk (coordinate : Coordinate) : Session Dataset Bytes := do
  let d ← get
  let descriptor ← lookup coordinate
  if !descriptor.isAllocated then return d.fillChunk
  if d.isUnfiltered coordinate then
    Session.fetch descriptor.address d.chunkBytes
  else
    let stored ← Session.fetch descriptor.address descriptor.storedSize
    Session.ofExcept (d.undoFilters coordinate descriptor.filterMask stored)

/-- The chunk at a coordinate, from the cache or else from the file. -/
def decodedChunk (coordinate : Coordinate) : Session Dataset Bytes := do
  let d ← get
  if d.isCancelled then throw .cancelled
  let (cached, cache) := d.cache.request coordinate
  set { d with cache }
  match cached with
  | some buffer => return buffer
  | none =>
    let buffer ← readChunk coordinate
    modify fun d => { d with cache := d.cache.retain coordinate buffer }
    return buffer

/-- Along one dimension, what a chunk and a selection have in common, both ends included. -/
def overlapAlong (coordinate chunk start count : Nat) : Except Error (Nat × Nat) := do
  let origin ← Bounds.within (coordinate * chunk)
  let chunkEnd ← Bounds.within (origin + chunk)
  let stop ← Bounds.within (start + count)
  return (max origin start, ← Bounds.sub (min chunkEnd stop) 1)

/-- What the chunk at a coordinate and a selection have in common. -/
def overlap : (coordinate chunkDims start count : List Nat) → Except Error Box
  | c :: coordinate, k :: chunkDims, s :: start, n :: count => do
    return (← overlapAlong c k s n) :: (← overlap coordinate chunkDims start count)
  | _, _, _, _ => return []

/-- The row-major position of an element in a block that starts at `origin`. -/
def positionIn (element origin down : List Nat) : Nat :=
  Coordinate.dot (List.zipWith (· - ·) element origin) down

/-- Where in its buffer an element lies, in bytes. -/
def byteOffset (element origin down : List Nat) (elementSize : Nat) : Except Error Nat := do
  Bounds.within ((← Bounds.within (positionIn element origin down)) * elementSize)

/-- Copies `length` bytes from one place to another, if both lie inside their buffers. -/
def copyRun (chunk : Bytes) (source length : Nat) (out : Bytes) (destination : Nat) :
    Except Error Bytes := do
  match overwrite? out destination (← Bounds.run chunk source length) with
  | some out => return out
  | none => throw .outOfRange

/-- Copies what a chunk and a selection have in common, one run along the last dimension after
another. -/
def copyRegion (chunk : Bytes) (coordinate chunkDims : List Nat) (selection : Hyperslab)
    (elementSize : Nat) (out : Bytes) : Except Error Bytes := do
  let common ← overlap coordinate chunkDims selection.start selection.count
  let (low, high) := common.getLastD (0, 0)
  let run ← Bounds.within (((← Bounds.sub high low) + 1) * elementSize)
  let origin := List.zipWith (· * ·) coordinate chunkDims
  let chunkDown := Coordinate.downCounts chunkDims
  let outDown := Coordinate.downCounts selection.count
  Box.visitAll common.dropLast (fun out outer => do
    let element := if common.isEmpty then [] else outer ++ [low]
    let source ← byteOffset element origin chunkDown elementSize
    let destination ← byteOffset element selection.start outDown elementSize
    copyRun chunk source run out destination) out

/-- The part of a selection that lies in one chunk, copied to its place in the result. -/
def addChunk (selection : Hyperslab) (out : Bytes) (coordinate : Coordinate) :
    Session Dataset Bytes := do
  let chunk ← decodedChunk coordinate
  let shape := (← get).shape
  copyRegion chunk coordinate shape.chunkDims selection shape.elementSize out

/-- The bytes of a selection's elements, when memory can hold them. -/
def selectedBytes (selection : Hyperslab) (elementSize : Nat) : Except Error Nat := do
  match checked ((← selection.numElements) * elementSize) with
  | some bytes => return bytes
  | none => throw (.invalidSelection .tooLarge)

/-- The elements of a selection in row-major order. -/
def readHyperslab (selection : Hyperslab) : Session Dataset Bytes := do
  let shape := (← get).shape
  Session.ofExcept (selection.validate shape.dims)
  let bytes ← Session.ofExcept (selectedBytes selection shape.elementSize)
  Session.ofExcept (checkHeld bytes)
  match ← Session.ofExcept (selection.chunkSpan shape.chunkDims) with
  | none => return List.replicate bytes 0
  | some span => Box.visitAll span (addChunk selection) (List.replicate bytes 0)

/-- All the elements in row-major order. -/
def readAll : Session Dataset Bytes := do
  readHyperslab (.all (← get).shape.dims)

/-- The handle in words. -/
def describe (d : Dataset) : String :=
  let stats := d.cache.stats
  "ChunkedDataset \x7b shape: DatasetShape \x7b " ++
    s!"dims: {Text.numbers d.shape.dims}, max_dims: {Text.numbers d.shape.maxDims}, " ++
    s!"chunk_dims: {Text.numbers d.shape.chunkDims}, element_size: {d.shape.elementSize}" ++
    " \x7d, " ++ "index: \"" ++ d.index.name ++ "\", " ++
    s!"filters: {d.pipeline.filters.length}, cache: CacheStats " ++ "\x7b " ++
    s!"hits: {stats.hits}, misses: {stats.misses}, evictions: {stats.evictions}, " ++
    s!"bypassed: {stats.bypassed}" ++ " \x7d \x7d"

end Dataset

end ChunkStore
