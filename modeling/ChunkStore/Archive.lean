import ChunkStore.Dataset
import ChunkStore.Writer

/-!
# A dataset written in one go

`Recording` takes chunks one after another: each is appended to the sink through the filters and
noted in the fixed array. `Recording.finish` appends the array and gives an `Archive`: the file
with the layout and pipeline messages that say how to read it. `Archive.open` reads the messages
and opens the dataset.
-/

namespace ChunkStore

/-- A dataset of which chunks are being written. -/
structure Recording where
  geometry : Geometry
  appender : Appender
  builder : FixedArrayBuilder

namespace Recording

/-- A dataset without chunks, to be written after `preamble`. -/
def start (widths : FileWidths) (shape : Shape) (pipeline : Pipeline) (registry : Registry)
    (pageBits : UInt8) (preamble : Bytes) : Except Error Recording := do
  let geometry ← Geometry.ofExtents shape.dims shape.maxDims shape.chunkDims shape.elementSize
  let builder ← FixedArrayBuilder.ofGeometry widths geometry (!pipeline.isEmpty) pageBits
  return ⟨geometry, ⟨⟨preamble, true⟩, pipeline, registry, shape.elementSize⟩, builder⟩

/-- Writes the chunk at a coordinate and says where it is stored. -/
def add (r : Recording) (coordinate : Coordinate) (chunk : Bytes) :
    Except Error Descriptor × Recording :=
  match r.appender.append chunk with
  | (.error e, appender) => (.error e, { r with appender })
  | (.ok d, appender) =>
    (.ok d, { r with appender, builder := r.builder.setChunk r.geometry coordinate d })

/-- Writes chunks one after another. -/
def addAll : Recording → List (Coordinate × Bytes) → List (Except Error Descriptor) × Recording
  | r, [] => ([], r)
  | r, (coordinate, chunk) :: chunks =>
    let (result, r) := r.add coordinate chunk
    let (results, r) := r.addAll chunks
    (result :: results, r)

end Recording

/-- A written dataset. -/
structure Archive where
  image : Image
  layoutMessage : Bytes
  pipelineMessage : Bytes
  deriving DecidableEq, Repr

/-- Writes the fixed array and the messages. -/
def Recording.finish (r : Recording) (widths : FileWidths) (shape : Shape) :
    Except Error Archive := do
  let array ← r.builder.build r.appender.endPosition
  let (written, appender) := r.appender.appendRaw array
  let address ← written
  let layout : ChunkedLayout :=
    ⟨4, 0, shape.chunkDims, shape.elementSize, .fixedArray r.builder.pageBits, address⟩
  return ⟨appender.sink.content, layout.encodeFour widths, r.appender.pipeline.serialize⟩

/-- The dataset that the messages of an archive describe. -/
def Archive.open (a : Archive) (widths : FileWidths) (shape : Shape)
    (properties : AccessProperties) (registry : Registry) : Except Error Dataset := do
  let layout ← DataLayout.parse a.layoutMessage widths
  let pipeline ← Pipeline.parse a.pipelineMessage
  Dataset.ofLayout widths layout shape pipeline properties registry

end ChunkStore
