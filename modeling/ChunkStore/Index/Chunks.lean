import ChunkStore.Index.ExtensibleArray
import ChunkStore.Index.FixedArray
import ChunkStore.Index.TreeOne
import ChunkStore.Index.TreeTwo
import ChunkStore.Layout

/-!
# The chunk index of a dataset

`ChunkIndex` is the index that a layout names: one chunk, all chunks back to back, an array or a
B-tree. `ChunkIndex.ofLayout` sets it up and `ChunkIndex.lookup` answers a coordinate of the right
rank. A chunk that was never written has the descriptor `Descriptor.undefined`.
-/

namespace ChunkStore

open Index

/-- A chunk index and what was decoded of it. -/
inductive ChunkIndex where
  /-- One chunk that covers the dataset. -/
  | single (settings : Settings) (descriptor : Descriptor)
  /-- All chunks back to back from `base` on. -/
  | implicit (settings : Settings) (base : Nat)
  | fixedArray (array : FixedArray)
  | extensibleArray (array : ExtensibleArray)
  | treeOne (tree : TreeOne)
  | treeTwo (tree : TreeTwo)

namespace ChunkIndex

/-- What the index knows of its dataset. -/
def settings : ChunkIndex → Settings
  | single s _ => s
  | implicit s _ => s
  | fixedArray a => a.settings
  | extensibleArray a => a.settings
  | treeOne t => t.settings
  | treeTwo t => t.settings

/-- The grid of chunks. -/
def geometry (ix : ChunkIndex) : Geometry := ix.settings.geometry

/-- The index's name. -/
def name : ChunkIndex → String
  | single .. => "single chunk"
  | implicit .. => "implicit"
  | fixedArray _ => "fixed array"
  | extensibleArray _ => "extensible array"
  | treeOne _ => "v1 B-tree"
  | treeTwo _ => "v2 B-tree"

/-- How many structures were decoded. -/
def decoded : ChunkIndex → Nat
  | single .. | implicit .. => 0
  | fixedArray a => a.decoded
  | extensibleArray a => a.decoded
  | treeOne t => t.decoded
  | treeTwo t => t.decoded

/-- The descriptor of the only chunk. -/
def singleDescriptor (s : Settings) (address : Nat) : Option (Nat × UInt32) → Descriptor
  | none => s.plain address
  | some (storedSize, filterMask) => Settings.stored address storedSize filterMask

/-- The index that a layout names, for a dataset with the given grid. -/
def ofLayout (layout : ChunkedLayout) (geometry : Geometry) (widths : FileWidths)
    (filtered verify : Bool) : Except Error ChunkIndex :=
  if layout.chunkDims.length ≠ geometry.rank then
    .error (.rankMismatch geometry.rank layout.chunkDims.length)
  else
    let s : Settings :=
      ⟨widths, geometry, layout.chunkDims, layout.elementSize, filtered, verify⟩
    match layout.index with
    | .single info => .ok (single s (singleDescriptor s layout.address info))
    | .implicit =>
      if filtered then .error (.unsupportedFeature .implicitFiltered)
      else if unlimited ∈ geometry.scaledMaxDims then
        .error (.unsupportedFeature .implicitUnlimited)
      else .ok (implicit s layout.address)
    | .fixedArray _ => .ok (fixedArray (.ofAddress s layout.address))
    | .extensibleArray .. => .ok (extensibleArray (.ofAddress s layout.address))
    | .treeOne => .ok (treeOne (.ofRoot s layout.address))
    | .treeTwo .. => .ok (treeTwo (.ofAddress s layout.address))

/-- The descriptor of the only chunk, for a coordinate of zeros. -/
def lookupSingle (d : Descriptor) (coordinate : Coordinate) : Except Error Descriptor :=
  if coordinate.all (· == 0) then .ok d else .error (.invalidCoordinate coordinate)

/-- The descriptor of a chunk among chunks back to back. -/
def lookupImplicit (s : Settings) (base : Nat) (coordinate : Coordinate) : Descriptor :=
  if base = undefinedAddress ∨ !s.geometry.withinMax coordinate then .undefined
  else
    let i := Coordinate.linearIndex coordinate s.geometry.downMaxCounts
    match checked (i * s.geometry.chunkBytes + base) with
    | some address => s.plain address
    | none => .undefined

/-- The descriptor of the chunk at a coordinate. -/
def lookup (coordinate : Coordinate) : Session ChunkIndex Descriptor := fun ix =>
  match ix.geometry.checkRank coordinate with
  | .error e => pure (.error e, ix)
  | .ok () =>
    match ix with
    | single _ d => pure (lookupSingle d coordinate, ix)
    | implicit s base => pure (.ok (lookupImplicit s base coordinate), ix)
    | fixedArray a => do
      let (result, a) ← FixedArray.lookup coordinate a
      return (result, fixedArray a)
    | extensibleArray a => do
      let (result, a) ← ExtensibleArray.lookup coordinate a
      return (result, extensibleArray a)
    | treeOne t => do
      let (result, t) ← TreeOne.lookup coordinate t
      return (result, treeOne t)
    | treeTwo t => do
      let (result, t) ← TreeTwo.lookup coordinate t
      return (result, treeTwo t)

end ChunkIndex

end ChunkStore
