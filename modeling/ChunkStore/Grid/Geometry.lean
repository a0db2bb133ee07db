import ChunkStore.Grid.Coordinate

/-!
# The grid of chunks over a dataset

`Geometry.ofExtents` derives from a dataset's extents and its chunk shape how many chunks lie
along each dimension, now and at most, the multipliers that number them and the bytes of one
chunk.
-/

namespace ChunkStore

/-- The chunks of a dataset, counted along each dimension. -/
structure Geometry where
  /-- Chunks that cover the current extent. -/
  scaledDims : List Nat
  /-- Chunks that cover the largest extent. -/
  scaledMaxDims : List Nat
  /-- Bytes of one decoded chunk. -/
  chunkBytes : Nat
  deriving DecidableEq, Repr

namespace Geometry

/-- Multipliers that number the chunks of the current extent. -/
def downCounts (g : Geometry) : List Nat := Coordinate.downCounts g.scaledDims

/-- Multipliers that number the chunks of the largest extent. -/
def downMaxCounts (g : Geometry) : List Nat := Coordinate.downCounts g.scaledMaxDims

/-- Number of chunks that cover the current extent, in 64 bits. -/
def totalChunks (g : Geometry) : Nat := saturate (g.scaledDims.foldl (· * ·) 1)

/-- Number of dimensions. -/
def rank (g : Geometry) : Nat := g.scaledDims.length

/-- The geometry of a dataset; every list has one entry per dimension. -/
def ofExtents (dims maxDims chunkDims : List Nat) (elementSize : Nat) : Except Error Geometry :=
  if dims.length ≠ chunkDims.length then
    .error (.rankMismatch chunkDims.length dims.length)
  else if maxDims.length ≠ chunkDims.length then
    .error (.rankMismatch chunkDims.length maxDims.length)
  else if 0 ∈ chunkDims then .error (.corrupt .chunkShape .zeroChunkDimension)
  else match checkedProduct elementSize chunkDims with
    | none => .error (.corrupt .chunkShape .chunkBytesOverflow)
    | some chunkBytes =>
      .ok ⟨List.zipWith ceilDiv dims chunkDims, List.zipWith ceilDiv maxDims chunkDims,
        chunkBytes⟩

/-- Whether every component lies below the largest extent. -/
def withinMax (g : Geometry) (coordinate : Coordinate) : Bool :=
  (coordinate.zip g.scaledMaxDims).all fun (c, m) => c < m

/-- Insists on one component per dimension. -/
def checkRank (g : Geometry) (coordinate : Coordinate) : Except Error Unit :=
  if coordinate.length = g.rank then .ok ()
  else .error (.rankMismatch g.rank coordinate.length)

end Geometry

end ChunkStore
