import ChunkStore.Error

/-!
# Chunk coordinates and their numbers

A chunk coordinate counts whole chunks in every dimension, the last dimension changing fastest.
`linearIndex` numbers the coordinates of a grid in that order with the multipliers of
`downCounts`, and `toCoordinate` takes a number back to its coordinate. An extent may be
`unlimited`. `moveToFront` puts one dimension before the others, so that a grid which grows along
it keeps the numbers of its chunks; `moveFromFront` puts it back.
-/

namespace ChunkStore

/-- A chunk coordinate, or an extent per dimension. -/
abbrev Coordinate := List Nat

/-- The extent of a dimension without limit. -/
def unlimited : Nat := maxWord

/-- How many pieces of `size` cover `extent`; an unlimited extent stays unlimited. -/
def ceilDiv (extent size : Nat) : Nat :=
  if extent = unlimited then unlimited
  else if size = 0 then 0
  else (extent + size - 1) / size

namespace Coordinate

/-- The product of extents in 64 bits; an unlimited extent makes it unlimited. -/
def extentProduct : List Nat → Nat
  | [] => 1
  | extent :: extents =>
    if extent = unlimited then unlimited else saturate (extentProduct extents * extent)

/-- For each dimension the number of chunks between two neighbours along it. -/
def downCounts : List Nat → List Nat
  | [] => []
  | _ :: extents => extentProduct extents :: downCounts extents

/-- The sum of the products of two lists, place by place. -/
def dot : List Nat → List Nat → Nat
  | x :: xs, y :: ys => x * y + dot xs ys
  | _, _ => 0

/-- The number of a coordinate under the multipliers `down`, in 64-bit arithmetic. -/
def linearIndex (coordinate down : List Nat) : Nat := dot coordinate down % UInt64.size

/-- The coordinate that `linear` reaches, and what is left of it for slower dimensions. -/
def split : (extents : List Nat) → (linear : Nat) → List Nat × Nat
  | [], linear => ([], linear)
  | extent :: extents, linear =>
    let (coordinate, rest) := split extents linear
    if extent = 0 ∨ extent = unlimited then (rest :: coordinate, 0)
    else (rest % extent :: coordinate, rest / extent)

/-- The coordinate with number `linear` in a grid of the given extents. -/
def toCoordinate (linear : Nat) (extents : List Nat) : List Nat := (split extents linear).1

/-- Component `k` before the others, which keep their order. -/
def moveToFront (k : Nat) (coordinate : List Nat) : List Nat :=
  match coordinate[k]? with
  | some c => c :: coordinate.eraseIdx k
  | none => coordinate

/-- The first component back at position `k`. -/
def moveFromFront (k : Nat) : List Nat → List Nat
  | [] => []
  | c :: rest => rest.insertIdx k c

/-- `moveToFront`, for a dimension that the coordinate has. -/
def swizzle (coordinate : List Nat) (k : Nat) : Except Error (List Nat) :=
  if coordinate.length ≤ k then .error (.rankMismatch (k + 1) coordinate.length)
  else .ok (moveToFront k coordinate)

/-- `moveFromFront`, for a dimension that the coordinate has. -/
def unswizzle (coordinate : List Nat) (k : Nat) : Except Error (List Nat) :=
  if coordinate.length ≤ k then .error (.rankMismatch (k + 1) coordinate.length)
  else .ok (moveFromFront k coordinate)

/-- Lexicographic order, the first component counting most. -/
def lexCompare : List Nat → List Nat → Ordering
  | [], [] => .eq
  | [], _ :: _ => .lt
  | _ :: _, [] => .gt
  | a :: as, b :: bs => if a < b then .lt else if b < a then .gt else lexCompare as bs

@[simp] theorem length_downCounts (extents : List Nat) :
    (downCounts extents).length = extents.length := by
  induction extents with
  | nil => rfl
  | cons extent extents ih => simp [downCounts, ih]

@[simp] theorem moveToFront_zero (coordinate : List Nat) :
    moveToFront 0 coordinate = coordinate := by
  cases coordinate <;> rfl

theorem linearIndex_lt (coordinate down : List Nat) :
    linearIndex coordinate down < UInt64.size :=
  Nat.mod_lt _ (by decide)

end Coordinate

/-- Bytes that hold a number of `log2 n + 1` bits and one bit byte more, eight at most. -/
def chunkSizeLength (chunkBytes : Nat) : Nat := min (1 + (Nat.log2 chunkBytes + 8) / 8) 8

/-- The fewest bytes, at least one, that hold `n`. -/
def minByteCount (n : Nat) : Nat := if n = 0 then 1 else Nat.log2 n / 8 + 1

end ChunkStore
