import ChunkStore.Bounds
import ChunkStore.Grid.Coordinate

/-!
# Selections of a block of elements

A `Hyperslab` selects `count[d]` elements from `start[d]` on in each dimension. `validate`
compares it with the extents, and `chunkSpan` gives the box of chunks that it touches.
`Box.visitAll` goes through the coordinates of a box like an odometer, one step after another;
`Box.coordinates` lists them.
-/

namespace ChunkStore

/-- An interval per dimension, both ends included. -/
abbrev Box := List (Nat × Nat)

namespace Box

/-- The coordinates of the box, the last dimension changing fastest. -/
def coordinates : Box → List Coordinate
  | [] => [[]]
  | (low, high) :: box =>
    (List.range' low (high + 1 - low)).flatMap fun c => (coordinates box).map (c :: ·)

/-- The coordinate that follows, the last dimension changing fastest, and whether all dimensions
start over. -/
def advance : Box → Coordinate → Coordinate × Bool
  | (low, high) :: box, c :: coordinate =>
    match advance box coordinate with
    | (next, false) => (c :: next, false)
    | (next, true) => if c < high then ((c + 1) :: next, false) else (low :: next, true)
  | _, coordinate => (coordinate, true)

/-- Number of coordinates, each dimension counted as one at least. -/
def volume : Box → Nat
  | [] => 1
  | (low, high) :: box => (high - low + 1) * volume box

/-- How many steps are left until all dimensions start over. -/
def stepsLeft : Box → Coordinate → Nat
  | (_, high) :: box, c :: coordinate => (high - c) * volume box + stepsLeft box coordinate
  | _, _ => 0

theorem volume_pos (box : Box) : 0 < volume box := by
  induction box with
  | nil => exact Nat.one_pos
  | cons p box ih => exact Nat.mul_pos (Nat.succ_pos _) ih

/-- Fewer steps are left after a step, and after the last one no more than there are
coordinates. -/
theorem stepsLeft_advance (box : Box) (c : Coordinate) :
    stepsLeft box (advance box c).1 <
      if (advance box c).2 then volume box else stepsLeft box c := by
  induction box generalizing c with
  | nil => exact Nat.one_pos
  | cons p box ih =>
    obtain ⟨low, high⟩ := p
    obtain _ | ⟨c, cs⟩ := c
    · exact volume_pos _
    have inner := ih cs
    rw [advance]
    generalize advance box cs = next at inner ⊢
    obtain ⟨next, _ | _⟩ := next
    · exact Nat.add_lt_add_left inner _
    · -- What a dimension gains by starting over is less than one step of the dimension before.
      have inner : stepsLeft box next < volume box := inner
      by_cases room : c < high
      · have more : high - c = high - (c + 1) + 1 := by omega
        simp only [room, if_true, stepsLeft, more, Nat.succ_mul]
        simp only [Bool.false_eq_true, if_false]
        omega
      · simp only [room, if_false, if_true, stepsLeft, volume, Nat.succ_mul]
        omega

theorem stepsLeft_lt {box : Box} {c next : Coordinate} (step : advance box c = (next, false)) :
    stepsLeft box next < stepsLeft box c := by
  have fewer := stepsLeft_advance box c
  rwa [step] at fewer

variable {m : Type → Type} [Monad m] {β : Type}

/-- Visits the coordinates from `c` on until all dimensions start over. -/
def visitFrom (box : Box) (visit : β → Coordinate → m β) (b : β) (c : Coordinate) : m β := do
  let b ← visit b c
  match _step : advance box c with
  | (next, false) => visitFrom box visit b next
  | (_, true) => return b
termination_by stepsLeft box c
decreasing_by exact stepsLeft_lt _step

/-- Visits every coordinate of the box; a box with an empty dimension has none. -/
def visitAll (box : Box) (visit : β → Coordinate → m β) (b : β) : m β :=
  if box.any fun (low, high) => high < low then return b
  else visitFrom box visit b (box.map Prod.fst)

end Box

/-- A block of elements. -/
structure Hyperslab where
  /-- The first element selected, per dimension. -/
  start : List Nat
  /-- How many elements are selected, per dimension. -/
  count : List Nat
  deriving DecidableEq, Repr

namespace Hyperslab

/-- The block between the two ends given per dimension, the second end left out. -/
def ofRanges (ranges : List (Nat × Nat)) : Hyperslab :=
  ⟨ranges.map Prod.fst, ranges.map fun (low, high) => high - low⟩

/-- Every element of the given extents. -/
def all (dims : List Nat) : Hyperslab := ⟨List.replicate dims.length 0, dims⟩

/-- Number of dimensions. -/
def rank (s : Hyperslab) : Nat := s.start.length

/-- Number of elements, when 64 bits hold every product of the first counts. -/
def numElements (s : Hyperslab) : Except Error Nat := Bounds.product s.count

/-- The first dimension, from `d` on, in which the block leaves the extent. -/
def misfit? (d : Nat) : (start count dims : List Nat) → Option SelectionError
  | s :: start, c :: count, n :: dims =>
    if s + c ≤ n then misfit? (d + 1) start count dims else some (.beyondExtent d s c n)
  | _, _, _ => none

/-- Insists that the block lies inside the extents. -/
def validate (s : Hyperslab) (dims : List Nat) : Except Error Unit :=
  if s.start.length ≠ s.count.length ∨ s.start.length ≠ dims.length then
    .error (.rankMismatch dims.length (min s.start.length s.count.length))
  else match misfit? 0 s.start s.count dims with
    | some cause => .error (.invalidSelection cause)
    | none => .ok ()

/-- The chunks touched along one dimension by `count` elements from `start` on. -/
def spanAlong (start count chunk : Nat) : Except Error (Nat × Nat) := do
  let stop ← Bounds.within (start + count)
  return (← Bounds.div start chunk, ← Bounds.div (← Bounds.sub stop 1) chunk)

/-- `spanAlong` in every dimension that all three lists have. -/
def spansAlong : (start count chunkDims : List Nat) → Except Error Box
  | s :: start, c :: count, k :: chunkDims => do
    return (← spanAlong s c k) :: (← spansAlong start count chunkDims)
  | _, _, _ => return []

/-- The box of touched chunks, or none when nothing is selected. -/
def chunkSpan (s : Hyperslab) (chunkDims : List Nat) : Except Error (Option Box) :=
  if 0 ∈ s.count then .ok none else some <$> spansAlong s.start s.count chunkDims

end Hyperslab

end ChunkStore
