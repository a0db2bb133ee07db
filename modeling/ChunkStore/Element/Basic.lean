import ChunkStore.Bytes

/-!
# Transforms on elements of one width

A chunk's raw bytes are elements of one width, laid end to end. `Transform.shuffle` brings byte `j`
of all elements together in one plane after another, `Transform.unshuffle` takes the planes apart
again, and `Transform.swap` turns each element around, which changes its byte order. All of them run
byte by byte into another buffer (`shuffleRange`, `unshuffleRange`, `swapRange`), from some element
on, and have no result when they would leave a buffer. `ElementError` says why such a transform
fails, and `checkBuffers` in which order it looks at its buffers.
-/

namespace ChunkStore.Element

/-- The part of a processor that runs a transform. -/
inductive VectorUnit where
  /-- The 128-bit unit of 64-bit ARM processors. -/
  | neon
  /-- The 256-bit unit of x86-64 processors. -/
  | avx2
  /-- The 128-bit unit of x86-64 processors. -/
  | sse4
  /-- One byte at a time, on any processor. -/
  | scalar
  deriving DecidableEq, Repr

/-- The unit's name in messages. -/
def VectorUnit.name : VectorUnit → String
  | .neon => "Neon"
  | .avx2 => "Avx2"
  | .sse4 => "Sse4"
  | .scalar => "Scalar"

/-- Whether the unit is present: the library is built for x86-64 processors. -/
def VectorUnit.isPresent : VectorUnit → Bool
  | .neon => false
  | _ => true

/-- Why a transform fails. -/
inductive ElementError where
  /-- Elements of no bytes. -/
  | zeroWidth
  /-- The source ends inside an element. -/
  | lengthNotMultiple (length width : Nat)
  /-- The destination has another length than the source. -/
  | outputLength (expected actual : Nat)
  /-- The processor lacks the unit. -/
  | unitUnavailable (unit : VectorUnit)
  /-- A place outside the buffers is read or written. -/
  | outOfBounds
  deriving DecidableEq, Repr

/-- The error in words. -/
def ElementError.message : ElementError → String
  | .zeroWidth => "element width must be non-zero"
  | .lengthNotMultiple length width =>
    s!"buffer of {length} bytes is not a multiple of the {width}-byte element width"
  | .outputLength expected actual =>
    s!"output buffer holds {actual} bytes, expected {expected}"
  | .unitUnavailable unit => s!"{unit.name} backend is not available on this processor"
  | .outOfBounds => "index out of bounds"

/-- Width, source, destination and unit are checked in this order. -/
def checkBuffers (sourceLength destinationLength width : Nat) (unit : VectorUnit) :
    Except ElementError Unit :=
  if width = 0 then .error .zeroWidth
  else if sourceLength % width ≠ 0 then .error (.lengthNotMultiple sourceLength width)
  else if destinationLength ≠ sourceLength then
    .error (.outputLength sourceLength destinationLength)
  else if !unit.isPresent then .error (.unitUnavailable unit)
  else .ok ()

/-! ## Loops over single bytes

They are for elements of at least one byte: `checkBuffers` has refused the others. -/

/-- A buffer with another byte at a place, if it has the place. -/
def setByte? (out : Array UInt8) (i : Nat) (b : UInt8) : Option (Array UInt8) :=
  if i < out.size then some (out.setIfInBounds i b) else none

/-- Byte `j` of `n` elements of `width` bytes comes to plane `j` of the destination, for the
elements from `start` on. -/
def shuffleRange (source : Array UInt8) (width n start : Nat) (out : Array UInt8) :
    Option (Array UInt8) :=
  (List.range width).foldlM (fun out j => do
    guard ((j + 1) * n ≤ out.size)
    (List.range' start (n - start)).foldlM
      (fun out i => do setByte? out (j * n + i) (← source[i * width + j]?)) out) out

/-- Plane `j` of the source comes to byte `j` of `n` elements of `width` bytes, for the elements
from `start` on. -/
def unshuffleRange (source : Array UInt8) (width n start : Nat) (out : Array UInt8) :
    Option (Array UInt8) :=
  (List.range width).foldlM (fun out j => do
    guard ((j + 1) * n ≤ source.size)
    (List.range' start (n - start)).foldlM
      (fun out i => do setByte? out (i * width + j) (← source[j * n + i]?)) out) out

/-- The elements of `width` bytes from byte `start` on, each of them backwards. -/
def swapRange (source : Array UInt8) (width start : Nat) (out : Array UInt8) :
    Option (Array UInt8) := do
  guard (start ≤ source.size ∧ start ≤ out.size)
  let elements :=
    (chunksExact width (source.toList.drop start)).take ((out.size - start) / width)
  elements.zipIdx.foldlM (fun out (element, c) =>
    element.reverse.zipIdx.foldlM
      (fun out (b, k) => setByte? out (start + c * width + k) b) out) out

/-! ## Whole elements -/

/-- A transform of the elements of a buffer. -/
inductive Transform where
  | shuffle
  | unshuffle
  | swap
  deriving DecidableEq, Repr

/-- What was written into a buffer, unless a place outside the buffers was met. -/
def written : Option (Array UInt8) → Except ElementError Bytes
  | some out => .ok out.toList
  | none => .error .outOfBounds

namespace Transform

/-- The transform of all elements of the source, byte by byte. -/
def byBytes (t : Transform) (source : Array UInt8) (width : Nat) (out : Array UInt8) :
    Option (Array UInt8) :=
  match t with
  | shuffle => shuffleRange source width (source.size / width) 0 out
  | unshuffle => unshuffleRange source width (source.size / width) 0 out
  | swap => swapRange source width 0 out

/-- The transform into a new buffer, for whole elements; those of one byte are copied. -/
def whole (t : Transform) (source : Bytes) (width : Nat) : Except ElementError Bytes := do
  checkBuffers source.length source.length width .scalar
  if width = 1 then return source
  written (t.byBytes source.toArray width (Array.replicate source.length 0))

end Transform

/-- Bytes of equal weight together. -/
def shuffle : (source : Bytes) → (width : Nat) → Except ElementError Bytes :=
  Transform.shuffle.whole

/-- The elements from their byte planes. -/
def unshuffle : (source : Bytes) → (width : Nat) → Except ElementError Bytes :=
  Transform.unshuffle.whole

/-- The elements in the opposite byte order. -/
def swap : (source : Bytes) → (width : Nat) → Except ElementError Bytes := Transform.swap.whole

end ChunkStore.Element
