import ChunkStore.Element.Register

/-!
# Transforms by vector registers

For elements of 2, 4 or 8 bytes a kernel moves whole blocks of elements through registers, as many
elements as a register has bytes. `planes` separates the bytes of a block's elements by weight and
`elements` puts them together again; both are a few rounds of instructions. What is left after the
last whole block goes byte by byte, and so do all elements of other widths. `Transform.run` checks
the buffers and runs a transform on one unit of the processor.
-/

namespace ChunkStore.Element

variable {V : Type}

/-- For elements of 2, 4 or 8 bytes: byte 0 of a lane's elements, then byte 1, and so on. -/
def gatherTable? : (width : Nat) → Option Lane
  | 2 => some #v[0, 2, 4, 6, 8, 10, 12, 14, 1, 3, 5, 7, 9, 11, 13, 15]
  | 4 => some #v[0, 4, 8, 12, 1, 5, 9, 13, 2, 6, 10, 14, 3, 7, 11, 15]
  | 8 => some #v[0, 8, 1, 9, 2, 10, 3, 11, 4, 12, 5, 13, 6, 14, 7, 15]
  | _ => none

/-- For elements of 2 to 16 bytes: the bytes of each element backwards. -/
def reverseTable? : (width : Nat) → Option Lane
  | 2 => some #v[1, 0, 3, 2, 5, 4, 7, 6, 9, 8, 11, 10, 13, 12, 15, 14]
  | 4 => some #v[3, 2, 1, 0, 7, 6, 5, 4, 11, 10, 9, 8, 15, 14, 13, 12]
  | 8 => some #v[7, 6, 5, 4, 3, 2, 1, 0, 15, 14, 13, 12, 11, 10, 9, 8]
  | 16 => some #v[15, 14, 13, 12, 11, 10, 9, 8, 7, 6, 5, 4, 3, 2, 1, 0]
  | _ => none

/-- One round: units of register `2k` and register `2k + 1` in turn. -/
def pairUp (m : Machine V) (unit : Nat) : List V → List V
  | a :: b :: rest => m.interleaveLow unit a b :: m.interleaveHigh unit a b :: pairUp m unit rest
  | _ => []

/-- The byte planes of a block whose elements were gathered within each lane. -/
def planes (m : Machine V) : List V → List V
  | [r0, r1] => [m.interleaveLow 8 r0 r1, m.interleaveHigh 8 r0 r1]
  | [r0, r1, r2, r3] =>
    let t0 := m.interleaveLow 4 r0 r1
    let t1 := m.interleaveLow 4 r2 r3
    let t2 := m.interleaveHigh 4 r0 r1
    let t3 := m.interleaveHigh 4 r2 r3
    [m.interleaveLow 8 t0 t1, m.interleaveHigh 8 t0 t1,
      m.interleaveLow 8 t2 t3, m.interleaveHigh 8 t2 t3]
  | [r0, r1, r2, r3, r4, r5, r6, r7] => rounds m 2 4 8 r0 r1 r2 r3 r4 r5 r6 r7
  | _ => []
where
  /-- Three rounds of interleaving with growing units. -/
  rounds (m : Machine V) (u v w : Nat) (r0 r1 r2 r3 r4 r5 r6 r7 : V) : List V :=
    let a0 := m.interleaveLow u r0 r1
    let a1 := m.interleaveHigh u r0 r1
    let a2 := m.interleaveLow u r2 r3
    let a3 := m.interleaveHigh u r2 r3
    let a4 := m.interleaveLow u r4 r5
    let a5 := m.interleaveHigh u r4 r5
    let a6 := m.interleaveLow u r6 r7
    let a7 := m.interleaveHigh u r6 r7
    let b0 := m.interleaveLow v a0 a2
    let b1 := m.interleaveHigh v a0 a2
    let b2 := m.interleaveLow v a1 a3
    let b3 := m.interleaveHigh v a1 a3
    let b4 := m.interleaveLow v a4 a6
    let b5 := m.interleaveHigh v a4 a6
    let b6 := m.interleaveLow v a5 a7
    let b7 := m.interleaveHigh v a5 a7
    pairUp m w [b0, b4, b1, b5, b2, b6, b3, b7]

/-- The elements of a block from its byte planes. -/
def elements (m : Machine V) : List V → List V
  | [p0, p1] => [m.interleaveLow 1 p0 p1, m.interleaveHigh 1 p0 p1]
  | [p0, p1, p2, p3] =>
    let t0 := m.interleaveLow 1 p0 p1
    let t1 := m.interleaveHigh 1 p0 p1
    let t2 := m.interleaveLow 1 p2 p3
    let t3 := m.interleaveHigh 1 p2 p3
    [m.interleaveLow 2 t0 t2, m.interleaveHigh 2 t0 t2,
      m.interleaveLow 2 t1 t3, m.interleaveHigh 2 t1 t3]
  | [p0, p1, p2, p3, p4, p5, p6, p7] => planes.rounds m 1 2 4 p0 p1 p2 p3 p4 p5 p6 p7
  | _ => []

/-- Stores one register per byte plane of `n` elements, from element `start` on. -/
def storePlanes (m : Machine V) (n start : Nat) : (buffer : Array UInt8) → (plane : Nat) →
    List V → Option (Array UInt8)
  | buffer, _, [] => some buffer
  | buffer, plane, v :: vs => do
    storePlanes m n start (← m.store buffer (plane * n + start) v) (plane + 1) vs

/-- Moves the block of elements from `start` on to the byte planes of `n` elements. -/
def shuffleBlock (m : Machine V) (table : Lane) (source : Array UInt8) (n width start : Nat)
    (out : Array UInt8) : Option (Array UInt8) := do
  let registers ← m.loadBlock width source (start * width)
  storePlanes m n start out 0 (planes m (registers.map (m.gather table)))

/-- Moves the block of elements from `start` on back from the byte planes of `n` elements. -/
def unshuffleBlock (m : Machine V) (source : Array UInt8) (n width start : Nat)
    (out : Array UInt8) : Option (Array UInt8) := do
  let registers ← (List.range width).mapM fun j => m.load source (j * n + start)
  m.storeBlock out (start * width) (elements m registers)

/-- `step` on the starts of all whole blocks of `size` among `n`. -/
def forBlocks (size n : Nat) (step : Nat → Array UInt8 → Option (Array UInt8))
    (out : Array UInt8) : Option (Array UInt8) :=
  (List.range (n / size)).foldlM (fun out b => step (b * size) out) out

namespace Transform

/-- The transform by registers into the buffer `out`; a width without a table goes byte by
byte. -/
def byBlocks (m : Machine V) (t : Transform) (source : Array UInt8) (width : Nat)
    (out : Array UInt8) : Option (Array UInt8) := do
  let n := source.size / width
  let whole := n / m.size * m.size
  match t with
  | shuffle =>
    match gatherTable? width with
    | none => shuffle.byBytes source width out
    | some table =>
      shuffleRange source width n whole
        (← forBlocks m.size n (shuffleBlock m table source n width) out)
  | unshuffle =>
    match gatherTable? width with
    | none => unshuffle.byBytes source width out
    | some _ =>
      unshuffleRange source width n whole
        (← forBlocks m.size n (unshuffleBlock m source n width) out)
  | swap =>
    match reverseTable? width with
    | none => swap.byBytes source width out
    | some table =>
      let move := fun i out => do m.store out i (m.gather table (← m.load source i))
      swapRange source width (source.size / m.size * m.size)
        (← forBlocks m.size source.size move out)

/-- The transform on one unit of the processor, into a buffer of zeros; none when a place outside
the buffers is met. -/
def onUnit? (t : Transform) (unit : VectorUnit) (source : Bytes) (width : Nat) :
    Option (Array UInt8) :=
  let out := Array.replicate source.length 0
  match unit with
  | .sse4 => t.byBlocks Machine.lane source.toArray width out
  | .avx2 => t.byBlocks Machine.wide source.toArray width out
  | _ => t.byBytes source.toArray width out

/-- The transform on one unit of the processor, into a buffer of `outLength` bytes. -/
def run (t : Transform) (unit : VectorUnit) (source : Bytes) (outLength width : Nat) :
    Except ElementError Bytes := do
  checkBuffers source.length outLength width unit
  if width = 1 then return source
  written (t.onUnit? unit source width)

end Transform

end ChunkStore.Element
