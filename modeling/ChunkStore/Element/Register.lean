import ChunkStore.Element.Basic

/-!
# Vector registers

A `Lane` is a register of 16 bytes and a `Wide` one of two lanes. The instructions that the block
kernels use act on each lane alone: `Lane.gather` picks bytes by a table of positions, and
`Lane.interleaveLow` and `Lane.interleaveHigh` take units of some bytes in turn from the lower or
upper halves of two lanes. `Wide.lowLanes` and `Wide.highLanes` move whole lanes. Loads and stores
give no result when they would leave the buffer. `Machine` collects what a kernel needs of one
width of register.
-/

namespace ChunkStore.Element

/-- A register of 16 bytes. -/
abbrev Lane := Vector UInt8 16

namespace Lane

/-- Byte `i` is the byte of `v` at position `table[i]`, or 0 for a position from 128 on. -/
def gather (table v : Lane) : Lane :=
  Vector.ofFn fun i =>
    let position := table[i].toNat
    if 128 ≤ position then 0 else v[position % 16]

/-- Units of `unit` bytes in turn from `a` and `b`, starting at byte `start` of both. -/
def interleave (start unit : Nat) (a b : Lane) : Lane :=
  Vector.ofFn fun i =>
    let source := if i.val / unit % 2 = 0 then a else b
    source[(start + i.val / (2 * unit) * unit + i.val % unit) % 16]

/-- Units in turn from the lower halves. -/
def interleaveLow : (unit : Nat) → Lane → Lane → Lane := interleave 0

/-- Units in turn from the upper halves. -/
def interleaveHigh : (unit : Nat) → Lane → Lane → Lane := interleave 8

/-- The 16 bytes of a buffer at `offset`. -/
def load (buffer : Array UInt8) (offset : Nat) : Option Lane :=
  if h : offset + 16 ≤ buffer.size then some (Vector.ofFn fun i => buffer[offset + i.val])
  else none

/-- A buffer with a lane at `offset`. -/
def store (buffer : Array UInt8) (offset : Nat) (v : Lane) : Option (Array UInt8) :=
  if offset + 16 ≤ buffer.size then
    some (v.toList.zipIdx.foldl (fun buffer (b, i) => buffer.setIfInBounds (offset + i) b) buffer)
  else none

end Lane

/-- A register of two lanes. -/
structure Wide where
  low : Lane
  high : Lane
  deriving DecidableEq, Repr

namespace Wide

/-- An instruction on each lane. -/
def both (f : Lane → Lane → Lane) (a b : Wide) : Wide := ⟨f a.low b.low, f a.high b.high⟩

/-- The low lanes of two registers. -/
def lowLanes (a b : Wide) : Wide := ⟨a.low, b.low⟩

/-- The high lanes of two registers. -/
def highLanes (a b : Wide) : Wide := ⟨a.high, b.high⟩

/-- The 32 bytes of a buffer at `offset`. -/
def load (buffer : Array UInt8) (offset : Nat) : Option Wide := do
  return ⟨← Lane.load buffer offset, ← Lane.load buffer (offset + 16)⟩

/-- A buffer with a register at `offset`. -/
def store (buffer : Array UInt8) (offset : Nat) (v : Wide) : Option (Array UInt8) := do
  Lane.store (← Lane.store buffer offset v.low) (offset + 16) v.high

/-- `width` registers of which number `k` has the 16 bytes number `k` in its low lane and number
`width + k` in its high lane, for an even `width`. -/
def splitLanes (width : Nat) (raw : List Wide) : Option (List Wide) :=
  (List.range width).mapM fun k => do
    let low ← raw[k / 2]?
    let high ← raw[(width + k) / 2]?
    return if k % 2 = 0 then lowLanes low high else highLanes low high

/-- The registers in memory order that `splitLanes` takes apart. -/
def joinLanes : List Wide → List Wide
  | a :: b :: rest => lowLanes a b :: joinLanes rest
  | _ => []

/-- The registers of the second half of the memory that `splitLanes` takes apart. -/
def joinHighLanes : List Wide → List Wide
  | a :: b :: rest => highLanes a b :: joinHighLanes rest
  | _ => []

end Wide

/-- Stores registers of `size` bytes one after another from `offset` on. -/
def storeAll {V : Type} (store : Array UInt8 → Nat → V → Option (Array UInt8)) (size : Nat) :
    (buffer : Array UInt8) → (offset : Nat) → List V → Option (Array UInt8)
  | buffer, _, [] => some buffer
  | buffer, offset, v :: vs => do
    storeAll store size (← store buffer offset v) (offset + size) vs

/-- What kernels need of one width of register. -/
structure Machine (V : Type) where
  /-- Bytes of a register. -/
  size : Nat
  load : Array UInt8 → Nat → Option V
  store : Array UInt8 → Nat → V → Option (Array UInt8)
  /-- Picks bytes within each lane. -/
  gather : Lane → V → V
  /-- Units in turn from the lower halves of each lane. -/
  interleaveLow : Nat → V → V → V
  /-- Units in turn from the upper halves of each lane. -/
  interleaveHigh : Nat → V → V → V
  /-- The registers with the elements of a block, grouped by lane. -/
  loadBlock : (width : Nat) → Array UInt8 → Nat → Option (List V)
  /-- Stores the registers with the elements of a block. -/
  storeBlock : Array UInt8 → Nat → List V → Option (Array UInt8)

/-- Registers of one lane. -/
def Machine.lane : Machine Lane where
  size := 16
  load := Lane.load
  store := Lane.store
  gather := Lane.gather
  interleaveLow := Lane.interleaveLow
  interleaveHigh := Lane.interleaveHigh
  loadBlock width buffer offset :=
    (List.range width).mapM fun k => Lane.load buffer (offset + 16 * k)
  storeBlock := storeAll Lane.store 16

/-- Registers of two lanes. -/
def Machine.wide : Machine Wide where
  size := 32
  load := Wide.load
  store := Wide.store
  gather table v := ⟨Lane.gather table v.low, Lane.gather table v.high⟩
  interleaveLow unit := Wide.both (Lane.interleaveLow unit)
  interleaveHigh unit := Wide.both (Lane.interleaveHigh unit)
  loadBlock width buffer offset := do
    let raw ← (List.range width).mapM fun m => Wide.load buffer (offset + 32 * m)
    Wide.splitLanes width raw
  storeBlock buffer offset vs := do
    let buffer ← storeAll Wide.store 32 buffer offset (Wide.joinLanes vs)
    storeAll Wide.store 32 buffer (offset + 16 * vs.length) (Wide.joinHighLanes vs)

end ChunkStore.Element
