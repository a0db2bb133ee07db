import ChunkStore.Checksum.Adler
import ChunkStore.Zlib.Inflate

/-!
# Zlib streams

A zlib stream is a header of two bytes, deflate blocks and the Adler-32 checksum of the data.
`inflate` gives all that a stream delivers (`Delivery`): the decoded bytes and then either the end
of the stream or a fault. Bytes are decoded a window at a time, and a window in which the stream is
found corrupt is not delivered. `inflateWhole` takes a stream only if there is no fault in it.
`deflate` writes data in stored blocks.
-/

namespace ChunkStore.Zlib

/-- What a stream delivers: bytes, then its end (`none`) or a fault. -/
structure Delivery where
  data : Bytes
  fault : Option Fault
  deriving DecidableEq, Repr

/-- Header, blocks and checksum. -/
def streamSteps (rules : Rules) (fuel : Nat) : Inflate Unit := do
  let method ← Inflate.number 8
  let flags ← Inflate.number 8
  if (method * 256 + flags) % 31 ≠ 0 ∨ method % 16 ≠ 8 ∨ 7 < method / 16 ∨ flags.testBit 5 then
    throw .corrupt
  Inflate.blocks rules fuel
  Inflate.alignToByte
  let mut checksum := 0
  for _ in [0, 1, 2, 3] do
    checksum := checksum * 256 + (← Inflate.number 8)
  if checksum ≠ Checksum.adler32 (← get).output.toList then throw .corrupt

/-- What decoding the stream at the front of `bytes` comes to; bytes after it are ignored. -/
def runStream (rules : Rules) (bytes : Bytes) : Except Fault Unit × Inflater :=
  let bits := bitsOf bytes
  (streamSteps rules bits.length).run.run ⟨bits, #[]⟩

/-- Bytes that are decoded before any of them is delivered. -/
def windowSize : Nat := 32768

/-- How many of `size` decoded bytes are in windows before the one with the last of them. -/
def earlierWindows (size : Nat) : Nat := windowSize * ((size - 1) / windowSize)

/-- What the stream at the front of `bytes` delivers. -/
def inflate (bytes : Bytes) : Delivery :=
  match runStream .windowed bytes with
  | (.ok (), s) => ⟨s.output.toList, none⟩
  | (.error .corrupt, s) => ⟨s.output.toList.take (earlierWindows s.output.size), some .corrupt⟩
  | (.error .incomplete, s) => ⟨s.output.toList, some .incomplete⟩

/-- The data of the stream at the front of `bytes`, decoded as a whole. -/
def inflateWhole (bytes : Bytes) : Option Bytes :=
  match runStream .whole bytes with
  | (.ok (), s) => some s.output.toList
  | (.error _, _) => none

/-- Bytes of a stored block at most. -/
def storedLimit : Nat := 65535

/-- One stored block. -/
def storedBlock (last : Bool) (data : Bytes) : Bytes :=
  UInt8.ofNat last.toNat :: LittleEndian.encode 2 data.length ++
    LittleEndian.encode 2 (storedLimit - data.length) ++ data

/-- `full` blocks of `storedLimit` bytes and a last one with the rest. -/
def storedBlocks : (full : Nat) → Bytes → Bytes
  | 0, data => storedBlock true data
  | full + 1, data =>
    storedBlock false (data.take storedLimit) ++ storedBlocks full (data.drop storedLimit)

/-- A zlib stream of stored blocks with the given data. -/
def deflate (data : Bytes) : Bytes :=
  [0x78, 0x01] ++ storedBlocks ((data.length - 1) / storedLimit) data ++
    (LittleEndian.encode 4 (Checksum.adler32 data)).reverse

end ChunkStore.Zlib
