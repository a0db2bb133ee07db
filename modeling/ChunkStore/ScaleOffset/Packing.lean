import ChunkStore.Bits
import ChunkStore.ScaleOffset.Parameters
import ChunkStore.ScaleOffset.Real

/-!
# Scale-offset packing

A packed chunk is a header of 21 bytes with the bits per element and the least value, and then the
distance of every element from the least value in that many bits, the most significant bit first.
Floats are scaled by a power of ten and rounded. When there is a fill value, the code of all
one-bits stands for it. A chunk whose distances need all the bits of an element is stored as it
is. `encode` packs a chunk and `decode` unpacks it, the codes byte by byte (`BitWriter.write`,
`unpackCodes`); `readCodes` are the codes that a payload has.
-/

namespace ChunkStore.ScaleOffset

/-- Bytes of the header. -/
def headerLength : Nat := 21

/-- The header: bits per element, a count of eight bytes, the least value, and zeros. -/
def header (minbits minval : Nat) : Bytes :=
  LittleEndian.encode 4 minbits ++ [8] ++ LittleEndian.encode 8 minval ++ List.replicate 8 0

/-- The number of all one-bits in `width` bits. -/
def allOnes (width : Nat) : Nat := 1 <<< width - 1

/-- What `code` becomes with the next `width` bits of the payload, from bit `bit` on, and where they
end. Each step takes what it can from one byte. -/
def readBits (payload : Array UInt8) (width bit code : Nat) : Except Error (Nat × Nat) :=
  if _more : 0 < width then
    match payload[bit / 8]? with
    | none => .error .outOfRange
    | some byte =>
      let offset := bit % 8
      let part := min (8 - offset) width
      let bits := byte.toNat >>> (8 - offset - part) &&& allOnes part
      readBits payload (width - part) (bit + part) ((code <<< part ||| bits) % UInt64.size)
  else .ok (code, bit)
termination_by width
decreasing_by
  have some := Nat.mod_lt bit (show 0 < 8 by decide)
  omega

/-- `count` codes of `width` bits, one after another from bit `bit` of the payload on. -/
def unpackCodes (payload : Array UInt8) (width : Nat) :
    (count bit : Nat) → Except Error (List Nat)
  | 0, _ => .ok []
  | count + 1, bit => do
    let (code, bit) ← readBits payload width bit 0
    return code :: (← unpackCodes payload width count bit)

/-- Bytes that are filled with bits. -/
structure BitWriter where
  out : Array UInt8
  /-- Bits written. -/
  bit : Nat

/-- Writes the lowest `width` bits of `value`, the most significant first. Each step puts what it
can into the last byte, and begins one when that is full. -/
def BitWriter.write (w : BitWriter) (value width : Nat) : BitWriter :=
  if _more : 0 < width then
    let offset := w.bit % 8
    let out := if offset = 0 then w.out.push 0 else w.out
    let part := min (8 - offset) width
    let bits := UInt8.ofNat (value >>> (width - part) &&& allOnes part)
    let shift := UInt8.ofNat (8 - offset - part)
    write ⟨out.modify (out.size - 1) (· ||| bits <<< shift), w.bit + part⟩ value (width - part)
  else w
termination_by width
decreasing_by
  have some := Nat.mod_lt w.bit (show 0 < 8 by decide)
  omega

/-- The first `count` codes of `width` bits in the payload. -/
def readCodes (width count : Nat) (payload : Bytes) : List Nat :=
  (takeChunks width count (Bits.unpack payload)).map Bits.toNumber

/-- The integer that the lowest `bits` bits of `n` hold, the highest being its sign. -/
def signExtend (bits n : Nat) : Int := Int.bmod n (1 <<< bits)

/-- An integer in 64 bits. -/
def toWord (n : Int) : Nat := (n % UInt64.size).toNat

/-- The element with the given code, in as many bits as an element has. -/
def reconstruct (p : Parameters) (minval code : Nat) : Nat :=
  match p.numberClass with
  | .integer => (code + minval) % 1 <<< p.bits
  | .float =>
    let scale := Real.powerOfTen p.scaleFactor.toInt
    let offset := Real.div (Real.ofInt64 (UInt64.ofNat code).toInt64) scale
    if p.size = 4 then
      (Real.toSingle (Real.add offset (Real.ofSingle (UInt32.ofNat minval)))).toNat
    else (Real.add offset (UInt64.ofNat minval)).toNat

/-- The element of a code: the fill value for the code of all one-bits, if there is one. -/
def valueOfCode (p : Parameters) (minbits minval code : Nat) : Nat :=
  match p.fillValue with
  | some fill => if code = allOnes minbits then fill else reconstruct p minval code
  | none => reconstruct p minval code

/-- Whole elements in the byte order of the dataset, from or to least significant first. -/
def convert (p : Parameters) (bytes : Bytes) : Except Error Bytes :=
  if p.swapsBytes then (Element.swap bytes p.size.toNat).mapError Error.ofElement else .ok bytes

/-- The chunk that a packed chunk holds. -/
def decode (input : Bytes) (p : Parameters) : Except Error Bytes := do
  p.validate
  if input.length < headerLength then
    throw (.unexpectedEnd headerLength input.length)
  let minbits := LittleEndian.decode (input.take 4)
  let minvalLength := min (input.getD 4 0).toNat 8
  let minval := LittleEndian.decode (slice input 5 minvalLength)
  let size := p.size.toNat
  let count := p.elementCount.toNat
  if p.bits < minbits then
    throw (.corrupt .scaleOffsetChunk (.packedWidth minbits p.bits))
  let payload := input.drop headerLength
  let needed := if minbits = p.bits then count * size else (count * minbits + 7) / 8
  if payload.length < needed then
    throw (.unexpectedEnd (headerLength + needed) input.length)
  if minbits = p.bits then convert p (payload.take needed)
  else
    let codes ← unpackCodes payload.toArray minbits count 0
    convert p
      (codes.flatMap fun code => LittleEndian.encode size (valueOfCode p minbits minval code))

/-- What is packed: the least value, and per element the distance from it or none for the fill
value. -/
structure Codes where
  minval : Nat
  codes : List (Option Nat)
  /-- The largest distance. -/
  span : Nat
  deriving Repr

/-- An element as a number to compare. -/
def key (p : Parameters) (element : Nat) : Int :=
  if p.signed then signExtend p.bits element else element

/-- The codes of integers. -/
def integerCodes (p : Parameters) (elements live : List Nat) : Option Codes := do
  let keys := live.map (key p)
  let least ← keys.min?
  let greatest ← keys.max?
  return {
    minval := toWord least
    codes := elements.map fun v =>
      if some v = p.fillValue then none else some (key p v - least).toNat
    span := (greatest - least).toNat }

/-- The number that an element's bits are. -/
def realOf (p : Parameters) (element : Nat) : Real :=
  if p.size = 4 then Real.ofSingle (UInt32.ofNat element) else UInt64.ofNat element

/-- The distance of an element from the least one, scaled and rounded. -/
def realCode (scale least element : Real) : Nat :=
  (Real.round (Real.mul (Real.sub element least) scale)).toUInt64.toNat

/-- The codes of floats. -/
def floatCodes (p : Parameters) (elements live : List Nat) : Option Codes :=
  let scale := Real.powerOfTen p.scaleFactor.toInt
  match live.map (realOf p) with
  | [] => none
  | first :: others =>
    let least := others.foldl Real.min first
    let codes := elements.map fun v =>
      if some v = p.fillValue then none else some (realCode scale least (realOf p v))
    some {
      minval := if p.size = 4 then (Real.toSingle least).toNat else least.toNat
      codes
      span := (codes.filterMap id).foldl max 0 }

/-- The codes of a chunk, or none when every element is the fill value. -/
def codesOf (p : Parameters) (elements : List Nat) : Option Codes :=
  let live := elements.filter fun v => some v ≠ p.fillValue
  match p.numberClass with
  | .integer => integerCodes p elements live
  | .float => floatCodes p elements live

/-- The fewest bits that hold `n`. -/
def bitLength (n : Nat) : Nat := if n = 0 then 0 else Nat.log2 n + 1

/-- Bits per code: enough for the largest distance, and for one code more if there is a fill
value. -/
def codeWidth (p : Parameters) (span : Nat) : Nat :=
  if p.fillValue.isNone then bitLength span
  else if span = maxWord then 64 else bitLength (span + 1)

/-- The packed form of a chunk. -/
def encode (input : Bytes) (p : Parameters) : Except Error Bytes := do
  p.validate
  let size := p.size.toNat
  let count := p.elementCount.toNat
  if input.length ≠ count * size then
    throw (.corrupt .scaleOffsetChunk (.inputLength input.length count size))
  let ordered ← convert p input
  match codesOf p ((chunksExact size ordered).map LittleEndian.decode) with
  | none => return header 0 0
  | some c =>
    let width := codeWidth p c.span
    if p.bits ≤ width then return header p.bits 0 ++ ordered
    let start : BitWriter := ⟨(header width c.minval).toArray, 0⟩
    let written := c.codes.foldl (fun w code => w.write (code.getD (allOnes width)) width) start
    return written.out.toList

end ChunkStore.ScaleOffset
