import ChunkStore.Bytes
import ChunkStore.Zlib.Huffman

/-!
# Inflating deflate blocks

A deflate stream is a run of bits, the least significant bit of each byte first, cut into blocks.
A block is stored as it is or coded with prefix codes for literal bytes and for copies of earlier
output. `Inflate.blocks` decodes blocks up to the last one; it keeps what has been decoded when the
bits turn out to be invalid (`Fault.corrupt`) or end too early (`Fault.incomplete`). Where the
format leaves room, `Rules` says what is taken: a history of zeros before the first byte, and codes
of one word.
-/

namespace ChunkStore.Zlib

/-- Why decoding stops before the end of the stream. -/
inductive Fault where
  /-- The bits are no deflate stream. -/
  | corrupt
  /-- The bits end before the stream does. -/
  | incomplete
  deriving DecidableEq, Repr

/-- What is taken where the format leaves room. -/
structure Rules where
  /-- Whether a copy may reach back before the first byte, where there are zeros. -/
  zerosBefore : Bool
  /-- The longest word of a code that has only one. -/
  loneWord : Nat
  deriving DecidableEq, Repr

/-- The rules of a decoder with a window of zeros at the start, which slides over the output. -/
def Rules.windowed : Rules := ⟨true, 1⟩

/-- The rules of a decoder that has the output itself as its history. -/
def Rules.whole : Rules := ⟨false, Tree.maxLength⟩

/-- Bits still ahead, and the bytes decoded so far. -/
structure Inflater where
  bits : List Bool
  output : Array UInt8
  deriving Repr

/-- A step of decoding; what is decoded survives a fault. -/
abbrev Inflate := ExceptT Fault (StateM Inflater)

/-- The bits of a byte, the least significant first. -/
def bitsOfByte (b : UInt8) : List Bool := (List.range 8).map b.toNat.testBit

/-- The bits of a run of bytes. -/
def bitsOf (bytes : Bytes) : List Bool := bytes.flatMap bitsOfByte

/-- The number with the given bits, the least significant first. -/
def numberOfBits (bits : List Bool) : Nat := bits.foldr (fun bit n => bit.toNat + 2 * n) 0

namespace Inflate

/-- The number in the next `count` bits. -/
def number (count : Nat) : Inflate Nat := do
  let s ← get
  let taken := s.bits.take count
  if taken.length < count then
    set { s with bits := [] }
    throw .incomplete
  set { s with bits := s.bits.drop count }
  return numberOfBits taken

/-- Passes over the bits left in the current byte. -/
def alignToByte : Inflate Unit :=
  modify fun s => { s with bits := s.bits.drop (s.bits.length % 8) }

/-- The next symbol of a prefix code. -/
def symbol (tree : Tree) : Inflate Nat := do
  let s ← get
  match tree.decode s.bits with
  | .symbol symbol rest =>
    set { s with bits := rest }
    return symbol
  | .bitsEnd => throw .incomplete
  | .noWord => throw .corrupt

/-- Puts out one byte. -/
def emit (b : UInt8) : Inflate Unit := modify fun s => { s with output := s.output.push b }

/-- The byte that was put out `distance` bytes before; zero before the first one. -/
def history (output : Array UInt8) (distance : Nat) : UInt8 :=
  if output.size < distance then 0 else output.getD (output.size - distance) 0

/-- Puts out `length` bytes, each the one that was put out `distance` bytes before. -/
def copy (distance : Nat) : (length : Nat) → Inflate Unit
  | 0 => return ()
  | length + 1 => do
    emit (history (← get).output distance)
    copy distance length

/-- Puts out the next `length` bytes of the stream. -/
def stored : (length : Nat) → Inflate Unit
  | 0 => return ()
  | length + 1 => do
    emit (UInt8.ofNat (← number 8))
    stored length

/-- The shortest copy and the extra bits of length symbols 257 to 285. -/
def lengthTable : List (Nat × Nat) :=
  [(3, 0), (4, 0), (5, 0), (6, 0), (7, 0), (8, 0), (9, 0), (10, 0), (11, 1), (13, 1), (15, 1),
   (17, 1), (19, 2), (23, 2), (27, 2), (31, 2), (35, 3), (43, 3), (51, 3), (59, 3), (67, 4),
   (83, 4), (99, 4), (115, 4), (131, 5), (163, 5), (195, 5), (227, 5), (258, 0)]

/-- The nearest distance and the extra bits of distance symbols 0 to 29. -/
def distanceTable : List (Nat × Nat) :=
  [(1, 0), (2, 0), (3, 0), (4, 0), (5, 1), (7, 1), (9, 2), (13, 2), (17, 3), (25, 3), (33, 4),
   (49, 4), (65, 5), (97, 5), (129, 6), (193, 6), (257, 7), (385, 7), (513, 8), (769, 8),
   (1025, 9), (1537, 9), (2049, 10), (3073, 10), (4097, 11), (6145, 11), (8193, 12), (12289, 12),
   (16385, 13), (24577, 13)]

/-- The number that a symbol of `table` stands for, with its extra bits. -/
def tabulated (table : List (Nat × Nat)) (index : Nat) : Inflate Nat :=
  match table[index]? with
  | none => throw .corrupt
  | some (least, extra) => do return least + (← number extra)

/-- The codes of one block. -/
structure Codes where
  literals : Tree
  distances : Tree

/-- Decodes symbols up to the end of the block; every symbol takes a bit at least, so `fuel` bits
suffice. -/
def coded (rules : Rules) (codes : Codes) : (fuel : Nat) → Inflate Unit
  | 0 => throw .incomplete
  | fuel + 1 => do
    let next ← symbol codes.literals
    if next < 256 then
      emit (UInt8.ofNat next)
      coded rules codes fuel
    else if next = 256 then return ()
    else
      let length ← tabulated lengthTable (next - 257)
      let distance ← tabulated distanceTable (← symbol codes.distances)
      if !rules.zerosBefore && (← get).output.size < distance then throw .corrupt
      copy distance length
      coded rules codes fuel

/-- The codes of blocks that bring none of their own. -/
def fixedCodes : Codes where
  literals := .ofLengths (List.replicate 144 8 ++ List.replicate 112 9 ++ List.replicate 24 7 ++
    List.replicate 8 8)
  distances := .ofLengths (List.replicate 32 5)

/-- The symbols of the code for code lengths, in the order in which their lengths are sent. -/
def lengthOrder : List Nat := [16, 17, 18, 0, 8, 7, 9, 6, 10, 5, 11, 4, 12, 3, 13, 2, 14, 1, 15]

/-- Reads code lengths until there are `total`; symbols 16 to 18 repeat one. -/
def codeLengths (tree : Tree) (total : Nat) : (fuel : Nat) → (lengths : Array Nat) →
    Inflate (Array Nat)
  | 0, _ => throw .incomplete
  | fuel + 1, lengths => do
    if total ≤ lengths.size then return lengths
    let next ← symbol tree
    if next < 16 then codeLengths tree total fuel (lengths.push next)
    else if next = 16 then
      match lengths.back? with
      | none => throw .corrupt
      | some last =>
        codeLengths tree total fuel (lengths ++ Array.replicate (3 + (← number 2)) last)
    else
      let count ← if next = 17 then (3 + ·) <$> number 3 else (11 + ·) <$> number 7
      codeLengths tree total fuel (lengths ++ Array.replicate count 0)

/-- `count` numbers of three bits. -/
def lengthLengths : (count : Nat) → Inflate (List Nat)
  | 0 => return []
  | count + 1 => return (← number 3) :: (← lengthLengths count)

/-- The codes that a block brings. -/
def ownCodes (rules : Rules) : Inflate Codes := do
  let literalCount := 257 + (← number 5)
  let distanceCount := 1 + (← number 5)
  let lengthCount := 4 + (← number 4)
  if 286 < literalCount ∨ 30 < distanceCount then throw .corrupt
  let sent := lengthOrder.zip (← lengthLengths lengthCount)
  let lengths := (List.range 19).map fun symbol => (sent.lookup symbol).getD 0
  if Tree.covered lengths ≠ 1 <<< Tree.maxLength then throw .corrupt
  let total := literalCount + distanceCount
  let all := (← codeLengths (.ofLengths lengths) total (total + 1) #[]).toList
  if all.length ≠ total then throw .corrupt
  let literals := all.take literalCount
  let distances := all.drop literalCount
  if !(Tree.wellFormed rules.loneWord literals && Tree.wellFormed rules.loneWord distances) then
    throw .corrupt
  return ⟨.ofLengths literals, .ofLengths distances⟩

/-- One block; the result says whether it is the last. -/
def block (rules : Rules) : Inflate Bool := do
  let last ← number 1
  match ← number 2 with
  | 0 =>
    alignToByte
    let length ← number 16
    let complement ← number 16
    if length + complement ≠ 0xffff then throw .corrupt
    stored length
  | 1 => coded rules fixedCodes ((← get).bits.length + 1)
  | 2 =>
    let codes ← ownCodes rules
    coded rules codes ((← get).bits.length + 1)
  | _ => throw .corrupt
  return last = 1

/-- Blocks up to the last; every block takes three bits at least, so `fuel` bits suffice. -/
def blocks (rules : Rules) : (fuel : Nat) → Inflate Unit
  | 0 => throw .incomplete
  | fuel + 1 => do if !(← block rules) then blocks rules fuel

end Inflate

end ChunkStore.Zlib
