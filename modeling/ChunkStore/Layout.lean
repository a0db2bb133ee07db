import ChunkStore.Field
import ChunkStore.Grid.Coordinate

/-!
# The data layout message

The layout message says where a dataset's raw data lies: inside the message, in one piece, in
chunks or in other datasets. `DataLayout.parse` reads versions 1 to 4. `ChunkedLayout` describes
chunks: their shape, the index that finds them (`IndexParameters`) and its address;
`ChunkedLayout.encode` writes such a layout in version 3 for the version 1 B-tree and in version 4
for every other index.
-/

namespace ChunkStore

/-- The index that finds chunks, with the parameters that the message gives for it. -/
inductive IndexParameters where
  /-- A B-tree of version 1. -/
  | treeOne
  /-- One chunk; a filtered one comes with its stored size and filter mask. -/
  | single (filtered : Option (Nat × UInt32))
  /-- All chunks back to back. -/
  | implicit
  /-- A fixed array with `2 ^ pageBits` entries to a page. -/
  | fixedArray (pageBits : UInt8)
  /-- An extensible array. -/
  | extensibleArray (maxBits indexElements minPointers minElements pageBits : UInt8)
  /-- A B-tree of version 2. -/
  | treeTwo (nodeSize : UInt32) (splitPercent mergePercent : UInt8)
  deriving DecidableEq, Repr

/-- The index type of a version 4 message; the version 1 B-tree has none. -/
def IndexParameters.typeCode : IndexParameters → Option Nat
  | .treeOne => none
  | .single _ => some 1
  | .implicit => some 2
  | .fixedArray _ => some 3
  | .extensibleArray .. => some 4
  | .treeTwo .. => some 5

/-- Raw data in chunks. -/
structure ChunkedLayout where
  version : UInt8
  flags : UInt8
  /-- Elements of a chunk along each dimension. -/
  chunkDims : List Nat
  /-- Bytes of an element. -/
  elementSize : Nat
  index : IndexParameters
  /-- Where the index starts, or the only or first chunk. -/
  address : Nat
  deriving DecidableEq, Repr

/-- Where the raw data of a dataset lies. -/
inductive DataLayout where
  | compact (data : Bytes)
  | contiguous (address size : Nat)
  | chunked (layout : ChunkedLayout)
  | virtual
  deriving DecidableEq, Repr

namespace ChunkedLayout

/-- One unallocated chunk of one byte. -/
def default : ChunkedLayout := ⟨4, 0, [1], 1, .single none, undefinedAddress⟩

/-- Whether chunks that reach beyond the extent are stored without filters. -/
def skipsPartialChunks (l : ChunkedLayout) : Bool := l.flags &&& 1 != 0

end ChunkedLayout

namespace DataLayout

/-- The chunked layout, or an error that names the class. -/
def asChunked : DataLayout → Except Error ChunkedLayout
  | chunked layout => .ok layout
  | compact _ => .error (.unsupportedLayout .compact)
  | contiguous .. => .error (.unsupportedLayout .contiguous)
  | virtual => .error (.unsupportedLayout .virtual)

/-- The layout of chunks whose last dimension is the element size. -/
def ofDimensions (version flags : UInt8) (dims : List Nat) (index : IndexParameters)
    (address : Nat) : Except Error DataLayout :=
  let chunkDims := dims.dropLast
  let elementSize := dims.getLastD 0
  if dims.length < 2 then .error (.corrupt .dataLayout (.fewDimensions dims.length))
  else if elementSize = 0 ∨ UInt32.size ≤ elementSize ∨ 0 ∈ chunkDims then
    .error (.corrupt .dataLayout .chunkDimensionRange)
  else .ok (.chunked ⟨version, flags, chunkDims, elementSize, index, address⟩)

/-- The dimensions of a message, each in `width` bytes. -/
def dimensions (count width : Nat) : Parser (List Nat) := Parser.times (Parser.uint width) count

/-- A message of version 1 or 2 after its version. -/
def parserOne (version : UInt8) (widths : FileWidths) : Parser DataLayout := do
  let rank ← Parser.uint 1
  let code ← Parser.uint 1
  Parser.skip 5
  match code with
  | 0 =>
    Parser.skip (rank * 4)
    return .compact (← Parser.take (← Parser.uint 4))
  | 1 =>
    let address ← Parser.address widths
    let dims ← dimensions rank 4
    return .contiguous address (dims.foldl (fun size d => saturate (size * d)) 1)
  | 2 =>
    let address ← Parser.address widths
    ofDimensions version 0 (← dimensions rank 4) .treeOne address
  | code => throw (.invalidLayoutClass code)

/-- The chunked class of version 3. -/
def parserThree (widths : FileWidths) : Parser DataLayout := do
  let rank ← Parser.uint 1
  let address ← Parser.address widths
  ofDimensions 3 0 (← dimensions rank 4) .treeOne address

/-- The index type of version 4 with its parameters. -/
def indexParameters (flags : UInt8) (widths : FileWidths) : Parser IndexParameters := do
  match ← Parser.uint 1 with
  | 1 =>
    if flags &&& 2 = 0 then return .single none
    else
      let size ← Parser.length widths
      return .single (some (size, ← Parser.word32))
  | 2 => return .implicit
  | 3 => return .fixedArray (← Parser.byte)
  | 4 =>
    let maxBits ← Parser.byte
    let indexElements ← Parser.byte
    let minPointers ← Parser.byte
    let minElements ← Parser.byte
    return .extensibleArray maxBits indexElements minPointers minElements (← Parser.byte)
  | 5 =>
    let nodeSize ← Parser.word32
    let splitPercent ← Parser.byte
    return .treeTwo nodeSize splitPercent (← Parser.byte)
  | type => throw (.unsupportedIndex type)

/-- The chunked class of version 4. -/
def parserFour (widths : FileWidths) : Parser DataLayout := do
  let flags ← Parser.byte
  let rank ← Parser.uint 1
  let width ← Parser.uint 1
  if width = 0 ∨ 8 < width then throw (.corrupt .dataLayout (.dimensionWidth width))
  let dims ← dimensions rank width
  let index ← indexParameters flags widths
  ofDimensions 4 flags dims index (← Parser.address widths)

/-- A whole message. -/
def parser (widths : FileWidths) : Parser DataLayout := do
  let version ← Parser.byte
  if version = 1 ∨ version = 2 then parserOne version widths
  else if version = 3 ∨ version = 4 then
    match ← Parser.uint 1 with
    | 0 => return .compact (← Parser.take (← Parser.uint 2))
    | 1 =>
      let address ← Parser.address widths
      return .contiguous address (← Parser.length widths)
    | 2 => if version = 3 then parserThree widths else parserFour widths
    | code =>
      if code = 3 ∧ version = 4 then return .virtual else throw (.invalidLayoutClass code)
  else throw (.invalidLayoutVersion version.toNat)

/-- The layout that a message describes. -/
def parse (message : Bytes) (widths : FileWidths) : Except Error DataLayout :=
  (parser widths).parse message

end DataLayout

namespace ChunkedLayout

/-- The chunk's dimensions and the element size after them. -/
def allDims (l : ChunkedLayout) : List Nat := l.chunkDims ++ [l.elementSize]

/-- The version 3 message. -/
def encodeThree (l : ChunkedLayout) (widths : FileWidths) : Bytes :=
  [3, 2, UInt8.ofNat l.allDims.length] ++ LittleEndian.encode widths.offsetSize l.address ++
    l.allDims.flatMap (LittleEndian.encode 4)

/-- The parameters of an index, as version 4 writes them. -/
def encodeParameters (widths : FileWidths) : IndexParameters → Bytes
  | .treeOne | .implicit | .single none => []
  | .single (some (size, mask)) =>
    LittleEndian.encode widths.lengthSize size ++ LittleEndian.encode 4 mask.toNat
  | .fixedArray pageBits => [pageBits]
  | .extensibleArray maxBits indexElements minPointers minElements pageBits =>
    [maxBits, indexElements, minPointers, minElements, pageBits]
  | .treeTwo nodeSize splitPercent mergePercent =>
    LittleEndian.encode 4 nodeSize.toNat ++ [splitPercent, mergePercent]

/-- The flags that version 4 keeps: edge chunks unfiltered, and a filtered only chunk. -/
def encodedFlags (l : ChunkedLayout) : UInt8 :=
  match l.index with
  | .single (some _) => (l.flags &&& 1) ||| 2
  | _ => l.flags &&& 1

/-- Bytes of one dimension in version 4: the fewest that hold the largest. -/
def dimensionWidth (l : ChunkedLayout) : Nat := minByteCount (l.allDims.foldl max 0)

/-- The version 4 message. -/
def encodeFour (l : ChunkedLayout) (widths : FileWidths) : Bytes :=
  [4, 2, l.encodedFlags, UInt8.ofNat l.allDims.length, UInt8.ofNat l.dimensionWidth] ++
    l.allDims.flatMap (LittleEndian.encode l.dimensionWidth) ++
    [UInt8.ofNat (l.index.typeCode.getD 0)] ++ encodeParameters widths l.index ++
    LittleEndian.encode widths.offsetSize l.address

/-- The message of a chunked layout. -/
def encode (l : ChunkedLayout) (widths : FileWidths) : Bytes :=
  match l.index with
  | .treeOne => l.encodeThree widths
  | _ => l.encodeFour widths

end ChunkedLayout

end ChunkStore
