import ChunkStore.Index.Basic

/-!
# The extensible array

An extensible array grows along one unlimited dimension. Its first entries lie in the index block;
the others lie in data blocks, grouped into secondary blocks of which number `i` has `2 ^ (i / 2)`
data blocks of `2 ^ ((i + 1) / 2) * minElements` entries each. The addresses of the data blocks of
the first groups are in the index block itself, those of later groups in secondary blocks of their
own. A data block of more than one page is kept in pages. `Header.locate` says where an index
lies, and `lookup` goes there.
-/

namespace ChunkStore.Index

namespace ExtensibleArray

/-- A group of data blocks of one size. -/
structure Group where
  /-- Data blocks in the group. -/
  blocks : Nat
  /-- Entries of each. -/
  blockEntries : Nat
  /-- The first index in the group, counted from the end of the index block's entries. -/
  startIndex : Nat
  /-- The number of the group's first data block. -/
  startBlock : Nat
  deriving DecidableEq, Repr

/-- A decoded header. -/
structure Header where
  /-- Bytes of an entry. -/
  entrySize : Nat
  /-- Bits of the largest index. -/
  maxBits : Nat
  /-- Entries in the index block. -/
  indexElements : Nat
  /-- Entries of the smallest data blocks. -/
  minElements : Nat
  /-- Data block addresses of the smallest secondary block. -/
  minPointers : Nat
  pageBits : Nat
  /-- One more than the largest index in use. -/
  maxIndexSet : Nat
  /-- Address of the index block. -/
  indexBlock : Nat
  groups : List Group
  deriving DecidableEq, Repr

namespace Header

/-- Bytes of an offset within the array. -/
def offsetWidth (h : Header) : Nat := (h.maxBits + 7) / 8

/-- Entries of a page. -/
def pageEntries (h : Header) : Nat := 1 <<< min h.pageBits 63

/-- Groups whose data blocks the index block names. -/
def directGroups (h : Header) : Nat := 2 * Nat.log2 h.minPointers

/-- Data blocks that the index block names. -/
def directBlocks (h : Header) : Nat := 2 * (h.minPointers - 1)

/-- Groups that have a secondary block. -/
def indirectGroups (h : Header) : Nat := h.groups.length - h.directGroups

/-- Pages of a data block, or 0 for a block that is not paged. -/
def pagesPerBlock (h : Header) (blockEntries : Nat) : Nat :=
  if h.pageEntries < blockEntries then blockEntries / h.pageEntries else 0

/-- Bytes of a secondary or data block before its body, and of its checksum. -/
def blockOverhead (h : Header) (offsetSize : Nat) : Nat := 6 + offsetSize + h.offsetWidth + 4

/-- Bytes from one page to the next. -/
def pageStride (h : Header) : Nat := saturate (saturate (h.pageEntries * h.entrySize) + 4)

end Header

/-- The place of an index in the array. -/
inductive Place where
  /-- An entry of the index block. -/
  | inIndexBlock (slot : Nat)
  /-- Beyond the last group. -/
  | beyond
  /-- An entry of a data block that the index block names. -/
  | direct (group : Group) (block offset : Nat)
  /-- An entry of a data block that secondary block number `secondary` names. -/
  | indirect (group : Group) (secondary block offset : Nat)
  deriving DecidableEq, Repr

/-- The place of the entry with number `within` in group `number`. -/
def Header.placeIn (h : Header) (group : Group) (number within : Nat) : Except Error Place := do
  let block ← Bounds.div within group.blockEntries
  let offset := within % group.blockEntries
  if number < h.directGroups then
    return .direct group (saturate (group.startBlock + block)) offset
  else return .indirect group (number - h.directGroups) block offset

/-- The place of an index. -/
def Header.locate (h : Header) (i : Nat) : Except Error Place := do
  if i < h.indexElements then return .inIndexBlock i
  let relative := i - h.indexElements
  let quotient ← Bounds.div relative h.minElements
  let number := Nat.log2 (← Bounds.within (quotient + 1))
  match h.groups[number]? with
  | none => return .beyond
  | some group =>
    if relative < group.startIndex then return .beyond
    h.placeIn group number (relative - group.startIndex)

/-- A decoded index block. -/
structure IndexBlock where
  entries : List Descriptor
  /-- Addresses of data blocks. -/
  dataBlocks : List Nat
  /-- Addresses of secondary blocks. -/
  secondaryBlocks : List Nat
  deriving DecidableEq, Repr

/-- A decoded secondary block. -/
structure SecondaryBlock where
  /-- Which pages are in use, block by block. -/
  pagesInUse : Bytes
  /-- Addresses of data blocks. -/
  dataBlocks : List Nat
  deriving DecidableEq, Repr

/-- The group of number `number`, after groups that end where it starts. -/
def groupAt (minElements number startIndex startBlock : Nat) : Group where
  blocks := 1 <<< (number / 2)
  blockEntries := saturate (minElements <<< ((number + 1) / 2))
  startIndex
  startBlock

/-- `count` groups from number `number` on. -/
def groupsFrom (minElements : Nat) : (count number startIndex startBlock : Nat) → List Group
  | 0, _, _, _ => []
  | count + 1, number, startIndex, startBlock =>
    let group := groupAt minElements number startIndex startBlock
    group :: groupsFrom minElements count (number + 1)
      (saturate (startIndex + saturate (group.blocks * group.blockEntries)))
      (saturate (startBlock + group.blocks))

/-- All the groups of an array with `maxBits` bits of index. -/
def groupTable (maxBits minElements : Nat) : Except Error (List Group) :=
  let minBits := Nat.log2 minElements
  if maxBits < minBits ∨ 64 < maxBits then
    .error (.corrupt .extensibleArrayHeader (.indexBits maxBits minElements))
  else .ok (groupsFrom minElements (1 + (maxBits - minBits)) 0 0 0)

/-- Whether `n` is a power of two. -/
def isPowerOfTwo (n : Nat) : Bool := n ≠ 0 && 1 <<< Nat.log2 n = n

/-- Bytes of a header. -/
def headerLength (widths : FileWidths) : Nat :=
  12 + 6 * widths.lengthSize + widths.offsetSize + 4

/-- A header at `address`. -/
def headerParser (s : Settings) (address : Nat) (image : Bytes) : Parser Header := do
  Parser.signature "EAHD".toUTF8.toList .extensibleArrayHeader
  Parser.version 0 .extensibleArrayHeader
  s.client .extensibleArrayHeader
  let entrySize ← arrayElementSize s (← Parser.uint 1)
  let maxBits ← Parser.uint 1
  let indexElements ← Parser.uint 1
  let minElements ← Parser.uint 1
  let minPointers ← Parser.uint 1
  let pageBits ← Parser.uint 1
  if !isPowerOfTwo minElements then
    throw (.corrupt .extensibleArrayHeader (.blockSizeNotPowerOfTwo minElements))
  if !isPowerOfTwo minPointers then
    throw (.corrupt .extensibleArrayHeader (.pointerCountNotPowerOfTwo minPointers))
  -- Numbers and sizes of secondary blocks and of data blocks.
  let _ ← Parser.times (Parser.length s.widths) 4
  let maxIndexSet ← Parser.length s.widths
  -- Number of entries.
  let _ ← Parser.length s.widths
  let indexBlock ← Parser.address s.widths
  s.check image (← Parser.position) .extensibleArrayHeader address
  let groups ← groupTable maxBits minElements
  return {
    entrySize, maxBits, indexElements, minElements, minPointers, pageBits, maxIndexSet,
    indexBlock, groups }

/-- What opens every block: signature, version, client and the header that owns it. -/
def blockStart (s : Settings) (signature : String) (part : Part) (header : Nat) :
    Parser Unit := do
  Parser.signature signature.toUTF8.toList part
  Parser.version 0 part
  s.client part
  s.owner header part

/-- One entry of an index block. -/
def entryParser (s : Settings) (h : Header) : Parser Descriptor := do
  (arrayElement s h.entrySize).parse (← Parser.take h.entrySize)

/-- The index block of the array with its header `h` at `address`. -/
def indexBlockParser (s : Settings) (address : Nat) (h : Header) (image : Bytes) :
    Parser IndexBlock := do
  blockStart s "EAIB" .extensibleArrayIndexBlock address
  let entries ← Parser.times (entryParser s h) h.indexElements
  let dataBlocks ← Parser.times (Parser.address s.widths) h.directBlocks
  let secondaryBlocks ← Parser.times (Parser.address s.widths) h.indirectGroups
  s.check image (← Parser.position) .extensibleArrayIndexBlock h.indexBlock
  return ⟨entries, dataBlocks, secondaryBlocks⟩

/-- Bytes of the bitmap of pages in use, for a group. -/
def bitmapLength (h : Header) (group : Group) : Except Error Nat :=
  let pages := h.pagesPerBlock group.blockEntries
  if pages = 0 then .ok 0
  else byteSpan group.blocks ((pages + 7) / 8) .extensibleArraySecondaryBlock

/-- The secondary block at `own` of a group with a bitmap of `bitmap` bytes. -/
def secondaryBlockParser (s : Settings) (address : Nat) (h : Header) (group : Group)
    (bitmap own : Nat) (image : Bytes) : Parser SecondaryBlock := do
  blockStart s "EASB" .extensibleArraySecondaryBlock address
  Parser.skip h.offsetWidth
  let pagesInUse ← Parser.take bitmap
  let dataBlocks ← Parser.times (Parser.address s.widths) group.blocks
  s.check image (← Parser.position) .extensibleArraySecondaryBlock own
  return ⟨pagesInUse, dataBlocks⟩

/-- The entries, `body` bytes of them, of the data block at `own`. -/
def dataBlockParser (s : Settings) (address : Nat) (h : Header) (body own : Nat)
    (image : Bytes) : Parser (List Descriptor) := do
  blockStart s "EADB" .extensibleArrayDataBlock address
  Parser.skip h.offsetWidth
  let raw ← Parser.take body
  s.check image (← Parser.position) .extensibleArrayDataBlock own
  arrayElements s h.entrySize raw

end ExtensibleArray

/-- An extensible array and what was decoded of it. -/
structure ExtensibleArray where
  settings : Settings
  /-- Address of the header. -/
  address : Nat
  header : Option ExtensibleArray.Header
  indexBlock : Option ExtensibleArray.IndexBlock
  secondaryBlocks : Memo ExtensibleArray.SecondaryBlock
  dataBlocks : Memo (List Descriptor)
  pages : Memo (List Descriptor)

namespace ExtensibleArray

/-- The array at an address, of which nothing was decoded. -/
def ofAddress (settings : Settings) (address : Nat) : ExtensibleArray :=
  ⟨settings, address, none, none, .empty, .empty, .empty⟩

/-- How many structures were decoded. -/
def decoded (a : ExtensibleArray) : Nat :=
  a.header.isSome.toNat + a.indexBlock.isSome.toNat + a.secondaryBlocks.decoded +
    a.dataBlocks.decoded + a.pages.decoded

/-- The dimension along which the array grows: the first unlimited one, or else the first. -/
def growthDimension (g : Geometry) : Nat := (g.scaledMaxDims.idxOf? unlimited).getD 0

/-- The index of the chunk at a coordinate: the growing dimension counts most. -/
def linearIndex (g : Geometry) (coordinate : Coordinate) : Nat :=
  let k := growthDimension g
  if 0 < k then
    Coordinate.linearIndex (Coordinate.moveToFront k coordinate)
      (Coordinate.downCounts (Coordinate.moveToFront k g.scaledMaxDims))
  else Coordinate.linearIndex coordinate g.downMaxCounts

/-- A first dimension that grows is before the others already. -/
theorem linearIndex_eq (g : Geometry) (coordinate : Coordinate) :
    linearIndex g coordinate =
      Coordinate.linearIndex (Coordinate.moveToFront (growthDimension g) coordinate)
        (Coordinate.downCounts (Coordinate.moveToFront (growthDimension g) g.scaledMaxDims)) := by
  unfold linearIndex
  rcases Nat.eq_zero_or_pos (growthDimension g) with first | later
  · rw [first, Coordinate.moveToFront_zero, Coordinate.moveToFront_zero]
    rfl
  · exact if_pos later

/-- The header. -/
def recallHeader (a : ExtensibleArray) : Session ExtensibleArray Header :=
  recallOne ExtensibleArray.header (fun h a => { a with header := some h }) do
    let image ← Session.fetch a.address (headerLength a.settings.widths)
    Session.ofExcept ((headerParser a.settings a.address image).parse image)

/-- The index block. -/
def recallIndexBlock (a : ExtensibleArray) (h : Header) : Session ExtensibleArray IndexBlock :=
  recallOne ExtensibleArray.indexBlock (fun b a => { a with indexBlock := some b }) do
    let addresses := h.directBlocks + h.indirectGroups
    let offsetSize := a.settings.offsetSize
    let length ← Bounds.within
      (6 + offsetSize + h.indexElements * h.entrySize + addresses * offsetSize + 4)
    let image ← Session.fetch h.indexBlock length
    Session.ofExcept ((indexBlockParser a.settings a.address h image).parse image)

/-- The secondary block of a group, at address `own`. -/
def recallSecondaryBlock (a : ExtensibleArray) (h : Header) (group : Group) (own : Nat) :
    Session ExtensibleArray SecondaryBlock :=
  Memo.recallAt ExtensibleArray.secondaryBlocks (fun m a => { a with secondaryBlocks := m }) own do
    let offsetSize := a.settings.offsetSize
    let bitmap ← Session.ofExcept (bitmapLength h group)
    let pointers ←
      Session.ofExcept (byteSpan group.blocks offsetSize .extensibleArraySecondaryBlock)
    let image ← Session.fetch own
      (saturate (saturate (h.blockOverhead offsetSize + bitmap) + pointers))
    Session.ofExcept
      ((secondaryBlockParser a.settings a.address h group bitmap own image).parse image)

/-- The entries of the data block at address `own`. -/
def recallDataBlock (a : ExtensibleArray) (h : Header) (blockEntries own : Nat) :
    Session ExtensibleArray (List Descriptor) :=
  Memo.recallAt ExtensibleArray.dataBlocks (fun m a => { a with dataBlocks := m }) own do
    let body ← Session.ofExcept (byteSpan blockEntries h.entrySize .extensibleArrayDataBlock)
    let image ← Session.fetch own (saturate (h.blockOverhead a.settings.offsetSize + body))
    Session.ofExcept ((dataBlockParser a.settings a.address h body own image).parse image)

/-- The entries of page `page` of the data block at `block`. -/
def recallPage (a : ExtensibleArray) (h : Header) (block page : Nat) :
    Session ExtensibleArray (List Descriptor) :=
  let address :=
    saturate (saturate (block + h.blockOverhead a.settings.offsetSize) +
      saturate (page * h.pageStride))
  Memo.recallAt ExtensibleArray.pages (fun m a => { a with pages := m }) address
    (pageEntries a.settings .extensibleArrayPage address h.pageEntries h.entrySize)

/-- Entry `offset` of the data block at `block`, which may be kept in pages. -/
def blockEntry (a : ExtensibleArray) (h : Header) (block blockEntries offset : Nat) :
    Session ExtensibleArray Descriptor := do
  if h.pagesPerBlock blockEntries = 0 then
    return (← a.recallDataBlock h blockEntries block).getD offset .undefined
  else
    let entries ← a.recallPage h block (offset / h.pageEntries)
    return entries.getD (offset % h.pageEntries) .undefined

/-- The entry at a place of the array. -/
def entryAt (a : ExtensibleArray) (h : Header) (b : IndexBlock) :
    Place → Session ExtensibleArray Descriptor
  | .inIndexBlock slot => Bounds.item b.entries slot
  | .beyond => return .undefined
  | .direct group block offset => do
    let address := b.dataBlocks.getD block undefinedAddress
    if address = undefinedAddress then return .undefined
    a.blockEntry h address group.blockEntries offset
  | .indirect group secondary block offset => do
    let own := b.secondaryBlocks.getD secondary undefinedAddress
    if own = undefinedAddress then return .undefined
    let sb ← a.recallSecondaryBlock h group own
    let address := sb.dataBlocks.getD block undefinedAddress
    if address = undefinedAddress then return .undefined
    let pages := h.pagesPerBlock group.blockEntries
    let page := saturate (saturate (block * pages) + offset / h.pageEntries)
    if pages ≠ 0 ∧ !bitIsSet sb.pagesInUse page then return .undefined
    a.blockEntry h address group.blockEntries offset

/-- The descriptor at entry `i`. -/
def entry (i : Nat) : Session ExtensibleArray Descriptor := do
  let a ← get
  let h ← a.recallHeader
  if h.maxIndexSet ≤ i ∨ h.indexBlock = undefinedAddress then return .undefined
  let b ← a.recallIndexBlock h
  a.entryAt h b (← h.locate i)

/-- The descriptor of the chunk at a coordinate. -/
def lookup (coordinate : Coordinate) : Session ExtensibleArray Descriptor := do
  let a ← get
  if a.address = undefinedAddress ∨ !a.settings.geometry.withinMax coordinate then
    return .undefined
  entry (linearIndex a.settings.geometry coordinate)

end ExtensibleArray

end ChunkStore.Index
