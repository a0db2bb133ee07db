import ChunkStore.Index.Basic

/-!
# The fixed array

A fixed array has one entry for every chunk of the largest extent. Its header names the number of
entries and the data block. A small array keeps all entries in the block; an array of more than
one page keeps there a bitmap of the pages in use, and the pages follow the block, each with a
checksum of its own. `entry` gives the descriptor under a number, and `lookup` the one of a
coordinate.
-/

namespace ChunkStore.Index

namespace FixedArray

/-- The bytes that open a header. -/
def headerSignature : Bytes := "FAHD".toUTF8.toList

/-- The bytes that open a data block. -/
def blockSignature : Bytes := "FADB".toUTF8.toList

/-- A decoded header. -/
structure Header where
  /-- Bytes of an entry. -/
  entrySize : Nat
  pageBits : UInt8
  /-- Number of entries. -/
  entries : Nat
  /-- Address of the data block. -/
  block : Nat
  deriving DecidableEq, Repr

namespace Header

/-- Entries of a full page. -/
def pageEntries (h : Header) : Nat := 1 <<< min h.pageBits.toNat 63

/-- Whether the entries lie in pages. -/
def isPaged (h : Header) : Bool := h.pageEntries < h.entries

/-- Number of pages. -/
def pageCount (h : Header) : Nat := (h.entries + h.pageEntries - 1) / h.pageEntries

/-- Bytes of the block between its prefix and its checksum. -/
def bodyLength (h : Header) : Nat :=
  if h.isPaged then (h.pageCount + 7) / 8 else saturate (h.entries * h.entrySize)

/-- Bytes from one page to the next. -/
def pageStride (h : Header) : Nat := saturate (saturate (h.pageEntries * h.entrySize) + 4)

end Header

/-- A decoded data block. -/
inductive Block where
  /-- All the entries. -/
  | unpaged (entries : List Descriptor)
  /-- Which pages are in use, and where the first one starts. -/
  | paged (bitmap : Bytes) (firstPage : Nat)
  deriving Repr

/-- Bytes of a header. -/
def headerLength (widths : FileWidths) : Nat := 8 + widths.lengthSize + widths.offsetSize + 4

/-- Bytes of a data block before its body. -/
def blockPrefix (widths : FileWidths) : Nat := 6 + widths.offsetSize

/-- A header at `address`. -/
def headerParser (s : Settings) (address : Nat) (image : Bytes) : Parser Header := do
  Parser.signature headerSignature .fixedArrayHeader
  Parser.version 0 .fixedArrayHeader
  s.client .fixedArrayHeader
  let entrySize ← arrayElementSize s (← Parser.uint 1)
  let pageBits ← Parser.byte
  let entries ← Parser.length s.widths
  let block ← Parser.address s.widths
  s.check image (← Parser.position) .fixedArrayHeader address
  return ⟨entrySize, pageBits, entries, block⟩

/-- The data block of the array with its header `h` at `address`. -/
def blockParser (s : Settings) (address : Nat) (h : Header) (image : Bytes) : Parser Block := do
  Parser.signature blockSignature .fixedArrayBlock
  Parser.version 0 .fixedArrayBlock
  s.client .fixedArrayBlock
  s.owner address .fixedArrayBlock
  let raw ← Parser.take h.bodyLength
  s.check image (← Parser.position) .fixedArrayBlock h.block
  if h.isPaged then return .paged raw (← Bounds.within (h.block + image.length))
  else return .unpaged (← arrayElements s h.entrySize raw)

end FixedArray

/-- A fixed array and what was decoded of it. -/
structure FixedArray where
  settings : Settings
  /-- Address of the header. -/
  address : Nat
  header : Option FixedArray.Header
  block : Option FixedArray.Block
  pages : Memo (List Descriptor)

namespace FixedArray

/-- The array at an address, of which nothing was decoded. -/
def ofAddress (settings : Settings) (address : Nat) : FixedArray :=
  ⟨settings, address, none, none, .empty⟩

/-- How many structures were decoded. -/
def decoded (a : FixedArray) : Nat :=
  a.header.isSome.toNat + a.block.isSome.toNat + a.pages.decoded

/-- The header. -/
def recallHeader (a : FixedArray) : Session FixedArray Header :=
  recallOne FixedArray.header (fun h a => { a with header := some h }) do
    let image ← Session.fetch a.address (headerLength a.settings.widths)
    Session.ofExcept ((headerParser a.settings a.address image).parse image)

/-- The data block. -/
def recallBlock (a : FixedArray) (h : Header) : Session FixedArray Block :=
  recallOne FixedArray.block (fun b a => { a with block := some b }) do
    let length := saturate (saturate (blockPrefix a.settings.widths + h.bodyLength) + 4)
    let image ← Session.fetch h.block length
    Session.ofExcept ((blockParser a.settings a.address h image).parse image)

/-- The entries of page `page`, when the first page starts at `firstPage`. -/
def recallPage (a : FixedArray) (h : Header) (firstPage page : Nat) :
    Session FixedArray (List Descriptor) := do
  let address := saturate (firstPage + saturate (page * h.pageStride))
  let before ← Bounds.within (page * h.pageEntries)
  let count := min h.pageEntries (← Bounds.sub h.entries before)
  Memo.recallAt FixedArray.pages (fun m a => { a with pages := m }) address
    (pageEntries a.settings .fixedArrayPage address count h.entrySize)

/-- The descriptor at entry `i`. -/
def entry (i : Nat) : Session FixedArray Descriptor := do
  let a ← get
  let h ← a.recallHeader
  if h.entries ≤ i ∨ h.block = undefinedAddress then return .undefined
  match ← a.recallBlock h with
  | .unpaged entries => return entries.getD i .undefined
  | .paged bitmap firstPage =>
    let page := i / h.pageEntries
    if !bitIsSet bitmap page then return .undefined
    let entries ← a.recallPage h firstPage page
    return entries.getD (i % h.pageEntries) .undefined

/-- The descriptor of the chunk at a coordinate. -/
def lookup (coordinate : Coordinate) : Session FixedArray Descriptor := do
  let a ← get
  if a.address = undefinedAddress ∨ !a.settings.geometry.withinMax coordinate then
    return .undefined
  entry (Coordinate.linearIndex coordinate a.settings.geometry.downMaxCounts)

end FixedArray

end ChunkStore.Index
