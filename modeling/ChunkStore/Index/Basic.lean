import ChunkStore.Field
import ChunkStore.Grid.Geometry
import ChunkStore.Source

/-!
# What every chunk index shares

An index answers a chunk coordinate with a `Descriptor`: where the chunk is stored, in how many
bytes and with which filters left out. `Settings` hold what an index knows of its dataset. A
structure of the file is decoded at most once per handle; a `Memo` keeps those of one kind by
their address.
-/

namespace ChunkStore

/-- Where one chunk is stored. -/
structure Descriptor where
  /-- File address, or `undefinedAddress` for a chunk that was never written. -/
  address : Nat
  /-- Bytes in the file, after the filters. -/
  storedSize : Nat
  /-- Bit `i` is set when the filter at place `i` was left out. -/
  filterMask : UInt32
  deriving DecidableEq, Repr

namespace Descriptor

/-- A chunk without storage. -/
def undefined : Descriptor := ⟨undefinedAddress, 0, 0⟩

/-- Whether the chunk has storage. -/
def isAllocated (d : Descriptor) : Bool := d.address ≠ undefinedAddress

end Descriptor

namespace Index

/-- What an index knows of its dataset. -/
structure Settings where
  widths : FileWidths
  geometry : Geometry
  /-- Elements of a chunk along each dimension. -/
  chunkDims : List Nat
  /-- Bytes of an element. -/
  elementSize : Nat
  /-- Whether chunks pass through filters. -/
  filtered : Bool
  /-- Whether the checksums of index structures are compared. -/
  verify : Bool
  deriving Repr

namespace Settings

/-- Bytes of an address. -/
def offsetSize (s : Settings) : Nat := s.widths.offsetSize

/-- The descriptor of an unfiltered chunk. -/
def plain (s : Settings) (address : Nat) : Descriptor :=
  if address = undefinedAddress then .undefined else ⟨address, s.geometry.chunkBytes, 0⟩

/-- The descriptor of a filtered chunk. -/
def stored (address storedSize : Nat) (filterMask : UInt32) : Descriptor :=
  if address = undefinedAddress then .undefined else ⟨address, storedSize, filterMask⟩

/-- Compares the checksum of a structure, where the settings ask for it. -/
def check (s : Settings) (image : Bytes) (covered : Nat) (part : Part) (address : Nat) :
    Except Error Unit :=
  if s.verify then verifyChecksum image covered part address else .ok ()

/-- Insists on the client that fits the dataset: 1 for a filtered one and 0 for another. -/
def client (s : Settings) (part : Part) : Parser Unit := do
  let id ← Parser.uint 1
  if id ≠ s.filtered.toNat then throw (.corrupt part (.clientId id s.filtered))

/-- Insists that a block belongs to the array with its header at `header`. -/
def owner (s : Settings) (header : Nat) (part : Part) : Parser Unit := do
  let found ← Parser.address s.widths
  if found ≠ header then throw (.corrupt part (.owner found header))

end Settings

/-- An entry of an array: an address and, for a filtered dataset, a size and a filter mask. -/
def arrayElement (s : Settings) (width : Nat) : Parser Descriptor := do
  let address ← Parser.address s.widths
  if !s.filtered then return s.plain address
  if width < s.offsetSize + 4 ∨ s.offsetSize + 12 < width then
    throw (.corrupt .indexElement (.filteredElement width))
  let storedSize ← Parser.uint (width - (s.offsetSize + 4))
  return Settings.stored address storedSize (← Parser.word32)

/-- The width of an array's entries, if it fits the dataset. -/
def arrayElementSize (s : Settings) (width : Nat) : Except Error Nat :=
  let fits :=
    if s.filtered then s.offsetSize + 4 < width ∧ width ≤ s.offsetSize + 12
    else width = s.offsetSize
  if fits then .ok width else .error (.corrupt .indexHeader (.elementWidth width s.offsetSize))

/-- The entries in `raw`, each of `width` bytes. -/
def arrayElements (s : Settings) (width : Nat) (raw : Bytes) : Except Error (List Descriptor) :=
  if width = 0 then .error .outOfRange
  else (chunksExact width raw).mapM (arrayElement s width).parse

/-- Bytes of `count` entries. -/
def byteSpan (count width : Nat) (part : Part) : Except Error Nat :=
  match checked (count * width) with
  | some bytes => .ok bytes
  | none => .error (.corrupt part (.entrySpan count width))

/-- Bit `i` of a bitmap that starts with the most significant bit of its first byte. -/
def bitIsSet (bitmap : Bytes) (i : Nat) : Bool :=
  match bitmap[i / 8]? with
  | some b => b.toNat.testBit (7 - i % 8)
  | none => false

/-- The entries of one page with its checksum. -/
def pageEntries (s : Settings) (part : Part) (address count width : Nat) {σ : Type} :
    Session σ (List Descriptor) := do
  let body ← Session.ofExcept (byteSpan count width part)
  let image ← Session.fetch address (saturate (body + 4))
  Session.ofExcept do
    s.check image body part address
    arrayElements s width (← Bounds.run image 0 body)

/-- The decoded structures of one kind. -/
structure Memo (α : Type) where
  items : List (Nat × α)
  /-- How many structures were decoded. -/
  decoded : Nat

namespace Memo

variable {α : Type}

/-- Nothing decoded yet. -/
def empty : Memo α := ⟨[], 0⟩

/-- The structure at an address, if it was decoded. -/
def get? (m : Memo α) (address : Nat) : Option α := m.items.lookup address

/-- Keeps the structure at an address. -/
def insert (m : Memo α) (address : Nat) (item : α) : Memo α :=
  ⟨(address, item) :: m.items, m.decoded + 1⟩

/-- The structure at an address, decoded by `read` when it is met for the first time. -/
def recallAt {σ : Type} (memo : σ → Memo α) (keep : Memo α → σ → σ) (address : Nat)
    (read : Session σ α) : Session σ α := do
  match (memo (← get)).get? address with
  | some item => return item
  | none =>
    let item ← read
    modify fun s => keep ((memo s).insert address item) s
    return item

end Memo

/-- A structure of which there is one, decoded by `read` when it is met for the first time. -/
def recallOne {σ α : Type} (held : σ → Option α) (keep : α → σ → σ) (read : Session σ α) :
    Session σ α := do
  match held (← get) with
  | some item => return item
  | none =>
    let item ← read
    modify (keep item)
    return item

end Index

end ChunkStore
