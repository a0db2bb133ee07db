import ChunkStore.Bounds
import ChunkStore.Checksum.Lookup3
import ChunkStore.FileWidths

/-!
# Fields of a structure, read in order

A `Parser` walks over the bytes of one structure and fails where they end. All integers are
little-endian. `address` reads a file address, in which all one-bits of any width mean
`undefinedAddress`; `signature` and `version` insist on what they expect; `verifyChecksum`
compares the lookup3 hash of the first bytes of a structure with the word after them.
-/

namespace ChunkStore

/-- The address of what was never allocated. -/
def undefinedAddress : Nat := maxWord

/-- Where a parser stands in a structure. -/
structure Cursor where
  /-- Bytes already read. -/
  position : Nat
  /-- Bytes still ahead. -/
  rest : Bytes
  deriving Repr

/-- A computation that reads fields one after another. -/
abbrev Parser := StateT Cursor (Except Error)

namespace Parser

/-- The value that `p` reads from the front of `bytes`; what it leaves unread is ignored. -/
def parse {α : Type} (p : Parser α) (bytes : Bytes) : Except Error α :=
  (p.run ⟨0, bytes⟩).map Prod.fst

/-- How many bytes have been read. -/
def position : Parser Nat := do return (← get).position

/-- The next `n` bytes. -/
def take (n : Nat) : Parser Bytes := fun c =>
  let taken := c.rest.take n
  if taken.length = n then .ok (taken, ⟨c.position + n, c.rest.drop n⟩)
  else .error (.unexpectedEnd (saturate (c.position + n)) (c.position + c.rest.length))

/-- Passes over `n` bytes. -/
def skip (n : Nat) : Parser Unit := discard (take n)

/-- An integer of `size` bytes; eight are the most. -/
def uint (size : Nat) : Parser Nat := do
  if size > 8 then throw (.corrupt .field (.wideInteger size))
  return LittleEndian.decode (← take size)

/-- One byte. -/
def byte : Parser UInt8 := return UInt8.ofNat (← uint 1)

/-- An integer of two bytes. -/
def word16 : Parser UInt16 := return UInt16.ofNat (← uint 2)

/-- An integer of four bytes. -/
def word32 : Parser UInt32 := return UInt32.ofNat (← uint 4)

/-- The address that `raw` holds: all one-bits are the undefined one. -/
def addressOf (raw : Bytes) : Nat :=
  if raw.all (· == 0xff) then undefinedAddress else LittleEndian.decode raw

/-- A file address. -/
def address (widths : FileWidths) : Parser Nat := return addressOf (← take widths.offsetSize)

/-- A file length. -/
def length (widths : FileWidths) : Parser Nat := uint widths.lengthSize

/-- `p`, `count` times. -/
def times {α : Type} (p : Parser α) : (count : Nat) → Parser (List α)
  | 0 => return []
  | count + 1 => return (← p) :: (← times p count)

/-- The four bytes that open a structure. -/
def signature (expected : Bytes) (part : Part) : Parser Unit := do
  let found ← take 4
  if found ≠ expected then throw (.badSignature part found)

/-- The version byte of a structure. -/
def version (expected : UInt8) (part : Part) : Parser Unit := do
  let found ← byte
  if found ≠ expected then throw (.unsupportedVersion part found.toNat)

end Parser

/-- Compares the word after the first `covered` bytes of a structure with their lookup3 hash. -/
def verifyChecksum (image : Bytes) (covered : Nat) (part : Part) (address : Nat) :
    Except Error Unit := do
  let stop ← Bounds.within (covered + 4)
  let word := slice image covered 4
  if word.length < 4 then throw (.unexpectedEnd stop image.length)
  let stored := UInt32.ofNat (LittleEndian.decode word)
  let computed := Checksum.lookup3 (image.take covered)
  if stored ≠ computed then throw (.checksumMismatch part address stored computed)

/-- `bytes` followed by their lookup3 hash. -/
def withChecksum (bytes : Bytes) : Bytes :=
  bytes ++ LittleEndian.encode 4 (Checksum.lookup3 bytes).toNat

end ChunkStore
