import ChunkStore.Error

/-!
# The widths of addresses and lengths in one file

A file fixes how many bytes an address and a length take: two, four or eight each.
`FileWidths.ofSizes` accepts just those counts, the address width first.
-/

namespace ChunkStore

/-- A width that addresses and lengths may have. -/
inductive IntWidth where
  | two
  | four
  | eight
  deriving DecidableEq, Repr

namespace IntWidth

/-- The width in bytes. -/
def bytes : IntWidth → Nat
  | two => 2
  | four => 4
  | eight => 8

/-- The width of `n` bytes, if there is one. -/
def ofBytes? : Nat → Option IntWidth
  | 2 => some two
  | 4 => some four
  | 8 => some eight
  | _ => none

@[simp] theorem ofBytes?_bytes (w : IntWidth) : ofBytes? w.bytes = some w := by cases w <;> rfl

theorem bytes_pos (w : IntWidth) : 0 < w.bytes := by cases w <;> decide

theorem bytes_le (w : IntWidth) : w.bytes ≤ 8 := by cases w <;> decide

end IntWidth

/-- How many bytes an address and a length take in a file. -/
structure FileWidths where
  offset : IntWidth
  length : IntWidth
  deriving DecidableEq, Repr

namespace FileWidths

/-- Eight bytes for either. -/
def default : FileWidths := ⟨.eight, .eight⟩

instance : Inhabited FileWidths := ⟨default⟩

/-- The widths of the given counts of bytes. -/
def ofSizes (offsetSize lengthSize : Nat) : Except Error FileWidths :=
  match IntWidth.ofBytes? offsetSize, IntWidth.ofBytes? lengthSize with
  | none, _ => .error (.invalidOffsetSize offsetSize)
  | some _, none => .error (.invalidLengthSize lengthSize)
  | some offset, some length => .ok ⟨offset, length⟩

/-- Bytes of an address. -/
def offsetSize (w : FileWidths) : Nat := w.offset.bytes

/-- Bytes of a length. -/
def lengthSize (w : FileWidths) : Nat := w.length.bytes

end FileWidths

end ChunkStore
