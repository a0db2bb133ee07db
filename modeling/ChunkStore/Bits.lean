import ChunkStore.Bytes

/-!
# Bits packed into bytes

Bitmaps and packed numbers fill each byte from its most significant bit. `Bits.ofNumber` and
`Bits.toNumber` turn a number into bits and back, the most significant first; `Bits.pack` fills
bytes with bits, the last byte up with zeros, and `Bits.unpack` takes them out again.
-/

namespace ChunkStore.Bits

/-- The lowest `width` bits of `n`, the most significant first. -/
def ofNumber (width n : Nat) : List Bool :=
  (List.range width).map fun i => n.testBit (width - 1 - i)

/-- The number with the given bits, the most significant first. -/
def toNumber (bits : List Bool) : Nat := bits.foldl (fun n bit => 2 * n + bit.toNat) 0

/-- The byte that starts with the given bits, filled up with zeros. -/
def toByte (bits : List Bool) : UInt8 :=
  UInt8.ofNat (toNumber (bits ++ List.replicate (8 - bits.length) false))

/-- The bytes with the given bits, the last byte filled up with zeros. -/
def pack (bits : List Bool) : Bytes :=
  (takeChunks 8 ((bits.length + 7) / 8) bits).map toByte

/-- The bits of `bytes`, the most significant of each byte first. -/
def unpack (bytes : Bytes) : List Bool := bytes.flatMap fun b => ofNumber 8 b.toNat

@[simp] theorem length_ofNumber (width n : Nat) : (ofNumber width n).length = width := by
  simp [ofNumber]

@[simp] theorem length_pack (bits : List Bool) : (pack bits).length = (bits.length + 7) / 8 := by
  simp [pack]

end ChunkStore.Bits
