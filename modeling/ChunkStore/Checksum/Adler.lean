import ChunkStore.Bytes

/-!
# The Adler-32 checksum

A zlib stream ends in the Adler-32 checksum of its data: the sum of the bytes plus one, and the
sum of those sums, both modulo 65521.
-/

namespace ChunkStore.Checksum

/-- The Adler-32 checksum of `bytes`. -/
def adler32 (bytes : Bytes) : Nat :=
  let (low, high) := bytes.foldl
    (fun (low, high) b =>
      let low := (low + b.toNat) % 65521
      (low, (high + low) % 65521))
    (1, 0)
  high * UInt16.size + low

end ChunkStore.Checksum
