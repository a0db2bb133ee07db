import ChunkStore.Bytes

/-!
# The lookup3 hash

Index structures end in the Jenkins lookup3 hash of the bytes before it. `lookup3` keeps three
32-bit words (`State`), adds twelve bytes at a time as little-endian words and mixes after each
full dozen (`mix`); the last one to twelve bytes are padded with zeros and mixed more thoroughly
(`finish`).
-/

namespace ChunkStore.Checksum

/-- The word `w` with its bits turned left by `k`, for `0 < k < 32`. -/
def rotateLeft (w k : UInt32) : UInt32 := (w <<< k) ||| (w >>> (32 - k))

namespace Lookup3

/-- The three words of the hash. -/
structure State where
  a : UInt32
  b : UInt32
  c : UInt32
  deriving DecidableEq, Repr

/-- Stirs the words after a full dozen of bytes. -/
def mix (s : State) : State :=
  let a := (s.a - s.c) ^^^ rotateLeft s.c 4
  let c := s.c + s.b
  let b := (s.b - a) ^^^ rotateLeft a 6
  let a := a + c
  let c := (c - b) ^^^ rotateLeft b 8
  let b := b + a
  let a := (a - c) ^^^ rotateLeft c 16
  let c := c + b
  let b := (b - a) ^^^ rotateLeft a 19
  let a := a + c
  let c := (c - b) ^^^ rotateLeft b 4
  let b := b + a
  ⟨a, b, c⟩

/-- Stirs the words after the last bytes, so that each input bit reaches `c`. -/
def finish (s : State) : State :=
  let c := (s.c ^^^ s.b) - rotateLeft s.b 14
  let a := (s.a ^^^ c) - rotateLeft c 11
  let b := (s.b ^^^ a) - rotateLeft a 25
  let c := (c ^^^ b) - rotateLeft b 16
  let a := (a ^^^ c) - rotateLeft c 4
  let b := (b ^^^ a) - rotateLeft a 14
  let c := (c ^^^ b) - rotateLeft b 24
  ⟨a, b, c⟩

/-- The little-endian word of up to four bytes. -/
def word (bs : Bytes) : UInt32 := UInt32.ofNat (LittleEndian.decode bs)

/-- Adds up to twelve bytes to the words, four to each. -/
def absorb (s : State) (bs : Bytes) : State :=
  ⟨s.a + word (bs.take 4), s.b + word (slice bs 4 4), s.c + word (slice bs 8 4)⟩

/-- Absorbs `blocks` full dozens and then what is left, which counts for nothing when empty. -/
def digest : (blocks : Nat) → State → Bytes → State
  | 0, s, rest => if rest.isEmpty then s else finish (absorb s rest)
  | blocks + 1, s, rest => digest blocks (mix (absorb s rest)) (rest.drop 12)

end Lookup3

/-- The lookup3 hash of `bytes` with seed zero. -/
def lookup3 (bytes : Bytes) : UInt32 :=
  let start := 0xdeadbeef + UInt32.ofNat bytes.length
  (Lookup3.digest ((bytes.length - 1) / 12) ⟨start, start, start⟩ bytes).c

end ChunkStore.Checksum
