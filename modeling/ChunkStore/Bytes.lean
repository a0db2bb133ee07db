/-!
# Byte strings and little-endian words

A file image, a metadata message and a chunk are all `Bytes`. `LittleEndian.decode` reads any run
of bytes as a number and `LittleEndian.encode` writes a number into a fixed count of bytes.
`chunksExact` cuts a byte string into elements of one width. Sizes, addresses and
coordinates are natural numbers that stay below `2 ^ 64`: `saturate` and `checked` are the two ways
an operation keeps them there.
-/

namespace ChunkStore

/-- A run of bytes. -/
abbrev Bytes := List UInt8

/-- The largest 64-bit number. -/
def maxWord : Nat := UInt64.size - 1

/-- The 64-bit number nearest to `n`. -/
def saturate (n : Nat) : Nat := min n maxWord

/-- `n` itself, when 64 bits hold it. -/
def checked (n : Nat) : Option Nat := if n ≤ maxWord then some n else none

/-- The product of `factors` after `start`, when no partial product leaves 64 bits. -/
def checkedProduct (start : Nat) (factors : List Nat) : Option Nat :=
  factors.foldlM (fun product factor => checked (product * factor)) start

theorem saturate_of_le {n : Nat} (h : n ≤ maxWord) : saturate n = n := Nat.min_eq_left h

theorem saturate_le (n : Nat) : saturate n ≤ maxWord := Nat.min_le_right _ _

theorem checked_eq_some_iff {n m : Nat} : checked n = some m ↔ n ≤ maxWord ∧ n = m := by
  unfold checked
  split
  · simp_all
  · simp; omega

namespace LittleEndian

/-- The number with the given bytes, least significant first. -/
def decode : Bytes → Nat
  | [] => 0
  | b :: bs => b.toNat + 256 * decode bs

/-- The low `width` bytes of `n`, least significant first. -/
def encode : (width n : Nat) → Bytes
  | 0, _ => []
  | width + 1, n => UInt8.ofNat (n % 256) :: encode width (n / 256)

@[simp] theorem length_encode (width n : Nat) : (encode width n).length = width := by
  induction width generalizing n with
  | zero => rfl
  | succ width ih => simp [encode, ih]

end LittleEndian

/-- The first `count` runs of `width` items. -/
def takeChunks {α : Type} (width : Nat) : (count : Nat) → List α → List (List α)
  | 0, _ => []
  | count + 1, xs => xs.take width :: takeChunks width count (xs.drop width)

/-- The whole elements of `width` items in `xs`; a shorter run at the end is left out. -/
def chunksExact {α : Type} (width : Nat) (xs : List α) : List (List α) :=
  takeChunks width (xs.length / width) xs

/-- The `length` items of `xs` from `offset` on. -/
def slice {α : Type} (xs : List α) (offset length : Nat) : List α :=
  (xs.drop offset).take length

/-- Writes `run` over `xs` from `offset` on, when it lies inside. -/
def overwrite? {α : Type} (xs : List α) (offset : Nat) (run : List α) : Option (List α) :=
  if offset + run.length ≤ xs.length then
    some (xs.take offset ++ run ++ xs.drop (offset + run.length))
  else none

@[simp] theorem length_takeChunks {α : Type} (width count : Nat) (xs : List α) :
    (takeChunks width count xs).length = count := by
  induction count generalizing xs with
  | zero => rfl
  | succ count ih => simp [takeChunks, ih]

theorem length_slice {α : Type} {xs : List α} {offset length : Nat}
    (h : offset + length ≤ xs.length) : (slice xs offset length).length = length := by
  simp [slice]; omega

end ChunkStore
