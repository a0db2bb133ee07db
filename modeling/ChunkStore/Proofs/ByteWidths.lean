import ChunkStore.Grid.Coordinate
import ChunkStore.Index.TreeTwo
import Mathlib.Algebra.Group.Nat.Defs
import Mathlib.Order.Bounds.Basic

/-!
# The bytes that a number takes

`minByteCount_le_iff`: a count of bytes is large enough for a number when it is not less than
`minByteCount`, whatever the logarithm rounds to. The two other widths are told by it: pointers of a
version 2 B-tree use the same one (`limitSize_eq_minByteCount`), and stored sizes have one byte
more, eight at most (`chunkSizeLength_eq`).
-/

namespace ChunkStore

variable {n m : Nat}

theorem minByteCount_le_iff {k : Nat} : minByteCount n ≤ k ↔ 1 ≤ k ∧ n < 256 ^ k := by
  unfold minByteCount
  split
  next zero =>
    rw [zero, and_iff_left (Nat.pow_pos (by decide))]
  next some =>
    have bits : n < 256 ^ k ↔ n.log2 < 8 * k := by
      rw [Nat.log2_lt some, Nat.pow_mul]
    rw [bits]
    omega

theorem lt_pow_minByteCount (n : Nat) : n < 256 ^ minByteCount n :=
  (minByteCount_le_iff.1 le_rfl).2

theorem minByteCount_pos (n : Nat) : 1 ≤ minByteCount n := (minByteCount_le_iff.1 le_rfl).1

theorem minByteCount_le (word : n ≤ maxWord) : 1 ≤ minByteCount n ∧ minByteCount n ≤ 8 :=
  ⟨minByteCount_pos n, minByteCount_le_iff.2 ⟨by decide, word.trans_lt (by decide)⟩⟩

theorem minByteCount_mono (le : n ≤ m) : minByteCount n ≤ minByteCount m :=
  minByteCount_le_iff.2 ⟨minByteCount_pos m, le.trans_lt (lt_pow_minByteCount m)⟩

/-- No fewer bytes hold the number, and of a 64-bit number eight bytes do. -/
theorem isLeast_minByteCount (word : n ≤ maxWord) :
    IsLeast {k | 1 ≤ k ∧ k ≤ 8 ∧ n < 256 ^ k} (minByteCount n) := by
  constructor
  · exact ⟨minByteCount_pos n, (minByteCount_le word).2, lt_pow_minByteCount n⟩
  · rintro k ⟨pos, -, fits⟩
    exact minByteCount_le_iff.2 ⟨pos, fits⟩

theorem chunkSizeLength_eq (n : Nat) : chunkSizeLength n = min 8 (minByteCount n + 1) := by
  unfold chunkSizeLength minByteCount
  split
  next zero =>
    rw [zero]
    decide
  next => omega

theorem chunkSizeLength_le (n : Nat) : 1 ≤ chunkSizeLength n ∧ chunkSizeLength n ≤ 8 := by
  rw [chunkSizeLength_eq]
  omega

/-- The byte more is what filters may add to a chunk. -/
theorem lt_pow_chunkSizeLength {size chunkBytes : Nat} (word : size ≤ maxWord)
    (grown : size ≤ 256 * chunkBytes) : size < 256 ^ chunkSizeLength chunkBytes := by
  rw [chunkSizeLength_eq]
  rcases le_total 8 (minByteCount chunkBytes + 1) with wide | narrow
  · rw [min_eq_left wide]
    exact word.trans_lt (by decide)
  · have chunk := lt_pow_minByteCount chunkBytes
    rw [min_eq_right narrow, Nat.pow_succ']
    omega

theorem Index.TreeTwo.limitSize_eq_minByteCount (n : Nat) :
    Index.TreeTwo.limitSize n = minByteCount n := by
  unfold Index.TreeTwo.limitSize minByteCount
  split
  next zero =>
    rw [zero]
    decide
  next => rw [Nat.max_eq_left (by omega)]

end ChunkStore
