import ChunkStore.Proofs.Checksum.Sums

/-!
# What the Fletcher-32 checksum tells apart

Two byte strings have one checksum exactly when their sums and their sums of sums are alike
(`fletcher32_eq_iff`). The sum tells apart any two values of one word but 0000 and FFFF, which are
congruent; the sum of sums counts every word as often as its place says, and so tells apart the two
orders of neighbouring words, with the same exception (`fletcher32_eq_iff_of_change`).
-/

namespace ChunkStore.Checksum

namespace Fletcher

theorem Alike.symm {m n : Nat} (alike : Alike m n) : Alike n m :=
  ⟨alike.1.symm, alike.2.symm⟩

theorem reduce_eq_reduce_iff {m n : Nat} : reduce m = reduce n ↔ Alike m n := by
  rw [eq_reduce_iff (reduce_le m)]
  exact ⟨(alike_reduce m).symm.trans, (alike_reduce m).trans⟩

end Fletcher

open Fletcher

theorem fletcher32_eq_iff {bytes bytes' : Bytes} : fletcher32 bytes = fletcher32 bytes' ↔
    Alike (values bytes).sum (values bytes').sum ∧
    Alike (sumOfSums (values bytes)) (sumOfSums (values bytes')) := by
  rw [← UInt32.toNat_inj, toNat_fletcher32, toNat_fletcher32, ← reduce_eq_reduce_iff,
    ← reduce_eq_reduce_iff]
  have first := reduce_le (values bytes).sum
  have first' := reduce_le (values bytes').sum
  omega

namespace Fletcher

/-! ## Words at their places -/

/-- The value of a word. -/
def value (w : UInt8 × UInt8) : Nat := 256 * w.1.toNat + w.2.toNat

/-- The words 0000 and FFFF, in either order. -/
def Opposite (w w' : UInt8 × UInt8) : Prop :=
  w = (0, 0) ∧ w' = (255, 255) ∨ w = (255, 255) ∧ w' = (0, 0)

instance (w w' : UInt8 × UInt8) : Decidable (Opposite w w') :=
  inferInstanceAs (Decidable (_ ∨ _))

theorem value_le (w : UInt8 × UInt8) : value w ≤ 65535 := by
  have high : w.1.toNat < 256 := w.1.toNat_lt
  have low : w.2.toNat < 256 := w.2.toNat_lt
  unfold value
  omega

theorem value_inj {w w' : UInt8 × UInt8} : value w = value w' ↔ w = w' := by
  have low : w.2.toNat < 256 := w.2.toNat_lt
  have low' : w'.2.toNat < 256 := w'.2.toNat_lt
  rw [Prod.ext_iff, ← UInt8.toNat_inj, ← UInt8.toNat_inj]
  unfold value
  omega

theorem opposite_iff {w w' : UInt8 × UInt8} : Opposite w w' ↔
    value w = 0 ∧ value w' = 65535 ∨ value w = 65535 ∧ value w' = 0 := by
  have zero (w : UInt8 × UInt8) : value w = 0 ↔ w = (0, 0) := @value_inj w (0, 0)
  have ones (w : UInt8 × UInt8) : value w = 65535 ↔ w = (255, 255) := @value_inj w (255, 255)
  rw [Opposite, zero, zero, ones, ones]

theorem values_append {front : Bytes} (even : front.length % 2 = 0) (rest : Bytes) :
    values (front ++ rest) = values front ++ values rest := by
  fun_induction values front with
  | case1 high low front ih =>
    rw [List.length_cons, List.length_cons] at even
    rw [List.cons_append, List.cons_append, values, ih (by omega)]
    rfl
  | case2 last => cases even
  | case3 => rfl

theorem sum_values_eq_zero_iff (bytes : Bytes) :
    (values bytes).sum = 0 ↔ ∀ b ∈ bytes, b = 0 := by
  fun_induction values bytes with
  | case1 high low rest ih =>
    have word : 256 * high.toNat + low.toNat = 0 ↔ high = 0 ∧ low = 0 := by
      rw [← UInt8.toNat_inj, ← UInt8.toNat_inj]
      show _ ↔ high.toNat = 0 ∧ low.toNat = 0
      omega
    rw [List.sum_cons, List.forall_mem_cons, List.forall_mem_cons, ← and_assoc,
      Nat.add_eq_zero_iff]
    exact and_congr word ih
  | case2 last =>
    rw [List.sum_singleton, List.forall_mem_singleton, ← UInt8.toNat_inj]
    show _ ↔ last.toNat = 0
    omega
  | case3 => simp

theorem sum_place (before after : List Nat) (v : Nat) :
    (before ++ v :: after).sum = (before ++ after).sum + v := by
  simp only [List.sum_append, List.sum_cons]
  omega

/-- A word counts once for itself and once for each word after it. -/
theorem sumOfSums_place (before after : List Nat) (v : Nat) :
    sumOfSums (before ++ v :: after) =
      sumOfSums before + (after.length + 1) * before.sum + sumOfSums after +
        (after.length + 1) * v := by
  rw [sumOfSums_append, sumOfSums_cons, List.length_cons]
  omega

/-- Added to one number, only the values 0 and 65535 become alike. -/
theorem alike_add_iff {a v v' : Nat} (small : v ≤ 65535) (small' : v' ≤ 65535) :
    Alike (a + v) (a + v') ↔
      v = v' ∨ (v = 0 ∧ v' = 65535 ∨ v = 65535 ∧ v' = 0) ∧ a ≠ 0 := by
  unfold Alike Nat.ModEq
  omega

theorem sumOfSums_eq_zero_iff (ns : List Nat) : sumOfSums ns = 0 ↔ ns.sum = 0 := by
  induction ns with
  | nil => exact Iff.rfl
  | cons n ns ih =>
    rw [sumOfSums_cons, List.sum_cons, Nat.add_eq_zero_iff, Nat.add_eq_zero_iff, ih,
      Nat.mul_eq_zero, or_iff_right (Nat.succ_ne_zero _)]

/-- The sums tell apart two values of a word, unless they are 0 and 65535 beside another word that
is not zero. -/
theorem alike_place_iff {before after : List Nat} {v v' : Nat} (small : v ≤ 65535)
    (small' : v' ≤ 65535) :
    (Alike (before ++ v :: after).sum (before ++ v' :: after).sum ∧
      Alike (sumOfSums (before ++ v :: after)) (sumOfSums (before ++ v' :: after))) ↔
    v = v' ∨ (v = 0 ∧ v' = 65535 ∨ v = 65535 ∧ v' = 0) ∧ (before ++ after).sum ≠ 0 := by
  rw [sum_place, sum_place, alike_add_iff small small', and_iff_left_iff_imp]
  rintro (rfl | ⟨opposite, other⟩)
  · exact .refl _
  rw [sumOfSums_place, sumOfSums_place]
  have some : sumOfSums before + (after.length + 1) * before.sum + sumOfSums after ≠ 0 := by
    have rest := sumOfSums_eq_zero_iff after
    rw [List.sum_append] at other
    rw [Nat.succ_mul]
    omega
  generalize sumOfSums before + (after.length + 1) * before.sum + sumOfSums after = sums at some
  have wraps : Alike sums (sums + (after.length + 1) * 65535) :=
    ⟨(Nat.add_mul_mod_self_right ..).symm, by omega⟩
  rcases opposite with ⟨rfl, rfl⟩ | ⟨rfl, rfl⟩
  · exact wraps
  · exact wraps.symm

end Fletcher

variable {front rest : Bytes}

theorem fletcher32_eq_iff_of_word (even : front.length % 2 = 0) (w w' : UInt8 × UInt8) :
    fletcher32 (front ++ w.1 :: w.2 :: rest) = fletcher32 (front ++ w'.1 :: w'.2 :: rest) ↔
      w = w' ∨ Opposite w w' ∧ ∃ b ∈ front ++ rest, b ≠ 0 := by
  have other : (values front ++ values rest).sum ≠ 0 ↔ ∃ b ∈ front ++ rest, b ≠ 0 := by
    rw [← values_append even, ne_eq, sum_values_eq_zero_iff]
    simp
  rw [fletcher32_eq_iff, values_append even, values_append even, opposite_iff, ← other,
    ← value_inj]
  exact alike_place_iff (value_le w) (value_le w')

theorem fletcher32_eq_iff_of_last (even : front.length % 2 = 0) (b b' : UInt8) :
    fletcher32 (front ++ [b]) = fletcher32 (front ++ [b']) ↔ b = b' := by
  have small : b.toNat < 256 := b.toNat_lt
  have small' : b'.toNat < 256 := b'.toNat_lt
  rw [fletcher32_eq_iff, values_append even, values_append even, ← UInt8.toNat_inj]
  refine (alike_place_iff (by omega) (by omega)).trans ?_
  omega

theorem fletcher32_eq_iff_of_swap (even : front.length % 2 = 0) (w w' : UInt8 × UInt8) :
    fletcher32 (front ++ w.1 :: w.2 :: w'.1 :: w'.2 :: rest) =
      fletcher32 (front ++ w'.1 :: w'.2 :: w.1 :: w.2 :: rest) ↔ w = w' ∨ Opposite w w' := by
  have words (w w' : UInt8 × UInt8) : values (front ++ w.1 :: w.2 :: w'.1 :: w'.2 :: rest) =
      values front ++ value w :: value w' :: values rest := values_append even _
  -- Each word counts as often as the second of the two places says, and the first one once more.
  have sums (v v' : Nat) : sumOfSums (values front ++ v :: v' :: values rest) =
      sumOfSums (values front) + ((values rest).length + 2) * (values front).sum +
        sumOfSums (values rest) + ((values rest).length + 1) * (v + v') + v := by
    rw [sumOfSums_place, sumOfSums_cons, List.length_cons]
    ring
  have same : (values front ++ value w :: value w' :: values rest).sum =
      (values front ++ value w' :: value w :: values rest).sum := by
    simp only [List.sum_append, List.sum_cons]
    omega
  rw [fletcher32_eq_iff, words, words, same, sums, sums, Nat.add_comm (value w'),
    alike_add_iff (value_le w) (value_le w'), value_inj, ← opposite_iff,
    and_iff_right (Alike.refl _)]
  refine or_congr_right (and_iff_left_of_imp fun opposite => ?_)
  have some : value w + value w' ≠ 0 := by
    rw [opposite_iff] at opposite
    omega
  have counted := Nat.mul_le_mul_right (value w + value w') (Nat.le_add_left 1 (values rest).length)
  omega

/-- Another value of one word, or of an odd last byte, changes the checksum, unless the words 0000
and FFFF are exchanged beside a byte that is not zero; two neighbouring words in the opposite order
change it, unless they are these two. -/
theorem fletcher32_eq_iff_of_change (even : front.length % 2 = 0) :
    (∀ w w' : UInt8 × UInt8,
      fletcher32 (front ++ w.1 :: w.2 :: rest) = fletcher32 (front ++ w'.1 :: w'.2 :: rest) ↔
        w = w' ∨ Opposite w w' ∧ ∃ b ∈ front ++ rest, b ≠ 0) ∧
    (∀ b b' : UInt8, fletcher32 (front ++ [b]) = fletcher32 (front ++ [b']) ↔ b = b') ∧
    (∀ w w' : UInt8 × UInt8,
      fletcher32 (front ++ w.1 :: w.2 :: w'.1 :: w'.2 :: rest) =
        fletcher32 (front ++ w'.1 :: w'.2 :: w.1 :: w.2 :: rest) ↔ w = w' ∨ Opposite w w') :=
  ⟨fletcher32_eq_iff_of_word even, fletcher32_eq_iff_of_last even, fletcher32_eq_iff_of_swap even⟩

/-- A word of zeros after another word: beside that one all ones are not told from it, but other
words are, and so is the opposite order of the first two words. -/
theorem fletcher32_eq_iff_of_second_word :
    ([1, 2] : Bytes).length % 2 = 0 ∧
    fletcher32 [1, 2, 0, 0, 3, 4] = fletcher32 [1, 2, 255, 255, 3, 4] ∧
    fletcher32 [1, 2, 0, 0, 3, 4] ≠ fletcher32 [1, 2, 255, 254, 3, 4] ∧
    fletcher32 [1, 2, 0, 0, 255, 255] = fletcher32 [1, 2, 255, 255, 0, 0] ∧
    fletcher32 [1, 2, 0, 0, 3, 4] ≠ fletcher32 [1, 2, 3, 4, 0, 0] ∧
    fletcher32 [1, 2, 3] ≠ fletcher32 [1, 2, 4] := by
  have even : ([1, 2] : Bytes).length % 2 = 0 := by decide
  obtain ⟨word, -, -⟩ := @fletcher32_eq_iff_of_change [1, 2] [3, 4] even
  obtain ⟨-, last, swap⟩ := @fletcher32_eq_iff_of_change [1, 2] [] even
  refine ⟨by decide, ?_, ?_, ?_, ?_, ?_⟩
  · exact (word (0, 0) (255, 255)).2 (.inr ⟨by decide, 1, by decide, by decide⟩)
  · exact fun same => absurd ((word (0, 0) (255, 254)).1 same) (by decide)
  · exact (swap (0, 0) (255, 255)).2 (.inr (by decide))
  · exact fun same => absurd ((swap (0, 0) (3, 4)).1 same) (by decide)
  · exact fun same => absurd ((last 3 4).1 same) (by decide)

end ChunkStore.Checksum
