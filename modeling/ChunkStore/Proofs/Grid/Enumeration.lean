import ChunkStore.Proofs.Grid.Order
import ChunkStore.Proofs.Grid.RowMajor
import Mathlib.Algebra.BigOperators.Group.List.Lemmas

/-!
# The numbers of a grid, one after another

`rowMajor` counts the coordinates of a grid in lexicographic order (`rowMajor_lt_iff`), and
`toCoordinate` takes the digits of a number with the extents as bases, the fastest first
(`split_eq`). In 64 bits this is the same as long as the grid has fewer than `2 ^ 64` chunks, and it
goes on along an unlimited first dimension for as long as 64 bits hold the number
(`linearIndex_enumerates`). An extent may be `unlimited` as a number of chunks too: then all others
are 1, the dimension takes all that is left of a number, and that is what division leaves as well.
-/

namespace ChunkStore.Coordinate

variable {c d es : List Nat} {n : Nat}

/-! ## Unbounded numbers -/

theorem ofRowMajor_rowMajor (h : Within c es) : ofRowMajor (rowMajor c es) es = c :=
  rowMajor_inj (within_ofRowMajor (rowMajor_lt h)) h (rowMajor_ofRowMajor (rowMajor_lt h))

/-- Of two numbers with a last digit below `base`, the other digits decide before the last one. -/
theorem mul_add_lt_iff {x y r t base : Nat} (hr : r < base) (ht : t < base) :
    x * base + r < y * base + t ↔ x < y ∨ x = y ∧ r < t := by
  rcases Nat.lt_trichotomy x y with less | rfl | greater
  · have step := Nat.mul_le_mul_right base less
    rw [Nat.succ_mul] at step
    exact iff_of_true (by omega) (.inl less)
  · simp
  · have step := Nat.mul_le_mul_right base greater
    rw [Nat.succ_mul] at step
    exact iff_of_false (by omega) (by omega)

/-- Row-major numbers are in the order of the coordinates. -/
theorem rowMajor_lt_iff (hc : Within c es) (hd : Within d es) :
    rowMajor c es < rowMajor d es ↔ c < d := by
  induction hc generalizing d with
  | nil =>
    cases hd
    exact iff_of_false (Nat.lt_irrefl _) (List.lt_irrefl _)
  | cons _ hc ih =>
    obtain _ | ⟨_, hd⟩ := hd
    rw [List.cons_lt_cons_iff, ← ih hd, rowMajor, rowMajor]
    exact mul_add_lt_iff (rowMajor_lt hc) (rowMajor_lt hd)

/-! ## Digits of a number -/

/-- An extent in a list of positive ones is at most their product. -/
theorem le_prod {e : Nat} (pos : ∀ e ∈ es, 0 < e) (mem : e ∈ es) : e ≤ es.prod :=
  Nat.le_of_dvd (List.prod_pos_iff_forall_pos_nat.2 pos) (List.dvd_prod mem)

/-- What is split off a number are its digits, the extents being the bases. An unlimited extent
takes all that is left, and so does division when nothing else is left. -/
theorem split_eq (pos : ∀ e ∈ es, 0 < e)
    (bounded : unlimited ∉ es ∨ n < es.prod ∧ es.prod ≤ maxWord) :
    split es n = (ofRowMajor (n % es.prod) es, n / es.prod) := by
  induction es with
  | nil => simp [split, ofRowMajor]
  | cons e es ih =>
    have first := pos e List.mem_cons_self
    have others : ∀ e ∈ es, 0 < e := fun x mem => pos x (List.mem_cons_of_mem e mem)
    have some : 0 < es.prod := List.prod_pos_iff_forall_pos_nat.2 others
    rw [List.prod_cons] at bounded
    have boundedOthers : unlimited ∉ es ∨ n < es.prod ∧ es.prod ≤ maxWord := by
      by_cases mem : unlimited ∈ es
      · right
        obtain ⟨below, fits⟩ := bounded.resolve_left (not_not.2 (List.mem_cons_of_mem e mem))
        -- The product has room for an unlimited extent and for nothing else.
        have large : unlimited ≤ es.prod := le_prod others mem
        have atMost : e * es.prod ≤ 1 * es.prod := by
          rw [Nat.one_mul]
          exact fits.trans large
        have one : e = 1 := Nat.le_antisymm (Nat.le_of_mul_le_mul_right atMost some) first
        rw [one, Nat.one_mul] at below fits
        exact ⟨below, fits⟩
      · exact .inl mem
    have digits : ofRowMajor (n % (e * es.prod)) (e :: es) =
        n / es.prod % e :: ofRowMajor (n % es.prod) es := by
      rw [ofRowMajor, Nat.mod_mul_left_div_self, Nat.mod_mul_left_mod]
    rw [split, ih others boundedOthers, List.prod_cons, digits, Nat.mul_comm,
      ← Nat.div_div_eq_div_mul]
    dsimp only
    split
    · next endless =>
        have endless : e = unlimited := endless.resolve_left (by omega)
        obtain ⟨below, -⟩ := bounded.resolve_left (not_not.2 (endless ▸ List.mem_cons_self))
        have rest : n / es.prod < e := Nat.div_lt_of_lt_mul (by rwa [Nat.mul_comm])
        rw [Nat.mod_eq_of_lt rest, Nat.div_eq_of_lt rest]
    · rfl

theorem toCoordinate_eq (pos : ∀ e ∈ es, 0 < e) (fits : es.prod < UInt64.size)
    (below : n < es.prod) : toCoordinate n es = ofRowMajor n es := by
  have fits : es.prod ≤ maxWord := Nat.le_of_lt_succ fits
  rw [toCoordinate, split_eq pos (.inr ⟨below, fits⟩), Nat.mod_eq_of_lt below]

/-- An unlimited first dimension takes what the others leave. -/
theorem toCoordinate_unlimited_cons (pos : ∀ e ∈ es, 0 < e) (finite : unlimited ∉ es) :
    toCoordinate n (unlimited :: es) = n / es.prod :: ofRowMajor (n % es.prod) es := by
  rw [toCoordinate, split, split_eq pos (.inl finite)]
  exact congrArg Prod.fst (if_pos (.inr rfl))

/-! ## The 64-bit numbers -/

/-- The extent of the slowest dimension does not matter for the number of a coordinate. -/
theorem linearIndex_cons {x e : Nat} (h : Within c es) (fits : es.prod < UInt64.size)
    (word : x * es.prod + rowMajor c es < UInt64.size) :
    linearIndex (x :: c) (downCounts (e :: es)) = x * es.prod + rowMajor c es := by
  have product : extentProduct es = es.prod := extentProduct_eq h.pos (Nat.le_of_lt_succ fits)
  rw [linearIndex, downCounts, dot, dot_downCounts h fits.le, product, Nat.mod_eq_of_lt word]

/-- In a grid with fewer than `2 ^ 64` chunks the numbers are those below the count of chunks, each
of one coordinate and in the order of coordinates, and a number and its coordinate give each other.
When an unlimited dimension comes before the others, a coordinate has its exact number and comes
back from it as long as 64 bits hold the number. -/
theorem linearIndex_enumerates (pos : ∀ e ∈ es, 0 < e) (fits : es.prod < UInt64.size) :
    (∀ c, Within c es → linearIndex c (downCounts es) < es.prod ∧
      toCoordinate (linearIndex c (downCounts es)) es = c) ∧
    (∀ n < es.prod, ∃! c, Within c es ∧ linearIndex c (downCounts es) = n) ∧
    (∀ c d, Within c es → Within d es →
      (linearIndex c (downCounts es) < linearIndex d (downCounts es) ↔ c < d)) ∧
    (∀ n < es.prod, Within (toCoordinate n es) es ∧
      linearIndex (toCoordinate n es) (downCounts es) = n) ∧
    (unlimited ∉ es → ∀ x c, Within (x :: c) (unlimited :: es) →
      x * es.prod + rowMajor c es < UInt64.size →
        linearIndex (x :: c) (downCounts (unlimited :: es)) = x * es.prod + rowMajor c es ∧
        toCoordinate (linearIndex (x :: c) (downCounts (unlimited :: es))) (unlimited :: es) =
          x :: c) := by
  have number : ∀ {c}, Within c es → linearIndex c (downCounts es) = rowMajor c es :=
    fun h => linearIndex_downCounts h fits.le
  have reached : ∀ n < es.prod, Within (toCoordinate n es) es ∧
      linearIndex (toCoordinate n es) (downCounts es) = n := by
    intro n below
    have within := within_ofRowMajor below
    rw [toCoordinate_eq pos fits below, number within, rowMajor_ofRowMajor below]
    exact ⟨within, rfl⟩
  refine ⟨?_, ?_, ?_, reached, ?_⟩
  · intro c h
    have below := rowMajor_lt h
    rw [number h, toCoordinate_eq pos fits below, ofRowMajor_rowMajor h]
    exact ⟨below, rfl⟩
  · intro n below
    refine ⟨toCoordinate n es, reached n below, ?_⟩
    rintro c ⟨h, rfl⟩
    rw [number h] at below ⊢
    rw [toCoordinate_eq pos fits below, ofRowMajor_rowMajor h]
  · intro c d hc hd
    rw [number hc, number hd]
    exact rowMajor_lt_iff hc hd
  · intro finite x c h word
    obtain _ | ⟨_, h⟩ := h
    obtain ⟨quotient, remainder⟩ := rowMajor_cons_div_mod (c := x) (e := unlimited) h
    rw [rowMajor] at quotient remainder
    rw [linearIndex_cons h fits word, toCoordinate_unlimited_cons pos finite, quotient, remainder,
      ofRowMajor_rowMajor h]
    exact ⟨rfl, rfl⟩

/-- A grid of 3 by 4 by 5 chunks ends with number 59. Behind an unlimited dimension the same three
components have the number `60 * 2 ^ 58 + 59`. -/
theorem linearIndex_enumerates_grid :
    linearIndex [2, 3, 4] (downCounts [3, 4, 5]) = 59 ∧ toCoordinate 59 [3, 4, 5] = [2, 3, 4] ∧
      linearIndex [2 ^ 58, 2, 3, 4] (downCounts [unlimited, 3, 4, 5]) = 2 ^ 58 * 60 + 59 ∧
      toCoordinate (2 ^ 58 * 60 + 59) [unlimited, 3, 4, 5] = [2 ^ 58, 2, 3, 4] := by
  obtain ⟨back, -, -, -, further⟩ :=
    linearIndex_enumerates (show ∀ e ∈ [3, 4, 5], 0 < e by decide) (by decide)
  have last : Within [2, 3, 4] [3, 4, 5] := by decide
  have far : Within [2 ^ 58, 2, 3, 4] [unlimited, 3, 4, 5] := by decide
  have number : linearIndex [2, 3, 4] (downCounts [3, 4, 5]) = 59 := by decide
  obtain ⟨-, coordinate⟩ := back _ last
  obtain ⟨exact, again⟩ := further (by decide) _ _ far (by decide)
  rw [number] at coordinate
  rw [exact] at again
  exact ⟨number, coordinate, exact, again⟩

end ChunkStore.Coordinate
