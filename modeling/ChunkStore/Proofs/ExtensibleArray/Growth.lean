import ChunkStore.Index.ExtensibleArray
import ChunkStore.Proofs.Grid.Enumeration

/-!
# Numbers along the dimension that grows

An extensible array numbers its chunks with the unlimited dimension before the others, which keep
their order (`Coordinate.numberAlong`). Moving a component to the front and back again changes
nothing (`unswizzle_swizzle`, `swizzle_unswizzle`), and so the numbers are row-major numbers of
moved coordinates (`numberAlong_eq`), one for each coordinate. The extent of the dimension that
counts most has no part in them: the 64-bit number is exact as long as 64 bits hold it, and a
dataset that grows keeps the numbers of its chunks (`linearIndex_grows`).
-/

namespace ChunkStore

namespace Coordinate

variable {c d es : List Nat} {k n : Nat}

/-! ## To the front and back -/

theorem moveToFront_eq {xs : List Nat} (inside : k < xs.length) :
    moveToFront k xs = xs[k] :: xs.eraseIdx k := by
  rw [moveToFront, List.getElem?_eq_getElem inside]

theorem moveToFront_moveFromFront (inside : k < c.length) :
    moveToFront k (moveFromFront k c) = c := by
  obtain _ | ⟨x, c⟩ := c
  · cases inside
  have place : (c.insertIdx k x)[k]? = some x := by
    rw [List.getElem?_insertIdx_self, if_pos (Nat.le_of_lt_succ inside)]
  rw [moveFromFront, moveToFront, place]
  exact congrArg (x :: ·) (List.eraseIdx_insertIdx_self x)

theorem length_moveToFront (k : Nat) (c : List Nat) : (moveToFront k c).length = c.length :=
  (moveToFront_perm k c).length_eq

theorem length_moveFromFront (inside : k < c.length) : (moveFromFront k c).length = c.length := by
  rw [← length_moveToFront k, moveToFront_moveFromFront inside]

theorem within_insertIdx {x e : Nat} (lt : x < e) (h : Within c es) (k : Nat) :
    Within (c.insertIdx k x) (es.insertIdx k e) := by
  induction k generalizing c es with
  | zero => exact .cons lt h
  | succ k ih =>
    cases h with
    | nil => exact .nil
    | cons first others => exact .cons first (ih others)

theorem within_moveFromFront (h : Within c es) (k : Nat) :
    Within (moveFromFront k c) (moveFromFront k es) := by
  cases h with
  | nil => exact .nil
  | cons lt others => exact within_insertIdx lt others k

theorem unswizzle_swizzle (inside : k < c.length) :
    (swizzle c k >>= fun moved => unswizzle moved k) = .ok c := by
  rw [swizzle, if_neg (Nat.not_le.2 inside)]
  show unswizzle (moveToFront k c) k = _
  rw [unswizzle, length_moveToFront, if_neg (Nat.not_le.2 inside),
    moveFromFront_moveToFront inside]

theorem swizzle_unswizzle (inside : k < c.length) :
    (unswizzle c k >>= fun moved => swizzle moved k) = .ok c := by
  rw [unswizzle, if_neg (Nat.not_le.2 inside)]
  show swizzle (moveFromFront k c) k = _
  rw [swizzle, length_moveFromFront inside, if_neg (Nat.not_le.2 inside),
    moveToFront_moveFromFront inside]

/-! ## Numbers with one dimension before the others -/

/-- The number of a coordinate when component `k` counts most and the others follow in order. -/
def numberAlong (k : Nat) (coordinate extents : List Nat) : Nat :=
  coordinate.getD k 0 * (extents.eraseIdx k).prod +
    rowMajor (coordinate.eraseIdx k) (extents.eraseIdx k)

theorem numberAlong_eq (h : Within c es) (inside : k < es.length) :
    numberAlong k c es = rowMajor (moveToFront k c) (moveToFront k es) := by
  have place : k < c.length := h.length_eq ▸ inside
  rw [numberAlong, moveToFront_eq place, moveToFront_eq inside, rowMajor,
    List.getD_eq_getElem?_getD, List.getElem?_eq_getElem place, Option.getD_some]

theorem numberAlong_inj (hc : Within c es) (hd : Within d es) (inside : k < es.length)
    (same : numberAlong k c es = numberAlong k d es) : c = d := by
  rw [numberAlong_eq hc inside, numberAlong_eq hd inside] at same
  have moved := rowMajor_inj (within_moveToFront k hc) (within_moveToFront k hd) same
  exact moveToFront_inj (hc.length_eq.trans hd.length_eq.symm) moved

theorem exists_numberAlong (inside : k < es.length) (below : n < es.prod) :
    ∃ c, Within c es ∧ numberAlong k c es = n := by
  have below : n < (moveToFront k es).prod := by rwa [(moveToFront_perm k es).prod_nat]
  have moved := within_ofRowMajor below
  have within := within_moveFromFront moved k
  rw [moveFromFront_moveToFront inside] at within
  refine ⟨_, within, ?_⟩
  have place : k < (ofRowMajor n (moveToFront k es)).length := by
    rwa [moved.length_eq, length_moveToFront]
  rw [numberAlong_eq within inside, moveToFront_moveFromFront place, rowMajor_ofRowMajor below]

end Coordinate

/-! ## The dimension that grows -/

/-- An extent is cut into endlessly many pieces only when it is unlimited itself. -/
theorem ceilDiv_eq_unlimited_iff {extent size : Nat} (word : extent ≤ maxWord) (some : 0 < size) :
    ceilDiv extent size = unlimited ↔ extent = unlimited := by
  unfold ceilDiv
  split
  · next endless => exact iff_of_true rfl endless
  · next finite =>
      have pieces : (extent + size - 1) / size ≤ extent := by
        apply Nat.le_of_lt_succ
        rw [Nat.div_lt_iff_lt_mul some, Nat.succ_mul]
        have := Nat.le_mul_of_pos_right extent some
        omega
      have finite : extent < unlimited := Nat.lt_of_le_of_ne word finite
      rw [if_neg (by omega)]
      exact iff_of_false (by omega) (by omega)

namespace Geometry

variable {dims maxDims chunkDims : List Nat} {elementSize k : Nat} {g : Geometry}

/-- The grid has no limit where the dataset has none. -/
theorem scaledMaxDims_unlimited_iff
    (made : ofExtents dims maxDims chunkDims elementSize = .ok g)
    (words : ∀ n ∈ maxDims, n ≤ maxWord) (i : Nat) :
    g.scaledMaxDims[i]? = some unlimited ↔ maxDims[i]? = some unlimited := by
  obtain ⟨-, ranks, pos, -, -, scaled⟩ := of_ofExtents made
  rw [scaled, List.getElem?_zipWith]
  by_cases inside : i < maxDims.length
  · have inside' : i < chunkDims.length := ranks ▸ inside
    have word := words _ (List.getElem_mem inside)
    have some : 0 < chunkDims[i] :=
      Nat.pos_of_ne_zero fun zero => pos (zero ▸ List.getElem_mem inside')
    rw [List.getElem?_eq_getElem inside, List.getElem?_eq_getElem inside']
    dsimp only
    rw [Option.some_inj, Option.some_inj]
    exact ceilDiv_eq_unlimited_iff word some
  · rw [List.getElem?_eq_none (Nat.le_of_not_lt inside)]

end Geometry

namespace Index.ExtensibleArray

open Coordinate

variable {dims maxDims chunkDims : List Nat} {elementSize k : Nat} {g : Geometry}

theorem growthDimension_eq (grows : g.scaledMaxDims[k]? = some unlimited)
    (only : unlimited ∉ g.scaledMaxDims.eraseIdx k) : growthDimension g = k := by
  have first : g.scaledMaxDims.idxOf? unlimited = some k := by
    obtain ⟨inside, here⟩ := List.getElem?_eq_some_iff.1 grows
    refine List.idxOf?_eq_some_iff.2 ⟨inside, here, fun j before same => only ?_⟩
    refine List.mem_eraseIdx_iff_getElem?.2 ⟨j, before.ne, ?_⟩
    rw [List.getElem?_eq_getElem (before.trans inside), same]
  rw [growthDimension, first, Option.getD_some]

/-- The number is exact as long as 64 bits hold it. -/
theorem linearIndex_eq_numberAlong (grows : g.scaledMaxDims[k]? = some unlimited)
    (only : unlimited ∉ g.scaledMaxDims.eraseIdx k)
    (fits : (g.scaledMaxDims.eraseIdx k).prod < UInt64.size) {c : Coordinate}
    (h : Within c g.scaledMaxDims) (word : numberAlong k c g.scaledMaxDims < UInt64.size) :
    linearIndex g c = numberAlong k c g.scaledMaxDims := by
  obtain ⟨inside, -⟩ := List.getElem?_eq_some_iff.1 grows
  have place : k < c.length := h.length_eq ▸ inside
  have moved := within_moveToFront k h
  rw [numberAlong_eq h inside] at word ⊢
  rw [linearIndex_eq, growthDimension_eq grows only]
  rw [moveToFront_eq place, moveToFront_eq inside] at moved word ⊢
  obtain _ | ⟨_, others⟩ := moved
  exact linearIndex_cons others fits word

/-- Moving a component to the front and back changes nothing. With one unlimited dimension the
number of a chunk is the exact one along it: distinct coordinates have distinct numbers, every
number below `2 ^ 64 - 1` is that of one coordinate, and the numbers stay when the extent of the
dataset changes. -/
theorem linearIndex_grows (made : Geometry.ofExtents dims maxDims chunkDims elementSize = .ok g)
    (words : ∀ n ∈ maxDims, n ≤ maxWord) (grows : maxDims[k]? = some unlimited)
    (only : unlimited ∉ maxDims.eraseIdx k)
    (fits : (g.scaledMaxDims.eraseIdx k).prod < UInt64.size) :
    (∀ (c : Coordinate) (j : Nat), j < c.length →
      (swizzle c j >>= fun moved => unswizzle moved j) = .ok c ∧
      (unswizzle c j >>= fun moved => swizzle moved j) = .ok c) ∧
    (∀ c, g.Holds c → numberAlong k c g.scaledMaxDims < UInt64.size →
      linearIndex g c = numberAlong k c g.scaledMaxDims) ∧
    (∀ c d, g.Holds c → numberAlong k c g.scaledMaxDims < UInt64.size →
      g.Holds d → numberAlong k d g.scaledMaxDims < UInt64.size →
        linearIndex g c = linearIndex g d → c = d) ∧
    (0 < (g.scaledMaxDims.eraseIdx k).prod → ∀ n < maxWord,
      ∃! c, (g.Holds c ∧ numberAlong k c g.scaledMaxDims < UInt64.size) ∧ linearIndex g c = n) ∧
    (∀ dims' g', Geometry.ofExtents dims' maxDims chunkDims elementSize = .ok g' →
      ∀ c, linearIndex g' c = linearIndex g c) := by
  obtain ⟨-, ranks⟩ := Geometry.ranks_of_ofExtents made
  have endless := Geometry.scaledMaxDims_unlimited_iff made words
  have grows : g.scaledMaxDims[k]? = some unlimited := (endless k).2 grows
  have only : unlimited ∉ g.scaledMaxDims.eraseIdx k := by
    rw [List.mem_eraseIdx_iff_getElem?] at only ⊢
    simpa only [endless] using only
  obtain ⟨inside, here⟩ := List.getElem?_eq_some_iff.1 grows
  simp only [Geometry.holds_iff_within ranks]
  have exact := fun {c} => linearIndex_eq_numberAlong (c := c) grows only fits
  have apart : ∀ c d, Within c g.scaledMaxDims → numberAlong k c g.scaledMaxDims < UInt64.size →
      Within d g.scaledMaxDims → numberAlong k d g.scaledMaxDims < UInt64.size →
        linearIndex g c = linearIndex g d → c = d := by
    intro c d hc fitsC hd fitsD same
    rw [exact hc fitsC, exact hd fitsD] at same
    exact numberAlong_inj hc hd inside same
  refine ⟨?_, fun c => exact, apart, ?_, ?_⟩
  · exact fun c j inside => ⟨unswizzle_swizzle inside, swizzle_unswizzle inside⟩
  · intro some n below
    -- The unlimited extent alone leaves room for all of these numbers.
    have room : n < g.scaledMaxDims.prod := by
      rw [← (moveToFront_perm k _).prod_nat, moveToFront_eq inside, List.prod_cons, here]
      exact below.trans_le (Nat.le_mul_of_pos_right _ some)
    obtain ⟨c, h, number⟩ := exists_numberAlong inside room
    have word : numberAlong k c g.scaledMaxDims < UInt64.size :=
      number ▸ Nat.lt_succ_of_lt below
    have index := (exact h word).trans number
    refine ⟨c, ⟨⟨h, word⟩, index⟩, ?_⟩
    rintro d ⟨⟨h', word'⟩, index'⟩
    exact apart d c h' word' h word (index'.trans index.symm)
  · intro dims' g' made' c
    obtain ⟨-, -, -, -, -, scaled⟩ := Geometry.of_ofExtents made
    obtain ⟨-, -, -, -, -, scaled'⟩ := Geometry.of_ofExtents made'
    have same : g'.scaledMaxDims = g.scaledMaxDims := scaled'.trans scaled.symm
    rw [linearIndex_eq, linearIndex_eq, growthDimension, growthDimension, same]

/-- Between two dimensions of 5 and 3 chunks, each step of the second dimension counts 15. The last
number but one of 64 bits is taken too, and a longer dataset has the same numbers. -/
theorem linearIndex_grows_second : ∃ g g',
    Geometry.ofExtents [10, 7, 4] [20, unlimited, 6] [4, 3, 2] 4 = .ok g ∧
    Geometry.ofExtents [10, 7000, 4] [20, unlimited, 6] [4, 3, 2] 4 = .ok g' ∧
    swizzle [4, 1000, 2] 1 = .ok [1000, 4, 2] ∧ unswizzle [1000, 4, 2] 1 = .ok [4, 1000, 2] ∧
    linearIndex g [4, 1000, 2] = 1000 * 15 + 14 ∧ linearIndex g' [4, 1000, 2] = 1000 * 15 + 14 ∧
    ∃ c, g.Holds c ∧ linearIndex g c = 2 ^ 64 - 2 := by
  have made : Geometry.ofExtents [10, 7, 4] [20, unlimited, 6] [4, 3, 2] 4 =
      .ok ⟨[3, 3, 2], [5, unlimited, 3], 96⟩ := by decide
  have longer : Geometry.ofExtents [10, 7000, 4] [20, unlimited, 6] [4, 3, 2] 4 =
      .ok ⟨[3, 2334, 2], [5, unlimited, 3], 96⟩ := by decide
  obtain ⟨moves, exact, -, reached, stay⟩ := linearIndex_grows (k := 1) made (by decide) rfl
    (by decide) (by decide)
  have forth : swizzle [4, 1000, 2] 1 = .ok [1000, 4, 2] := rfl
  obtain ⟨back, -⟩ := moves [4, 1000, 2] 1 (by decide)
  rw [forth] at back
  have number := exact [4, 1000, 2] (by decide) (by decide)
  obtain ⟨c, ⟨⟨holds, -⟩, last⟩, -⟩ := reached (by decide) (2 ^ 64 - 2) (by decide)
  exact ⟨_, _, made, longer, forth, back, number, (stay _ _ longer _).trans number, c, holds, last⟩

end Index.ExtensibleArray

end ChunkStore
