import ChunkStore.Grid.Geometry
import Mathlib.Data.List.Forall2
import Mathlib.Data.Finset.Card
import Mathlib.Tactic.Ring

/-!
# Coordinates in row-major order, in unbounded numbers

`Coordinate.rowMajor` numbers the coordinates below given extents (`Coordinate.Within`) with
products that have no bound, and `Coordinate.ofRowMajor` goes back: a bijection with the numbers
below the product of the extents (`rowMajor_lt`, `rowMajor_inj`, `rowMajor_ofRowMajor`). The
64-bit `linearIndex` is that number as long as 64 bits hold the product (`linearIndex_downCounts`),
and it tells the coordinates apart just as long (`linearIndex_injective_iff`). The coordinates that
a grid `Geometry.Holds` are those below its largest extent.
-/

namespace ChunkStore.Coordinate

/-- One component per extent, each below it. -/
abbrev Within (coordinate extents : List Nat) : Prop := List.Forall₂ (· < ·) coordinate extents

/-- The number of a coordinate when the last component changes fastest. -/
def rowMajor : (coordinate extents : List Nat) → Nat
  | c :: coordinate, _ :: extents => c * extents.prod + rowMajor coordinate extents
  | _, _ => 0

/-- The coordinate below the extents with a given number. -/
def ofRowMajor : (n : Nat) → (extents : List Nat) → List Nat
  | _, [] => []
  | n, _ :: extents => n / extents.prod :: ofRowMajor (n % extents.prod) extents

theorem Within.prod_pos {c es : List Nat} (h : Within c es) : 0 < es.prod := by
  induction h with
  | nil => simp
  | cons lt _ ih => exact Nat.mul_pos (Nat.zero_lt_of_lt lt) ih

theorem Within.pos {c es : List Nat} (h : Within c es) : ∀ e ∈ es, 0 < e :=
  List.prod_pos_iff_forall_pos_nat.1 h.prod_pos

theorem rowMajor_lt {c es : List Nat} (h : Within c es) : rowMajor c es < es.prod := by
  induction h with
  | nil => simp [rowMajor]
  | @cons c e cs es lt _ ih =>
    have room : (c + 1) * es.prod ≤ e * es.prod := Nat.mul_le_mul_right _ lt
    rw [Nat.succ_mul] at room
    simp only [rowMajor, List.prod_cons]
    omega

/-- Remainders lie below their divisors. -/
theorem within_mod {x es : List Nat} (ranks : x.length = es.length) (pos : ∀ e ∈ es, 0 < e) :
    Within (List.zipWith (· % ·) x es) es := by
  induction x generalizing es with
  | nil =>
    rw [List.length_eq_zero_iff.1 ranks.symm]
    exact .nil
  | cons a x ih =>
    obtain _ | ⟨e, es⟩ := es
    · simp at ranks
    refine .cons (Nat.mod_lt a (pos e List.mem_cons_self)) (ih (Nat.succ.inj ranks) ?_)
    exact fun e mem => pos e (List.mem_cons_of_mem _ mem)

/-- Quotient and remainder of a row-major number are the slowest component and the others. -/
theorem rowMajor_cons_div_mod {c e : Nat} {cs es : List Nat} (h : Within cs es) :
    rowMajor (c :: cs) (e :: es) / es.prod = c ∧
      rowMajor (c :: cs) (e :: es) % es.prod = rowMajor cs es := by
  have lt := rowMajor_lt h
  rw [rowMajor, Nat.mul_comm, Nat.mul_add_div h.prod_pos, Nat.mul_add_mod]
  exact ⟨by rw [Nat.div_eq_of_lt lt, Nat.add_zero], Nat.mod_eq_of_lt lt⟩

theorem rowMajor_inj {es c d : List Nat} (hc : Within c es) (hd : Within d es)
    (same : rowMajor c es = rowMajor d es) : c = d := by
  induction hc generalizing d with
  | nil => cases hd; rfl
  | @cons c e cs es _ hcs ih =>
    obtain _ | ⟨_, hds⟩ := hd
    obtain ⟨cq, cr⟩ := rowMajor_cons_div_mod (c := c) (e := e) hcs
    obtain ⟨dq, dr⟩ := rowMajor_cons_div_mod (e := e) hds
    rw [same, dq] at cq
    rw [same, dr] at cr
    rw [cq, ih hds cr.symm]

theorem within_ofRowMajor {n : Nat} {es : List Nat} (h : n < es.prod) :
    Within (ofRowMajor n es) es := by
  induction es generalizing n with
  | nil => exact .nil
  | cons e es ih =>
    rw [List.prod_cons, Nat.mul_comm] at h
    have pos : 0 < es.prod := Nat.pos_of_mul_pos_right (Nat.zero_lt_of_lt h)
    exact .cons (Nat.div_lt_of_lt_mul h) (ih (Nat.mod_lt n pos))

theorem rowMajor_ofRowMajor {n : Nat} {es : List Nat} (h : n < es.prod) :
    rowMajor (ofRowMajor n es) es = n := by
  induction es generalizing n with
  | nil => simp at h; simp [rowMajor, h]
  | cons e es ih =>
    rw [List.prod_cons, Nat.mul_comm] at h
    have pos : 0 < es.prod := Nat.pos_of_mul_pos_right (Nat.zero_lt_of_lt h)
    rw [ofRowMajor, rowMajor, ih (Nat.mod_lt n pos)]
    exact Nat.div_add_mod' n es.prod

/-! ## The 64-bit numbers -/

/-- A product of positive extents that 64 bits hold is computed exactly. -/
theorem extentProduct_eq {es : List Nat} (pos : ∀ e ∈ es, 0 < e) (fits : es.prod ≤ maxWord) :
    extentProduct es = es.prod := by
  induction es with
  | nil => rfl
  | cons e es ih =>
    have posTail : ∀ e ∈ es, 0 < e := fun x hx => pos x (List.mem_cons_of_mem e hx)
    have one : 1 ≤ es.prod := List.prod_pos_iff_forall_pos_nat.2 posTail
    have atMost : es.prod ≤ e * es.prod := Nat.le_mul_of_pos_left _ (pos e List.mem_cons_self)
    rw [List.prod_cons] at fits
    rw [extentProduct, ih posTail (by omega), List.prod_cons, Nat.mul_comm es.prod e]
    split
    · -- An unlimited extent leaves room for no other factor than 1.
      next h =>
        have : maxWord * 1 ≤ e * es.prod := Nat.mul_le_mul (by rw [h]; rfl) one
        rw [unlimited]
        omega
    · exact saturate_of_le fits

/-- With the multipliers of extents whose product is at most `2 ^ 64`, the sum of products is the
row-major number; a multiplier that saturates meets the component 0 only. -/
theorem dot_downCounts {c es : List Nat} (h : Within c es) (fits : es.prod ≤ UInt64.size) :
    dot c (downCounts es) = rowMajor c es := by
  induction h with
  | nil => rfl
  | @cons c e cs es lt hcs ih =>
    rw [List.prod_cons] at fits
    have tail : es.prod ≤ e * es.prod := Nat.le_mul_of_pos_left _ (Nat.zero_lt_of_lt lt)
    rw [downCounts, dot, rowMajor, ih (tail.trans fits)]
    congr 1
    rcases Nat.eq_zero_or_pos c with zero | pos
    · simp [zero]
    · have twice : 2 * es.prod ≤ e * es.prod := Nat.mul_le_mul_right _ (by omega)
      have size : UInt64.size = maxWord + 1 := rfl
      have big : 1 ≤ maxWord := by decide
      rw [extentProduct_eq (Within.pos hcs) (by omega)]

theorem linearIndex_downCounts {c es : List Nat} (h : Within c es)
    (fits : es.prod ≤ UInt64.size) : linearIndex c (downCounts es) = rowMajor c es := by
  rw [linearIndex, dot_downCounts h fits,
    Nat.mod_eq_of_lt (Nat.lt_of_lt_of_le (rowMajor_lt h) fits)]

/-- A numbering below `bound` that tells apart all coordinates below the extents is possible only
when there are no more than `bound` of them. -/
theorem prod_le_of_injective {es : List Nat} {bound : Nat} (number : List Nat → Nat)
    (below : ∀ c, number c < bound)
    (injective : ∀ c d, Within c es → Within d es → number c = number d → c = d) :
    es.prod ≤ bound := by
  by_contra tooMany
  have card : (Finset.range bound).card < (Finset.range es.prod).card := by
    rw [Finset.card_range, Finset.card_range]
    omega
  have maps : ∀ n ∈ Finset.range es.prod, number (ofRowMajor n es) ∈ Finset.range bound :=
    fun n _ => Finset.mem_range.2 (below _)
  obtain ⟨m, hm, n, hn, differ, same⟩ := Finset.exists_ne_map_eq_of_card_lt_of_maps_to card maps
  rw [Finset.mem_range] at hm hn
  apply differ
  have equal := injective _ _ (within_ofRowMajor hm) (within_ofRowMajor hn) same
  rw [← rowMajor_ofRowMajor hm, equal, rowMajor_ofRowMajor hn]

/-- The 64-bit number tells all coordinates below the extents apart exactly when there are at most
`2 ^ 64` of them. -/
theorem linearIndex_injective_iff {es : List Nat} :
    (∀ c d, Within c es → Within d es →
      linearIndex c (downCounts es) = linearIndex d (downCounts es) → c = d) ↔
    es.prod ≤ UInt64.size := by
  constructor
  · exact prod_le_of_injective _ fun c => linearIndex_lt c _
  · intro fits c d hc hd same
    rw [linearIndex_downCounts hc fits, linearIndex_downCounts hd fits] at same
    exact rowMajor_inj hc hd same

/-! ## One dimension before the others -/

theorem moveToFront_perm (k : Nat) (c : List Nat) : (moveToFront k c).Perm c := by
  unfold moveToFront
  split
  · next h =>
      obtain ⟨lt, rfl⟩ := List.getElem?_eq_some_iff.1 h
      exact List.getElem_cons_eraseIdx_perm lt
  · exact .refl _

theorem within_moveToFront {c es : List Nat} (k : Nat) (h : Within c es) :
    Within (moveToFront k c) (moveToFront k es) := by
  unfold moveToFront
  by_cases lt : k < c.length
  · have lt' : k < es.length := h.length_eq ▸ lt
    rw [List.getElem?_eq_getElem lt, List.getElem?_eq_getElem lt']
    refine .cons ?_ ?_
    · simpa using h.get lt lt'
    · rw [List.eraseIdx_eq_take_drop_succ, List.eraseIdx_eq_take_drop_succ]
      exact List.rel_append (List.forall₂_take k h) (List.forall₂_drop (k + 1) h)
  · rw [List.getElem?_eq_none (by omega), List.getElem?_eq_none (by rw [← h.length_eq]; omega)]
    exact h

theorem moveFromFront_moveToFront {k : Nat} {c : List Nat} (h : k < c.length) :
    moveFromFront k (moveToFront k c) = c := by
  simp only [moveToFront, List.getElem?_eq_getElem h, moveFromFront]
  exact List.insertIdx_eraseIdx_getElem h

theorem moveToFront_inj {k : Nat} {c d : List Nat} (length : c.length = d.length)
    (same : moveToFront k c = moveToFront k d) : c = d := by
  by_cases h : k < c.length
  · rw [← moveFromFront_moveToFront h, same, moveFromFront_moveToFront (length ▸ h)]
  · simpa [moveToFront, List.getElem?_eq_none (Nat.le_of_not_lt h),
      List.getElem?_eq_none (Nat.le_of_not_lt (length ▸ h))] using same

end ChunkStore.Coordinate

/-! ## The chunks of a dataset -/

/-- A product that 64 bits hold all along. -/
theorem ChunkStore.checkedProduct_eq {start n : Nat} {factors : List Nat}
    (product : checkedProduct start factors = some n) : n = start * factors.prod := by
  unfold checkedProduct at product
  induction factors generalizing start with
  | nil =>
    cases product
    rw [List.prod_nil, Nat.mul_one]
  | cons f factors ih =>
    rw [List.foldlM_cons, Option.bind_eq_bind, Option.bind_eq_some_iff] at product
    obtain ⟨m, step, rest⟩ := product
    obtain ⟨-, rfl⟩ := checked_eq_some_iff.1 step
    rw [ih rest, List.prod_cons, Nat.mul_assoc]

namespace ChunkStore.Geometry

/-- The coordinate has the rank of the grid and lies within the largest extent. -/
def Holds (g : Geometry) (c : Coordinate) : Prop := c.length = g.rank ∧ g.withinMax c

instance (g : Geometry) (c : Coordinate) : Decidable (g.Holds c) :=
  inferInstanceAs (Decidable (_ ∧ _))

/-- A grid that was made has one component per dimension and chunks that have elements. -/
theorem of_ofExtents {dims maxDims chunkDims : List Nat} {elementSize : Nat} {g : Geometry}
    (made : ofExtents dims maxDims chunkDims elementSize = .ok g) :
    dims.length = chunkDims.length ∧ maxDims.length = chunkDims.length ∧ 0 ∉ chunkDims ∧
      checkedProduct elementSize chunkDims = some g.chunkBytes ∧
      g.scaledDims = List.zipWith ceilDiv dims chunkDims ∧
      g.scaledMaxDims = List.zipWith ceilDiv maxDims chunkDims := by
  unfold ofExtents at made
  split at made
  · cases made
  next rank =>
  split at made
  · cases made
  next maxRank =>
  split at made
  · cases made
  next pos =>
  split at made
  · cases made
  next bytes =>
  cases made
  exact ⟨Classical.not_not.1 rank, Classical.not_not.1 maxRank, pos, bytes, rfl, rfl⟩

theorem ranks_of_ofExtents {dims maxDims chunkDims : List Nat} {elementSize : Nat} {g : Geometry}
    (made : ofExtents dims maxDims chunkDims elementSize = .ok g) :
    g.rank = chunkDims.length ∧ g.scaledMaxDims.length = g.rank := by
  obtain ⟨rank, maxRank, -, -, scaled, scaledMax⟩ := of_ofExtents made
  rw [Geometry.rank, scaled, scaledMax, List.length_zipWith, List.length_zipWith]
  omega

theorem holds_iff_within {g : Geometry} {c : Coordinate} (ranks : g.scaledMaxDims.length = g.rank) :
    g.Holds c ↔ Coordinate.Within c g.scaledMaxDims := by
  rw [Holds, Coordinate.Within, List.forall₂_iff_zip, ranks, withinMax, List.all_eq_true]
  simp only [Prod.forall, decide_eq_true_eq]

theorem Holds.linearIndex_lt {g : Geometry} {c : Coordinate} (h : g.Holds c)
    (ranks : g.scaledMaxDims.length = g.rank) (fits : g.scaledMaxDims.prod ≤ UInt64.size) :
    Coordinate.linearIndex c g.downMaxCounts < g.scaledMaxDims.prod := by
  have within := (holds_iff_within ranks).1 h
  rw [downMaxCounts, Coordinate.linearIndex_downCounts within fits]
  exact Coordinate.rowMajor_lt within

theorem checkRank_eq_ok_iff {g : Geometry} {c : Coordinate} :
    g.checkRank c = .ok () ↔ c.length = g.rank := by
  unfold checkRank
  split
  · simp_all
  · simp_all

theorem Holds.checkRank {g : Geometry} {c : Coordinate} (h : g.Holds c) :
    g.checkRank c = .ok () := checkRank_eq_ok_iff.2 h.1

end ChunkStore.Geometry
