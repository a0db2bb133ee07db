import ChunkStore.Index.TreeOne
import ChunkStore.Proofs.Grid.Order

/-!
# Searching spans in order

The keys of a node are in order when each comes before all that follow it and the component for
the bytes of an element is 0 in all of them (`Ordered`). Between such keys the comparison for one
dimension says what the lexicographic one says (`compareSpan_eq`), the span that `Covers` a target
is the only one (`Covers.unique`), and `findChild` finds it (`findChild_cases`).
-/

namespace ChunkStore.Index.TreeOne

/-- Each key comes before all that follow it, and has 0 as its last component. -/
structure Ordered (keys : List Key) : Prop where
  increasing : keys.Pairwise fun k k' => k.scaled < k'.scaled
  last : ∀ k ∈ keys, k.scaled.getLast? = some 0

/-- The target lies from the key at `slot` up to, and without, the next key. -/
def Covers (keys : List Key) (target : List Nat) (slot : Nat) : Prop :=
  ∃ left right, keys[slot]? = some left ∧ keys[slot + 1]? = some right ∧
    left.scaled ≤ target ∧ target < right.scaled

instance (keys : List Key) (target : List Nat) (slot : Nat) : Decidable (Covers keys target slot) :=
  decidable_of_iff (∃ left ∈ keys[slot]?, ∃ right ∈ keys[slot + 1]?,
      left.scaled ≤ target ∧ target < right.scaled)
    ⟨fun ⟨left, here, right, there, inside⟩ => ⟨left, right, here, there, inside⟩,
      fun ⟨left, right, here, there, inside⟩ => ⟨left, here, right, there, inside⟩⟩

variable {keys : List Key} {target : List Nat}

/-! ## Comparing with one span -/

theorem compareLex_eq (left target right : List Nat) :
    compareLex left target right =
      if right ≤ target then .gt else if target < left then .lt else .eq := by
  simp only [compareLex, ne_eq, Coordinate.lexCompare_eq_lt_iff, not_lt]

/-- Where last components are 0, the comparison for one dimension may leave that of the left key
aside. -/
theorem compareSpan_eq {c left right : List Nat} (length : left.length = c.length + 1)
    (length' : right.length = c.length + 1) (last : left.getLast? = some 0)
    (last' : right.getLast? = some 0) :
    compareSpan left (c ++ [0]) right = .ok (compareLex left (c ++ [0]) right) := by
  match c, left, right with
  | [], _, _ => rfl
  | [_, _], _, _ => rfl
  | _ :: _ :: _ :: _, _, _ => rfl
  | [t], [l, u], [r, v] =>
    cases last
    cases last'
    have above : [r, 0] ≤ [t, 0] ↔ r < t ∨ t = r ∧ 0 ≤ 0 := by
      rw [← not_lt, List.cons_lt_cons_iff]
      simp only [lt_irrefl, and_false, or_false, le_refl, and_true]
      omega
    have below : [t, 0] < [l, 0] ↔ t < l := by
      simp [List.cons_lt_cons_iff]
    simp only [List.cons_append, List.nil_append, compareSpan, compareLex_eq, above, below]

/-! ## Searching all spans of a node -/

theorem Ordered.le_of_le (ordered : Ordered keys) {i j : Nat} {k k' : Key}
    (first : keys[i]? = some k) (second : keys[j]? = some k') (le : i ≤ j) :
    k.scaled ≤ k'.scaled := by
  rcases Nat.eq_or_lt_of_le le with rfl | less
  · rw [first] at second
    cases second
    exact le_refl _
  · obtain ⟨hi, rfl⟩ := List.getElem?_eq_some_iff.1 first
    obtain ⟨hj, rfl⟩ := List.getElem?_eq_some_iff.1 second
    exact (List.pairwise_iff_getElem.1 ordered.increasing i j hi hj less).le

theorem Covers.unique (ordered : Ordered keys) {i j : Nat} (first : Covers keys target i)
    (second : Covers keys target j) : i = j := by
  -- The right end of an earlier span is not behind the left end of a later one.
  have apart : ∀ {i j}, Covers keys target i → Covers keys target j → ¬ i < j := by
    rintro i j ⟨-, right, -, stop, -, below⟩ ⟨left, -, start, -, above, -⟩ less
    exact absurd (below.trans_le (ordered.le_of_le stop start less)) (not_lt.2 above)
  exact Nat.le_antisymm (not_lt.1 (apart second first)) (not_lt.1 (apart first second))

/-- The search keeps every span that covers the target among those from `low` up to `high`. -/
theorem findBetween_cases {a : Array Key} (ordered : Ordered a.toList)
    (compares : ∀ l ∈ a.toList, ∀ r ∈ a.toList,
      compareSpan l.scaled target r.scaled = .ok (compareLex l.scaled target r.scaled))
    {low high : Nat} {h : high < a.size}
    (inside : ∀ slot, Covers a.toList target slot → low ≤ slot ∧ slot < high) :
    (∃ slot, findBetween a target low high h = .ok (some slot) ∧ Covers a.toList target slot) ∨
      findBetween a target low high h = .ok none ∧ ∀ slot, ¬ Covers a.toList target slot := by
  fun_induction findBetween a target low high h with
  | case1 low high h lt middle before behind =>
    have left : a.toList[middle]? = some a[middle] := by
      rw [Array.getElem?_toList, Array.getElem?_eq_getElem]
    have right : a.toList[middle + 1]? = some a[middle + 1] := by
      rw [Array.getElem?_toList, Array.getElem?_eq_getElem]
    rw [compares _ (List.mem_of_getElem? left) _ (List.mem_of_getElem? right), compareLex_eq]
    split
    next above =>
      apply behind
      rintro slot ⟨start, next, here, there, reached, short⟩
      refine ⟨?_, (inside slot ⟨start, next, here, there, reached, short⟩).2⟩
      by_contra early
      exact absurd (short.trans_le (ordered.le_of_le there right (by omega))) (not_lt.2 above)
    next below =>
    split
    next less =>
      apply before
      rintro slot ⟨start, next, here, there, reached, short⟩
      refine ⟨(inside slot ⟨start, next, here, there, reached, short⟩).1, ?_⟩
      by_contra late
      exact absurd (less.trans_le (ordered.le_of_le left here (by omega))) (not_lt.2 reached)
    next ge =>
      exact .inl ⟨middle, rfl, _, _, left, right, not_lt.1 ge, not_le.1 below⟩
  | case2 low high h meet =>
    refine .inr ⟨rfl, fun slot covers => ?_⟩
    obtain ⟨ge, less⟩ := inside slot covers
    omega

/-- The search finds the span that covers the target, if there is one. -/
theorem findChild_cases (ordered : Ordered keys)
    (compares : ∀ l ∈ keys, ∀ r ∈ keys,
      compareSpan l.scaled target r.scaled = .ok (compareLex l.scaled target r.scaled)) :
    (∃ slot, findChild keys target = .ok (some slot) ∧ Covers keys target slot) ∨
      findChild keys target = .ok none ∧ ∀ slot, ¬ Covers keys target slot := by
  have inside : ∀ slot, Covers keys target slot → 0 ≤ slot ∧ slot < keys.toArray.size - 1 := by
    rintro slot ⟨-, right, -, there, -, -⟩
    have bound := (List.getElem?_eq_some_iff.1 there).1
    rw [List.size_toArray]
    omega
  unfold findChild
  dsimp only
  split
  · exact findBetween_cases (a := keys.toArray) ordered compares inside
  next none =>
    refine .inr ⟨rfl, fun slot covers => ?_⟩
    have := inside slot covers
    omega

end ChunkStore.Index.TreeOne
