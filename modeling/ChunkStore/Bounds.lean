import ChunkStore.Error

/-!
# Results that may leave their range

Sizes, addresses and coordinates have 64 bits. `Bounds.within` insists on a number that they hold,
`Bounds.sub` and `Bounds.div` on a difference and a quotient that exist, `Bounds.item` and
`Bounds.run` on items that a list has; the error is `Error.outOfRange`. An expression of sums and
products without a zero factor is never smaller than its parts, so one `within` around all of it
covers them.
-/

namespace ChunkStore.Bounds

/-- `n` itself, when 64 bits hold it. -/
def within (n : Nat) : Except Error Nat := if n ≤ maxWord then .ok n else .error .outOfRange

/-- The difference, when it is not negative. -/
def sub (a b : Nat) : Except Error Nat := if b ≤ a then .ok (a - b) else .error .outOfRange

/-- The quotient, when the divisor is not zero. -/
def div (a b : Nat) : Except Error Nat := if b = 0 then .error .outOfRange else .ok (a / b)

/-- Item `i` of a list that has one. -/
def item {α : Type} (xs : List α) (i : Nat) : Except Error α :=
  match xs[i]? with
  | some x => .ok x
  | none => .error .outOfRange

/-- The `length` items from `offset` on of a list that has them. -/
def run {α : Type} (xs : List α) (offset length : Nat) : Except Error (List α) :=
  if offset + length ≤ xs.length then .ok (slice xs offset length) else .error .outOfRange

/-- The product of `factors`, when no partial product leaves 64 bits. -/
def product (factors : List Nat) : Except Error Nat :=
  factors.foldlM (fun product factor => within (product * factor)) 1

theorem within_eq_ok_iff {n m : Nat} : within n = .ok m ↔ n ≤ maxWord ∧ n = m := by
  unfold within
  split
  · simp_all
  · simp; omega

theorem sub_eq_ok_iff {a b n : Nat} : sub a b = .ok n ↔ b + n = a := by
  unfold sub
  split
  · simp; omega
  · simp; omega

theorem div_eq_ok_iff {a b n : Nat} : div a b = .ok n ↔ b ≠ 0 ∧ a / b = n := by
  unfold div
  split <;> simp_all

theorem item_eq_ok_iff {α : Type} {xs : List α} {i : Nat} {x : α} :
    item xs i = .ok x ↔ xs[i]? = some x := by
  unfold item
  split <;> simp_all

theorem run_eq_ok_iff {α : Type} {xs ys : List α} {offset length : Nat} :
    run xs offset length = .ok ys ↔
      offset + length ≤ xs.length ∧ slice xs offset length = ys := by
  unfold run
  split
  · simp_all
  · simp; omega

end ChunkStore.Bounds
