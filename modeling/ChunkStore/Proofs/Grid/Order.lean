import ChunkStore.Grid.Coordinate
import Mathlib.Data.List.Lex

/-!
# The order of coordinates

`Coordinate.lexCompare` decides the lexicographic order of lists. The lemmas here say so for each of
its three answers, so that what is sorted by it can be reasoned about with `<` and `=`.
-/

namespace ChunkStore.Coordinate

variable {a b : List Nat}

theorem lexCompare_cons {x y : Nat} :
    lexCompare (x :: a) (y :: b) = (compare x y).then (lexCompare a b) := by
  rcases Nat.lt_trichotomy x y with less | rfl | greater
  · rw [lexCompare, if_pos less, Nat.compare_eq_lt.2 less]
    rfl
  · rw [lexCompare, if_neg (Nat.lt_irrefl x), if_neg (Nat.lt_irrefl x), Nat.compare_eq_eq.2 rfl]
    rfl
  · rw [lexCompare, if_neg (Nat.lt_asymm greater), if_pos greater, Nat.compare_eq_gt.2 greater]
    rfl

@[simp] theorem lexCompare_eq_lt_iff : lexCompare a b = .lt ↔ a < b := by
  induction a generalizing b with
  | nil => cases b <;> simp [lexCompare]
  | cons x a ih =>
    cases b with
    | nil => simp [lexCompare]
    | cons y b =>
      rw [lexCompare_cons, Ordering.then_eq_lt, Nat.compare_eq_lt, Nat.compare_eq_eq, ih,
        List.cons_lt_cons_iff]

@[simp] theorem lexCompare_eq_gt_iff : lexCompare a b = .gt ↔ b < a := by
  induction a generalizing b with
  | nil => cases b <;> simp [lexCompare]
  | cons x a ih =>
    cases b with
    | nil => simp [lexCompare]
    | cons y b =>
      rw [lexCompare_cons, Ordering.then_eq_gt, Nat.compare_eq_gt, Nat.compare_eq_eq, ih,
        List.cons_lt_cons_iff, eq_comm]

@[simp] theorem lexCompare_eq_eq_iff : lexCompare a b = .eq ↔ a = b := by
  have less := @lexCompare_eq_lt_iff a b
  have greater := @lexCompare_eq_gt_iff a b
  rcases lt_trichotomy a b with lt | rfl | gt
  · rw [less.2 lt]
    exact iff_of_false (by decide) lt.ne
  · cases side : lexCompare a a with
    | lt => exact absurd (less.1 side) (lt_irrefl a)
    | gt => exact absurd (greater.1 side) (lt_irrefl a)
    | eq => simp
  · rw [greater.2 gt]
    exact iff_of_false (by decide) gt.ne'

end ChunkStore.Coordinate
