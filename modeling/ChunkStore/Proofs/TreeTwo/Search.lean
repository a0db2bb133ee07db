import ChunkStore.Index.TreeTwo
import ChunkStore.Proofs.Grid.Order
import ChunkStore.Proofs.Runs
import Mathlib.Data.List.Nodup

/-!
# Searching records in order

`descriptorOf` looks a coordinate up in a list of records. In one node whose records are `Sorted`,
`locate` finds the record or the place between two records where it would be (`locate_cases`).
The records of an inner node and of the subtrees below it are in order as `inOrder` lists them, and
what is looked up in all of them is in the subtree at that place (`descriptorOf_inOrder`).
-/

namespace ChunkStore.Index.TreeTwo

/-- Each record comes before all that follow it. -/
def Sorted (records : List Record) : Prop := records.Pairwise fun r r' => r.scaled < r'.scaled

instance (records : List Record) : Decidable (Sorted records) :=
  inferInstanceAs (Decidable (records.Pairwise _))

/-- The descriptor of the record with a coordinate, and the undefined one without such a record. -/
def descriptorOf (records : List Record) (target : Coordinate) : Descriptor :=
  match records.find? fun r => r.scaled = target with
  | some r => r.descriptor
  | none => .undefined

variable {records : List Record} {target : Coordinate}

theorem Sorted.eq_of_mem (sorted : Sorted records) {r r' : Record} (mem : r ∈ records)
    (mem' : r' ∈ records) (same : r.scaled = r'.scaled) : r = r' := by
  have apart : (records.map Record.scaled).Nodup :=
    List.pairwise_map.2 (sorted.imp fun less => ne_of_lt less)
  exact List.inj_on_of_nodup_map apart mem mem' same

theorem descriptorOf_eq_undefined (absent : ∀ r ∈ records, r.scaled ≠ target) :
    descriptorOf records target = .undefined := by
  have none : (records.find? fun r => r.scaled = target) = none :=
    List.find?_eq_none.2 fun r mem => by simpa using absent r mem
  rw [descriptorOf, none]

theorem descriptorOf_eq (sorted : Sorted records) {r : Record} (mem : r ∈ records)
    (here : r.scaled = target) : descriptorOf records target = r.descriptor := by
  rw [descriptorOf]
  split
  next r' found =>
    have same : r'.scaled = target := by simpa using List.find?_some found
    rw [sorted.eq_of_mem (List.mem_of_find?_eq_some found) mem (same.trans here.symm)]
  next none =>
    have differs := List.find?_eq_none.1 none r mem
    simp [here] at differs

/-- Looking up in a part that has whatever is at the target. -/
theorem descriptorOf_eq_of_sublist {part : List Record} (sorted : Sorted records)
    (sublist : part.Sublist records) (all : ∀ r ∈ records, r.scaled = target → r ∈ part) :
    descriptorOf records target = descriptorOf part target := by
  by_cases present : ∃ r ∈ records, r.scaled = target
  · obtain ⟨r, mem, here⟩ := present
    rw [descriptorOf_eq sorted mem here,
      descriptorOf_eq (sorted.sublist sublist) (all r mem here) here]
  · have absent : ∀ r ∈ records, r.scaled ≠ target := fun r mem here => present ⟨r, mem, here⟩
    rw [descriptorOf_eq_undefined absent,
      descriptorOf_eq_undefined fun r mem => absent r (sublist.subset mem)]

theorem descriptorOf_append_left {more : List Record} (absent : ∀ r ∈ more, r.scaled ≠ target) :
    descriptorOf (records ++ more) target = descriptorOf records target := by
  have none : (more.find? fun r => r.scaled = target) = none :=
    List.find?_eq_none.2 fun r mem => by simpa using absent r mem
  rw [descriptorOf, List.find?_append, none, Option.or_none, descriptorOf]

theorem descriptorOf_append_right {before : List Record}
    (absent : ∀ r ∈ before, r.scaled ≠ target) :
    descriptorOf (before ++ records) target = descriptorOf records target := by
  have none : (before.find? fun r => r.scaled = target) = none :=
    List.find?_eq_none.2 fun r mem => by simpa using absent r mem
  rw [descriptorOf, List.find?_append, none, Option.none_or, descriptorOf]

/-! ## One node -/

/-- The target lies between the first `place` records and the others. -/
structure Splits (records : List Record) (target : Coordinate) (place : Nat) : Prop where
  le : place ≤ records.length
  before : ∀ i r, records[i]? = some r → i < place → r.scaled < target
  behind : ∀ i r, records[i]? = some r → place ≤ i → target < r.scaled

namespace Splits

theorem absent {place : Nat} (splits : Splits records target place) :
    ∀ r ∈ records, r.scaled ≠ target := by
  intro r mem
  obtain ⟨i, found⟩ := List.mem_iff_getElem?.1 mem
  rcases Nat.lt_or_ge i place with lt | ge
  · exact ne_of_lt (splits.before i r found lt)
  · exact ne_of_gt (splits.behind i r found ge)

end Splits

/-- The place next to `slot` on one side of it. -/
def placeBeside (slot : Nat) (side : Ordering) : Nat := if side = .gt then slot + 1 else slot

/-- The search keeps the target between the records before `low` and those from `high` on. When
they meet, the slot that was probed last is next to the place where they do. -/
theorem probe_cases {a : Array Record} (sorted : Sorted a.toList) {low high : Nat}
    {h : high ≤ a.size} {last : Nat × Ordering} (le : low ≤ high)
    (before : ∀ (i : Nat) r, a[i]? = some r → i < low → r.scaled < target)
    (behind : ∀ (i : Nat) r, a[i]? = some r → high ≤ i → target < r.scaled)
    (met : low = high → last.2 ≠ .eq ∧ placeBeside last.1 last.2 = low) :
    (∃ slot r, probe a target low high h last = (slot, .eq) ∧ a[slot]? = some r ∧
      r.scaled = target) ∨
    ∃ slot side, probe a target low high h last = (slot, side) ∧ side ≠ .eq ∧
      Splits a.toList target (placeBeside slot side) := by
  have ordered : ∀ (i j : Nat) (r r' : Record), a[i]? = some r → a[j]? = some r' → i < j →
      r.scaled < r'.scaled := by
    intro i j r r' first second less
    rw [← Array.getElem?_toList] at first second
    obtain ⟨hi, rfl⟩ := List.getElem?_eq_some_iff.1 first
    obtain ⟨hj, rfl⟩ := List.getElem?_eq_some_iff.1 second
    exact List.pairwise_iff_getElem.1 sorted i j hi hj less
  fun_induction probe a target low high h last with
  | case1 low high h last lt middle inside less ih =>
    have here : a[middle]? = some a[middle] := Array.getElem?_eq_getElem inside
    rw [Coordinate.lexCompare_eq_lt_iff] at less
    apply ih (by omega) before
    · intro i r found ge
      rcases Nat.eq_or_lt_of_le ge with rfl | beyond
      · rw [here] at found
        cases found
        exact less
      · exact less.trans (ordered _ _ _ _ here found beyond)
    · intro meet
      exact ⟨by simp, meet.symm⟩
  | case2 low high h last lt middle inside greater ih =>
    have here : a[middle]? = some a[middle] := Array.getElem?_eq_getElem inside
    rw [Coordinate.lexCompare_eq_gt_iff] at greater
    apply ih (by omega) _ behind
    · intro meet
      exact ⟨by simp, rfl⟩
    · intro i r found less
      rcases Nat.eq_or_lt_of_le (Nat.le_of_lt_succ less) with rfl | earlier
      · rw [here] at found
        cases found
        exact greater
      · exact (ordered _ _ _ _ found here earlier).trans greater
  | case3 low high h last lt middle inside same =>
    rw [Coordinate.lexCompare_eq_eq_iff] at same
    exact .inl ⟨middle, a[middle], rfl, Array.getElem?_eq_getElem inside, same.symm⟩
  | case4 low high h last meet =>
    obtain rfl : low = high := by omega
    obtain ⟨unequal, place⟩ := met rfl
    refine .inr ⟨last.1, last.2, rfl, unequal, ?_⟩
    rw [place]
    refine ⟨h, ?_, ?_⟩
    · intro i r found
      exact before i r (by rwa [← Array.getElem?_toList])
    · intro i r found
      exact behind i r (by rwa [← Array.getElem?_toList])

/-- The search finds the record with the target, or the place where it would be. -/
theorem locate_cases (sorted : Sorted records) (target : Coordinate) :
    (∃ slot r, locate records target = (slot, .eq) ∧ records[slot]? = some r ∧
      r.scaled = target) ∨
    ∃ slot side, locate records target = (slot, side) ∧ side ≠ .eq ∧
      Splits records target (placeBeside slot side) := by
  have found := @probe_cases target records.toArray sorted 0 records.toArray.size
    (Nat.le_refl _) (0, .lt) (Nat.zero_le _) (fun _ _ _ none => absurd none (Nat.not_lt_zero _))
    (fun i r found beyond => by simp_all) (fun _ => ⟨by simp, rfl⟩)
  simpa [locate] using found

/-! ## A node and the subtrees below it -/

/-- The records of the subtrees below a node, with its own records between them. -/
def inOrder : (own : List Record) → (below : List (List Record)) → List Record
  | r :: own, first :: below => first ++ r :: inOrder own below
  | _, below => below.flatten

variable {own : List Record}

theorem mem_inOrder_of_mem_own {below : List (List Record)} (more : own.length ≤ below.length)
    {r : Record} (mem : r ∈ own) : r ∈ inOrder own below := by
  induction own generalizing below with
  | nil => cases mem
  | cons r' own ih =>
    cases below with
    | nil => simp at more
    | cons first below =>
      rw [inOrder, List.mem_append, List.mem_cons]
      rcases List.mem_cons.1 mem with rfl | later
      · exact .inr (.inl rfl)
      · exact .inr (.inr (ih (Nat.le_of_succ_le_succ more) later))

theorem sublist_inOrder {below : List (List Record)} (more : own.length ≤ below.length)
    {sub : List Record} (mem : sub ∈ below) : sub.Sublist (inOrder own below) := by
  induction own generalizing below with
  | nil => exact List.sublist_flatten_of_mem mem
  | cons r own ih =>
    cases below with
    | nil => simp at more
    | cons first below =>
      rw [inOrder]
      rcases List.mem_cons.1 mem with rfl | later
      · exact List.sublist_append_left _ _
      · exact ((ih (Nat.le_of_succ_le_succ more) later).cons r).trans
          (List.sublist_append_right _ _)

theorem Sorted.of_inOrder {below : List (List Record)} (more : own.length ≤ below.length)
    (sorted : Sorted (inOrder own below)) : Sorted own := by
  induction own generalizing below with
  | nil => exact List.Pairwise.nil
  | cons r own ih =>
    cases below with
    | nil => simp at more
    | cons first below =>
      rw [inOrder, Sorted, List.pairwise_append, List.pairwise_cons] at sorted
      obtain ⟨-, ⟨least, rest⟩, -⟩ := sorted
      have more := Nat.le_of_succ_le_succ more
      exact List.pairwise_cons.2
        ⟨fun r' mem => least r' (mem_inOrder_of_mem_own more mem), ih more rest⟩

/-- What is between two records of a node is in the subtree there. -/
theorem descriptorOf_inOrder {below : List (List Record)} {place : Nat} {sub : List Record}
    (sorted : Sorted (inOrder own below)) (one : below.length = own.length + 1)
    (splits : Splits own target place) (found : below[place]? = some sub) :
    descriptorOf (inOrder own below) target = descriptorOf sub target := by
  induction own generalizing below place with
  | nil =>
    obtain ⟨only, rfl⟩ := List.length_eq_one_iff.1 one
    obtain rfl : place = 0 := Nat.le_zero.1 splits.le
    cases found
    rw [inOrder, List.flatten_singleton]
    simp
  | cons r own ih =>
    cases below with
    | nil => cases one
    | cons first below =>
      rw [inOrder, Sorted, List.pairwise_append, List.pairwise_cons] at sorted
      obtain ⟨-, ⟨least, rest⟩, across⟩ := sorted
      rw [inOrder]
      cases place with
      | zero =>
        cases found
        have less : target < r.scaled := splits.behind 0 r rfl (Nat.le_refl 0)
        apply descriptorOf_append_left
        intro r' mem
        rcases List.mem_cons.1 mem with rfl | later
        · exact ne_of_gt less
        · exact ne_of_gt (less.trans (least r' later))
      | succ place =>
        have less : r.scaled < target := splits.before 0 r rfl (Nat.succ_pos place)
        rw [List.append_cons, descriptorOf_append_right]
        · refine ih rest (Nat.succ.inj one) ⟨Nat.le_of_succ_le_succ splits.le, ?_, ?_⟩ found
          · intro i r' here lt
            exact splits.before (i + 1) r' here (Nat.succ_lt_succ lt)
          · intro i r' here ge
            exact splits.behind (i + 1) r' here (Nat.succ_le_succ ge)
        · intro r' mem
          rcases List.mem_append.1 mem with early | own
          · exact ne_of_lt ((across r' early r List.mem_cons_self).trans less)
          · rw [List.mem_singleton.1 own]
            exact ne_of_lt less

end ChunkStore.Index.TreeTwo
