import ChunkStore.Error
import Mathlib.Data.List.Forall2

/-!
# Results that may be an error, opened

A sequence of steps succeeds exactly when each step does (`bind_eq_ok_iff`, `mapM_eq_ok_iff`); a
step that is guarded by a throw succeeds when the guard is down (`guard_eq_ok_iff`). When a fold
succeeds, so do its steps (`exists_step_of_foldlM`).
-/

namespace ChunkStore

variable {α β ε : Type}

theorem bind_eq_ok_iff {x : Except ε α} {f : α → Except ε β} {b : β} :
    (x >>= f) = .ok b ↔ ∃ a, x = .ok a ∧ f a = .ok b := by
  constructor
  · intro done
    cases x with
    | error e => cases done
    | ok a => exact ⟨a, rfl, done⟩
  · rintro ⟨a, rfl, done⟩
    exact done

/-- A sequence of steps fails in its first step that fails. -/
theorem bind_eq_error_iff {x : Except ε α} {f : α → Except ε β} {e : ε} :
    (x >>= f) = .error e ↔ x = .error e ∨ ∃ a, x = .ok a ∧ f a = .error e := by
  constructor
  · intro failed
    cases x with
    | error e' =>
      cases failed
      exact .inl rfl
    | ok a => exact .inr ⟨a, rfl, failed⟩
  · rintro (rfl | ⟨a, rfl, failed⟩)
    · rfl
    · exact failed

theorem map_eq_ok_iff {x : Except ε α} {f : α → β} {b : β} :
    x.map f = .ok b ↔ ∃ a, x = .ok a ∧ f a = b := by
  constructor
  · intro done
    cases x with
    | error e => cases done
    | ok a =>
      cases done
      exact ⟨a, rfl, rfl⟩
  · rintro ⟨a, rfl, rfl⟩
    rfl

/-- Steps after a throw are taken when it is passed. -/
theorem guard_congr {c : Prop} [Decidable c] {e : ε} {f : PUnit → Except ε β} {x : Except ε β}
    (passed : ¬ c → f ⟨⟩ = x) :
    (if c then throw e >>= f else f ⟨⟩) = if c then .error e else x := by
  split
  · rfl
  · next holds => exact passed holds

/-- A throw that is passed leaves the steps after it. -/
theorem guard_eq_ok_iff {c : Prop} [Decidable c] {e : ε} {f : PUnit → Except ε β} {b : β} :
    (if c then throw e >>= f else f ⟨⟩) = .ok b ↔ ¬ c ∧ f ⟨⟩ = .ok b := by
  by_cases holds : c
  · rw [if_pos holds]
    constructor
    · intro done
      cases done
    · intro passed
      exact absurd holds passed.1
  · rw [if_neg holds]
    exact ⟨fun done => ⟨holds, done⟩, fun passed => passed.2⟩

/-- A traversal succeeds when every step does, with the results in order. -/
theorem mapM_eq_ok_iff {f : α → Except ε β} {xs : List α} {ys : List β} :
    xs.mapM f = .ok ys ↔ List.Forall₂ (fun x y => f x = .ok y) xs ys := by
  induction xs generalizing ys with
  | nil =>
    rw [List.mapM_nil, List.forall₂_nil_left_iff]
    exact ⟨fun h => by cases h; rfl, fun h => by rw [h]; rfl⟩
  | cons x xs ih =>
    rw [List.mapM_cons]
    constructor
    · intro accepted
      obtain ⟨y, first, accepted⟩ := bind_eq_ok_iff.1 accepted
      obtain ⟨ys', others, accepted⟩ := bind_eq_ok_iff.1 accepted
      cases accepted
      exact .cons first (ih.1 others)
    · intro steps
      cases steps with
      | cons first others => rw [first, ih.2 others]; rfl

/-- A traversal fails with the error of one of its steps. -/
theorem exists_of_mapM_eq_error {f : α → Except ε β} {xs : List α} {e : ε}
    (failed : xs.mapM f = .error e) : ∃ x ∈ xs, f x = .error e := by
  induction xs with
  | nil => cases failed
  | cons x xs ih =>
    rw [List.mapM_cons] at failed
    rcases bind_eq_error_iff.1 failed with first | ⟨y, -, failed⟩
    · exact ⟨x, List.mem_cons_self, first⟩
    · rcases bind_eq_error_iff.1 failed with others | ⟨ys, -, never⟩
      · obtain ⟨x', mem, here⟩ := ih others
        exact ⟨x', List.mem_cons_of_mem x mem, here⟩
      · cases never

/-- When a fold succeeds, so does each of its steps. -/
theorem exists_step_of_foldlM {f : β → α → Except ε β} {xs : List α} {b b' : β}
    (done : xs.foldlM f b = .ok b') : ∀ x ∈ xs, ∃ before after, f before x = .ok after := by
  induction xs generalizing b with
  | nil => exact nofun
  | cons x xs ih =>
    rw [List.foldlM_cons] at done
    obtain ⟨next, step, done⟩ := bind_eq_ok_iff.1 done
    intro y mem
    rcases List.mem_cons.1 mem with rfl | later
    · exact ⟨b, next, step⟩
    · exact ih done y later

end ChunkStore
