import ChunkStore.Bytes
import ChunkStore.Source

/-!
# Bytes at their place in a file

`Placed file address bytes` says that a file has given bytes at an address. They are what a read
answers (`Placed.read`), their parts are at places of their own (`Placed.left`, `Placed.right`,
`Placed.run`), and they stay where they are when the file grows (`Placed.grow`).
-/

namespace ChunkStore

/-- The file has `bytes` at `address`. -/
def Placed (file : Image) (address : Nat) (bytes : Bytes) : Prop :=
  ∃ before rest, file = before ++ bytes ++ rest ∧ before.length = address

namespace Placed

variable {file : Image} {address : Nat} {bytes first second : Bytes}

theorem le (h : Placed file address bytes) : address + bytes.length ≤ file.length := by
  obtain ⟨before, rest, rfl, rfl⟩ := h
  rw [List.length_append, List.length_append]
  omega

theorem read {length : Nat} (h : Placed file address bytes) (all : length = bytes.length) :
    file.read address length = .ok bytes := by
  have inside := h.le
  obtain ⟨before, rest, rfl, rfl⟩ := h
  subst all
  rw [Image.read, if_pos inside, slice, List.append_assoc, List.drop_left, List.take_left]

theorem left (h : Placed file address (first ++ second)) : Placed file address first := by
  obtain ⟨before, rest, rfl, place⟩ := h
  exact ⟨before, second ++ rest, by simp only [List.append_assoc], place⟩

theorem right (h : Placed file address (first ++ second)) :
    Placed file (address + first.length) second := by
  obtain ⟨before, rest, rfl, rfl⟩ := h
  exact ⟨before ++ first, rest, by simp only [List.append_assoc], List.length_append⟩

/-- One of several runs back to back. -/
theorem run {runs : List Bytes} {i : Nat} {r : Bytes} (h : Placed file address runs.flatten)
    (found : runs[i]? = some r) : Placed file (address + (runs.take i).flatten.length) r := by
  induction runs generalizing address i with
  | nil => simp at found
  | cons head runs ih =>
    rw [List.flatten_cons] at h
    cases i with
    | zero =>
      rw [List.getElem?_cons_zero] at found
      cases found
      exact h.left
    | succ i =>
      have place := ih h.right found
      rwa [Nat.add_assoc, ← List.length_append, ← List.flatten_cons, ← List.take_succ_cons] at place

theorem grow (h : Placed file address bytes) (more : Bytes) :
    Placed (file ++ more) address bytes := by
  obtain ⟨before, rest, rfl, place⟩ := h
  exact ⟨before, rest ++ more, by simp only [List.append_assoc], place⟩

/-- Bytes put at the end of a file. -/
theorem atEnd (file : Image) (bytes : Bytes) : Placed (file ++ bytes) file.length bytes :=
  ⟨file, [], by rw [List.append_nil], rfl⟩

end Placed

end ChunkStore
