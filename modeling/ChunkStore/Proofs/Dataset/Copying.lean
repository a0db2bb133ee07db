import ChunkStore.Dataset
import ChunkStore.Proofs.Grid.Odometer
import ChunkStore.Proofs.Results
import ChunkStore.Proofs.Runs

/-!
# Runs of elements, copied

The part of a chunk that a selection takes is copied in runs of elements. `Run.slice_copy` says
what one run does to every element of the result, `Run.slice_foldl_copy_of_covers` and
`Run.slice_foldl_copy_of_not_covers` what several do. `copyRegion` performs the runs `regionRuns`
and nothing else (`copyRegion_eq_foldlM`), and all of them when they lie inside the buffers
(`foldlM_copyRun`).
-/

namespace ChunkStore.Dataset

/-- A run of elements: its place in the chunk, its place in the result and its length. -/
structure Run where
  source : Nat
  target : Nat
  length : Nat

namespace Run

/-- The run writes element `q` of the result. -/
def Covers (r : Run) (q : Nat) : Prop := r.target ≤ q ∧ q < r.target + r.length

/-- The run lies inside a chunk of `held` elements and a result of `total` elements. -/
def Inside (r : Run) (held total : Nat) : Prop :=
  r.source + r.length ≤ held ∧ r.target + r.length ≤ total

/-- The result after the run was copied, for elements of `size` bytes. -/
def copy (size : Nat) (chunk out : Bytes) (r : Run) : Bytes :=
  out.take (r.target * size) ++ slice chunk (r.source * size) (r.length * size) ++
    out.drop (r.target * size + r.length * size)

variable {r : Run} {size held total : Nat} {chunk out : Bytes}

theorem Inside.bytes (inside : r.Inside held total) (size : Nat) :
    r.source * size + r.length * size ≤ held * size ∧
      r.target * size + r.length * size ≤ total * size := by
  rw [← Nat.add_mul, ← Nat.add_mul]
  exact ⟨Nat.mul_le_mul_right _ inside.1, Nat.mul_le_mul_right _ inside.2⟩

theorem copyRun_eq (inside : r.Inside held total) (chunkLength : chunk.length = held * size)
    (outLength : out.length = total * size) :
    copyRun chunk (r.source * size) (r.length * size) out (r.target * size) =
      .ok (r.copy size chunk out) := by
  obtain ⟨source, target⟩ := inside.bytes size
  have run : Bounds.run chunk (r.source * size) (r.length * size) =
      .ok (slice chunk (r.source * size) (r.length * size)) :=
    Bounds.run_eq_ok_iff.2 ⟨by omega, rfl⟩
  have length : (slice chunk (r.source * size) (r.length * size)).length = r.length * size :=
    length_slice (by omega)
  simp only [copyRun, run, bind, Except.bind, overwrite?, length, if_pos (outLength ▸ target)]
  rfl

theorem length_copy (inside : r.Inside held total) (chunkLength : chunk.length = held * size)
    (outLength : out.length = total * size) : (r.copy size chunk out).length = out.length := by
  obtain ⟨source, target⟩ := inside.bytes size
  have length : (slice chunk (r.source * size) (r.length * size)).length = r.length * size :=
    length_slice (by omega)
  simp only [copy, List.length_append, List.length_take, List.length_drop, length]
  omega

/-- Each byte of the result comes from the run where it covers it, and stays elsewhere. -/
theorem getElem?_copy (inside : r.Inside held total) (chunkLength : chunk.length = held * size)
    (outLength : out.length = total * size) (i : Nat) :
    (r.copy size chunk out)[i]? =
      if r.target * size ≤ i ∧ i < r.target * size + r.length * size then
        chunk[r.source * size + (i - r.target * size)]?
      else out[i]? := by
  obtain ⟨source, target⟩ := inside.bytes size
  have length : (slice chunk (r.source * size) (r.length * size)).length = r.length * size :=
    length_slice (by omega)
  have front : (out.take (r.target * size)).length = r.target * size := by
    rw [List.length_take]
    omega
  rw [copy, List.append_assoc, List.getElem?_append, front]
  split
  · next before =>
      rw [List.getElem?_take, if_pos before, if_neg (by omega)]
  · next reached =>
      rw [List.getElem?_append, length]
      split
      · next within =>
          rw [getElem?_slice, if_pos within, if_pos (by omega)]
      · next beyond =>
          rw [List.getElem?_drop, if_neg (by omega)]
          congr 1
          omega

/-- Each element of the result comes from the run where it covers it, and stays elsewhere. -/
theorem slice_copy (inside : r.Inside held total) (chunkLength : chunk.length = held * size)
    (outLength : out.length = total * size) (q : Nat) [Decidable (r.Covers q)] :
    slice (r.copy size chunk out) (q * size) size =
      if r.Covers q then slice chunk ((r.source + (q - r.target)) * size) size
      else slice out (q * size) size := by
  apply List.ext_getElem?
  intro i
  rw [apply_ite (fun bytes : Bytes => bytes[i]?)]
  simp only [getElem?_slice, getElem?_copy inside chunkLength outLength]
  by_cases lt : i < size
  · -- A byte of element `q` is covered exactly when the element is.
    have covered : (r.target * size ≤ q * size + i ∧
        q * size + i < r.target * size + r.length * size) ↔ r.Covers q := by
      have pos : 0 < size := Nat.zero_lt_of_lt lt
      have quotient : (q * size + i) / size = q := by
        rw [Nat.mul_comm, Nat.mul_add_div pos, Nat.div_eq_of_lt lt, Nat.add_zero]
      rw [← Nat.add_mul, ← Nat.le_div_iff_mul_le pos, ← Nat.div_lt_iff_lt_mul pos, quotient]
      rfl
    simp only [if_pos lt, covered]
    split
    · next covers =>
        congr 1
        have place : q * size = r.target * size + (q - r.target) * size := by
          rw [← Nat.add_mul, Nat.add_sub_of_le covers.1]
        rw [Nat.add_mul]
        omega
    · rfl
  · simp only [if_neg lt, ite_self]

/-! ### Several runs -/

variable {runs : List Run}

theorem length_foldl_copy (inside : ∀ r ∈ runs, r.Inside held total)
    (chunkLength : chunk.length = held * size) (outLength : out.length = total * size) :
    (runs.foldl (copy size chunk) out).length = out.length := by
  induction runs generalizing out with
  | nil => rfl
  | cons r runs ih =>
    have one := length_copy (inside r List.mem_cons_self) chunkLength outLength
    rw [List.foldl_cons, ih (fun x hx => inside x (List.mem_cons_of_mem r hx)) (one ▸ outLength),
      one]

/-- An element that no run covers stays as it is. -/
theorem slice_foldl_copy_of_not_covers (inside : ∀ r ∈ runs, r.Inside held total)
    (chunkLength : chunk.length = held * size) (outLength : out.length = total * size) {q : Nat}
    (free : ∀ r ∈ runs, ¬ r.Covers q) :
    slice (runs.foldl (copy size chunk) out) (q * size) size = slice out (q * size) size := by
  classical
  induction runs generalizing out with
  | nil => rfl
  | cons r runs ih =>
    have one := length_copy (inside r List.mem_cons_self) chunkLength outLength
    rw [List.foldl_cons, ih (fun x hx => inside x (List.mem_cons_of_mem r hx)) (one ▸ outLength)
      (fun x hx => free x (List.mem_cons_of_mem r hx)),
      slice_copy (inside r List.mem_cons_self) chunkLength outLength,
      if_neg (free r List.mem_cons_self)]

/-- An element that all the runs which cover it take from place `v` of the chunk. -/
theorem slice_foldl_copy_of_covers (inside : ∀ r ∈ runs, r.Inside held total)
    (chunkLength : chunk.length = held * size) (outLength : out.length = total * size) {q v : Nat}
    (source : ∀ r ∈ runs, r.Covers q → r.source + (q - r.target) = v)
    (covered : ∃ r ∈ runs, r.Covers q) :
    slice (runs.foldl (copy size chunk) out) (q * size) size =
      slice chunk (v * size) size := by
  classical
  induction runs generalizing out with
  | nil => simp at covered
  | cons r runs ih =>
    have one := length_copy (inside r List.mem_cons_self) chunkLength outLength
    have others : ∀ x ∈ runs, x.Inside held total :=
      fun x hx => inside x (List.mem_cons_of_mem r hx)
    rw [List.foldl_cons]
    by_cases later : ∃ r ∈ runs, r.Covers q
    · exact ih others (one ▸ outLength)
        (fun x hx => source x (List.mem_cons_of_mem r hx)) later
    · have now : r.Covers q := by
        obtain ⟨x, mem, covers⟩ := covered
        rcases List.mem_cons.1 mem with rfl | mem
        · exact covers
        · exact absurd ⟨x, mem, covers⟩ later
      rw [slice_foldl_copy_of_not_covers others chunkLength (one ▸ outLength)
        (fun x hx covers => later ⟨x, hx, covers⟩),
        slice_copy (inside r List.mem_cons_self) chunkLength outLength, if_pos now,
        source r List.mem_cons_self now]

end Run

/-! ## The runs of a chunk -/

/-- The runs that a chunk and a selection with the given overlap have in common: one along the
last dimension for each coordinate of the others. -/
def runsOf (coordinate chunkDims : List Nat) (selection : Hyperslab) (common : Box) : List Run :=
  let (low, high) := common.getLastD (0, 0)
  (Box.coordinates common.dropLast).map fun outer =>
    let element := if common.isEmpty then [] else outer ++ [low]
    ⟨positionIn element (List.zipWith (· * ·) coordinate chunkDims)
        (Coordinate.downCounts chunkDims),
      positionIn element selection.start (Coordinate.downCounts selection.count),
      high - low + 1⟩

/-- The runs that `copyRegion` copies. -/
def regionRuns (coordinate chunkDims : List Nat) (selection : Hyperslab) : List Run :=
  match overlap coordinate chunkDims selection.start selection.count with
  | .ok common => runsOf coordinate chunkDims selection common
  | .error _ => []

theorem byteOffset_eq {element origin down : List Nat} {size : Nat}
    (position : positionIn element origin down ≤ maxWord)
    (bytes : positionIn element origin down * size ≤ maxWord) :
    byteOffset element origin down size = .ok (positionIn element origin down * size) := by
  simp only [byteOffset, Bounds.within, if_pos position, bind, Except.bind, if_pos bytes]

theorem foldlM_eq_foldl {α β ε : Type} {f : β → α → Except ε β} {g : β → α → β} {p : β → Prop}
    {xs : List α} {b : β} (start : p b)
    (step : ∀ b, p b → ∀ x ∈ xs, f b x = .ok (g b x) ∧ p (g b x)) :
    xs.foldlM f b = .ok (xs.foldl g b) := by
  induction xs generalizing b with
  | nil => rfl
  | cons x xs ih =>
    obtain ⟨run, keeps⟩ := step b start x List.mem_cons_self
    rw [List.foldlM_cons, run]
    exact ih keeps fun b hb y hy => step b hb y (List.mem_cons_of_mem x hy)

/-- `copyRegion` copies its runs one after another and does nothing else, when no number of it
leaves 64 bits. -/
theorem copyRegion_eq_foldlM {coordinate chunkDims : List Nat} {selection : Hyperslab}
    {size low high : Nat} {common : Box}
    (found : overlap coordinate chunkDims selection.start selection.count = .ok common)
    (last : common.getLastD (0, 0) = (low, high)) (proper : low ≤ high)
    (runFits : (high - low + 1) * size ≤ maxWord)
    (words : ∀ r ∈ runsOf coordinate chunkDims selection common,
      r.source ≤ maxWord ∧ r.target ≤ maxWord)
    (bytes : ∀ r ∈ runsOf coordinate chunkDims selection common,
      r.source * size ≤ maxWord ∧ r.target * size ≤ maxWord) (chunk out : Bytes) :
    copyRegion chunk coordinate chunkDims selection size out =
      (regionRuns coordinate chunkDims selection).foldlM (fun out r =>
        copyRun chunk (r.source * size) (r.length * size) out (r.target * size)) out := by
  have difference : Bounds.sub high low = .ok (high - low) :=
    Bounds.sub_eq_ok_iff.2 (Nat.add_sub_of_le proper)
  have run : Bounds.within ((high - low + 1) * size) = .ok ((high - low + 1) * size) :=
    Bounds.within_eq_ok_iff.2 ⟨runFits, rfl⟩
  rw [regionRuns, found]
  simp only [runsOf, last] at words bytes ⊢
  simp only [copyRegion, found, bind, Except.bind, last, difference, run, Box.visitAll_eq,
    List.foldlM_map]
  rw [List.foldlM_eq_foldl, List.foldlM_eq_foldl]
  refine List.foldl_ext _ _ _ fun before outer mem => bind_congr fun out => ?_
  obtain ⟨source, target⟩ := words _ (List.mem_map_of_mem mem)
  obtain ⟨sourceBytes, targetBytes⟩ := bytes _ (List.mem_map_of_mem mem)
  dsimp only at source target sourceBytes targetBytes
  rw [byteOffset_eq source sourceBytes]
  dsimp only
  rw [byteOffset_eq target targetBytes]

/-- Runs that lie inside the buffers are copied. -/
theorem foldlM_copyRun {runs : List Run} {chunk out : Bytes} {size held total : Nat}
    (inside : ∀ r ∈ runs, r.Inside held total) (chunkLength : chunk.length = held * size)
    (outLength : out.length = total * size) :
    runs.foldlM (fun out r =>
        copyRun chunk (r.source * size) (r.length * size) out (r.target * size)) out =
      .ok (runs.foldl (Run.copy size chunk) out) := by
  refine foldlM_eq_foldl (p := fun out => out.length = total * size) outLength ?_
  intro out outLength r mem
  refine ⟨Run.copyRun_eq (inside r mem) chunkLength outLength, ?_⟩
  rw [Run.length_copy (inside r mem) chunkLength outLength, outLength]

end ChunkStore.Dataset
