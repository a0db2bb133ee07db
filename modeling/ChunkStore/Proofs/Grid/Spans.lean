import ChunkStore.Proofs.Grid.Axes
import ChunkStore.Proofs.Grid.Odometer
import ChunkStore.Proofs.Grid.Order

/-!
# The chunks that a selection touches, visited

The elements of a chunk are a block too (`Hyperslab.ofChunk`). A selection that lies inside the
extents touches the chunks whose blocks have an element in common with it: `chunkSpan` is their box
(`mem_chunkSpan_iff`), and it lies inside the grid of chunks that covers the extents
(`within_pieces`). The odometer goes through every box, those of a selection among them, in
lexicographic order and up to the first error (`chunkSpan_visited`).
-/

namespace ChunkStore

open Coordinate

/-- The coordinate lies in the box. -/
def Box.Holds (box : Box) (c : Coordinate) : Prop :=
  List.Forall₂ (fun c (p : Nat × Nat) => p.1 ≤ c ∧ c ≤ p.2) c box

/-- The coordinates of a box are listed in lexicographic order, each once. -/
theorem Box.sorted_coordinates (box : Box) : box.coordinates.Pairwise (· < ·) :=
  (Box.pairwise_coordinates box).imp lexCompare_eq_lt_iff.1

namespace Hyperslab

variable {s : Hyperslab} {axes : List Axis} {dims chunkDims : List Nat} {c x : Coordinate}

/-! ## The elements of a chunk -/

/-- The elements of the chunk at a coordinate. -/
def ofChunk (c chunkDims : List Nat) : Hyperslab := ⟨List.zipWith (· * ·) c chunkDims, chunkDims⟩

/-- The chunk at a coordinate has an element in common with the selection. -/
def Touches (s : Hyperslab) (chunkDims : List Nat) (c : Coordinate) : Prop :=
  c.length = chunkDims.length ∧ ∃ x, s.Selects x ∧ (ofChunk c chunkDims).Selects x

/-- An element lies in one chunk, whose coordinate its quotients are. -/
theorem selects_ofChunk_iff (chunks : ∀ k ∈ chunkDims, 0 < k) (rank : x.length = chunkDims.length) :
    c.length = chunkDims.length ∧ (ofChunk c chunkDims).Selects x ↔
      List.zipWith (· / ·) x chunkDims = c := by
  unfold Selects ofChunk
  dsimp only
  induction chunkDims generalizing c x with
  | nil =>
    obtain rfl := List.length_eq_zero_iff.1 rank
    rw [List.length_nil, List.length_eq_zero_iff, List.zipWith_nil_left, eq_comm]
    exact ⟨fun h => h.1, fun same => ⟨same, by rw [← same]; exact .nil⟩⟩
  | cons k chunkDims ih =>
    obtain _ | ⟨x, xs⟩ := x
    · cases rank
    obtain _ | ⟨c, cs⟩ := c
    · exact iff_of_false (fun h => nomatch h.1) nofun
    have some : 0 < k := chunks k List.mem_cons_self
    have others := @ih cs xs (fun k mem => chunks k (List.mem_cons_of_mem _ mem))
      (Nat.succ.inj rank)
    rw [List.zipWith_cons_cons, List.zipWith_cons_cons, List.zip_cons_cons, List.forall₂_cons,
      List.cons.injEq, Axis.div_eq_iff some, ← others, List.length_cons, List.length_cons,
      Nat.succ_inj]
    exact and_left_comm

/-! ## The span -/

/-- A selection that is not empty selects its first element. -/
theorem selects_start (ranks : s.count.length = s.start.length) (some : 0 ∉ s.count) :
    s.Selects s.start := by
  obtain ⟨start, count⟩ := s
  unfold Selects
  dsimp only at ranks some ⊢
  induction start generalizing count with
  | nil => exact .nil
  | cons first start ih =>
    obtain _ | ⟨n, count⟩ := count
    · cases ranks
    obtain ⟨pos, some⟩ := not_or.1 (mt List.mem_cons.2 some)
    refine .cons ⟨Nat.le_refl _, ?_⟩ (ih _ (Nat.succ.inj ranks) some)
    dsimp only
    omega

/-- A selection is empty when one of its counts is zero. -/
theorem forall_not_selects_iff (ranks : s.count.length = s.start.length) :
    (∀ x, ¬ s.Selects x) ↔ 0 ∈ s.count := by
  constructor
  · intro none
    by_contra some
    exact none _ (selects_start ranks some)
  · exact fun empty => not_selects_of_empty empty ranks.symm

/-- A chunk of a selected element comes before the end of as many pieces as the extent needs. -/
theorem within_pieces {pieces : Nat → Nat → Nat}
    (enough : ∀ {x n k}, 0 < k → x < n → x / k < pieces n k) (fits : ∀ a ∈ axes, a.Fits)
    (selected : List.Forall₂ (fun x (a : Axis) => a.Selects x) x axes)
    (stops : List.Forall₂ (fun (a : Axis) n => a.start + a.count ≤ n) axes dims) :
    Within (List.zipWith (· / ·) x (axes.map Axis.chunk))
      (List.zipWith pieces dims (axes.map Axis.chunk)) := by
  induction selected generalizing dims with
  | nil =>
    rw [List.zipWith_nil_left, List.map_nil, List.zipWith_nil_right]
    exact .nil
  | @cons x a xs axes here _ ih =>
    obtain _ | ⟨stop, stops⟩ := stops
    refine .cons (enough (fits a List.mem_cons_self).chunk (here.2.trans_le stop)) ?_
    exact ih (fun a mem => fits a (List.mem_cons_of_mem _ mem)) stops

theorem div_lt_roundedUp {x n k : Nat} (some : 0 < k) (lt : x < n) : x / k < (n + k - 1) / k := by
  have next : n + k - 1 = n - 1 + k := by omega
  rw [next, Nat.add_div_right _ some]
  exact Nat.lt_succ_of_le (Nat.div_le_div_right (by omega))

theorem div_lt_ceilDiv {x n k : Nat} (some : 0 < k) (lt : x < n) : x / k < ceilDiv n k := by
  unfold ceilDiv
  split
  · next endless => exact endless ▸ (Nat.div_le_self x k).trans_lt lt
  · rw [if_neg (by omega)]
    exact div_lt_roundedUp some lt

/-- The span of a selection is the box of the chunks that have elements in common with it. -/
theorem mem_chunkSpan_iff (fits : ∀ a ∈ axes, a.Fits) :
    Box.Holds (axes.map Axis.span) c ↔
      Touches ⟨axes.map Axis.start, axes.map Axis.count⟩ (axes.map Axis.chunk) c := by
  have chunks : ∀ k ∈ axes.map Axis.chunk, 0 < k := by
    intro k listed
    obtain ⟨a, mem, rfl⟩ := List.mem_map.1 listed
    exact (fits a mem).chunk
  have lies : ∀ {x}, List.Forall₂ (fun x (a : Axis) => a.Selects x) x axes →
      (c.length = (axes.map Axis.chunk).length ∧ (ofChunk c (axes.map Axis.chunk)).Selects x ↔
        List.zipWith (· / ·) x (axes.map Axis.chunk) = c) := fun selected =>
    selects_ofChunk_iff chunks (selected.length_eq.trans (List.length_map _).symm)
  rw [Box.Holds, ← Box.mem_coordinates_iff, mem_chunks_axes fits]
  constructor
  · intro touched
    obtain ⟨x, selected, chunk⟩ := exists_selected fits touched
    obtain ⟨rank, inside⟩ := (lies selected).2 chunk
    exact ⟨rank, x, selects_axes.2 selected, inside⟩
  · rintro ⟨rank, x, selected, inside⟩
    have selected := selects_axes.1 selected
    exact touched_of_selected fits selected ((lies selected).1 ⟨rank, inside⟩)

/-- The span of a selection inside the extents exists when something is selected, and holds the
chunks that are touched, all of which are chunks of the grid. Every box is gone through in
lexicographic order, each coordinate once, whatever a visit does, and up to the first visit that
fails. -/
theorem chunkSpan_visited (words : ∀ n ∈ dims, n ≤ maxWord)
    (rank : chunkDims.length = dims.length) (chunks : 0 ∉ chunkDims)
    (valid : s.validate dims = .ok ()) :
    (∃ span, s.chunkSpan chunkDims = .ok span ∧ (span = none ↔ ∀ x, ¬ s.Selects x) ∧
      ∀ box, span = some box → ∀ c,
        (box.Holds c ↔ s.Touches chunkDims c) ∧
        (box.Holds c →
          Within c (List.zipWith (fun n k => (n + k - 1) / k) dims chunkDims) ∧
          Within c (List.zipWith ceilDiv dims chunkDims))) ∧
    ∀ box : Box,
      (∀ c, c ∈ box.coordinates ↔ box.Holds c) ∧ box.coordinates.Pairwise (· < ·) ∧
      (∀ (m : Type → Type) [Monad m] (β : Type) (visit : β → Coordinate → m β) (b : β),
        box.visitAll visit b = box.coordinates.foldlM visit b) ∧
      ∀ (ε β : Type) (visit : β → Coordinate → Except ε β) (b : β),
        (∃ b', box.visitAll visit b = .ok b' ∧
          (box.visitAll (Box.noting visit) b).run.run [] = (.ok b', box.coordinates)) ∨
        ∃ before c after b' e, box.coordinates = before ++ c :: after ∧
          before.foldlM visit b = .ok b' ∧ visit b' c = .error e ∧
          box.visitAll visit b = .error e ∧
          (box.visitAll (Box.noting visit) b).run.run [] = (.error e, before ++ [c]) := by
  have chunks : ∀ k ∈ chunkDims, 0 < k :=
    fun k mem => Nat.pos_of_ne_zero fun zero => chunks (zero ▸ mem)
  obtain ⟨ranks, -, -⟩ := ranks_of_validate valid
  constructor
  · by_cases empty : 0 ∈ s.count
    · refine ⟨none, (chunks_of_empty empty _).1, ?_, nofun⟩
      exact iff_of_true rfl ((forall_not_selects_iff ranks).2 empty)
    obtain ⟨axes, ⟨start, count, rfl⟩, fits, stops⟩ :=
      exists_axes_of_validate valid rank chunks words empty
    have selection : s = ⟨axes.map Axis.start, axes.map Axis.count⟩ := by rw [← start, ← count]
    refine ⟨some (axes.map Axis.span), ?_, ?_, ?_⟩
    · rw [selection]
      exact (chunks_axes fits).1
    · exact iff_of_false nofun (mt (forall_not_selects_iff ranks).1 empty)
    · rintro _ ⟨⟩ c
      constructor
      · rw [mem_chunkSpan_iff fits, ← selection]
      · intro holds
        rw [Box.Holds, ← Box.mem_coordinates_iff, mem_chunks_axes fits] at holds
        obtain ⟨x, selected, rfl⟩ := exists_selected fits holds
        exact ⟨within_pieces div_lt_roundedUp fits selected stops,
          within_pieces div_lt_ceilDiv fits selected stops⟩
  · exact fun box => ⟨fun c => Box.mem_coordinates_iff, box.sorted_coordinates,
      fun m _ β visit b => box.visitAll_eq visit b,
      fun ε β visit b => box.run_visitAll_noting visit b⟩

/-- Four by two elements from `[3, 2]` on touch four chunks of four by three. A visit that fails at
the third chunk is the last one. -/
theorem chunkSpan_visited_corners :
    chunkSpan ⟨[3, 2], [4, 2]⟩ [4, 3] = .ok (some [(0, 1), (0, 1)]) ∧
      Touches ⟨[3, 2], [4, 2]⟩ [4, 3] [1, 0] ∧ ¬ Touches ⟨[3, 2], [4, 2]⟩ [4, 3] [2, 0] ∧
      (Box.visitAll [(0, 1), (0, 1)] (Box.noting fun visits c =>
        if c = [1, 0] then Except.error visits else .ok (visits + 1)) 0).run.run [] =
          (.error 2, [[0, 0], [0, 1], [1, 0]]) := by
  have valid : validate ⟨[3, 2], [4, 2]⟩ [10, 7] = .ok () := by decide
  have rank : [4, 3].length = [10, 7].length := rfl
  obtain ⟨⟨span, spanned, -, touched⟩, visits⟩ :=
    chunkSpan_visited (by decide) rank (by decide) valid
  have box : chunkSpan ⟨[3, 2], [4, 2]⟩ [4, 3] = .ok (some [(0, 1), (0, 1)]) := by decide
  rw [box] at spanned
  cases spanned
  have holds := fun c => (touched _ rfl c).1
  obtain ⟨-, -, folds, -⟩ := visits [(0, 1), (0, 1)]
  refine ⟨box, ?_, ?_, ?_⟩
  · exact (holds [1, 0]).1 (by unfold Box.Holds; decide)
  · exact mt (holds [2, 0]).2 (by unfold Box.Holds; decide)
  · rw [folds]
    rfl

end Hyperslab

end ChunkStore
