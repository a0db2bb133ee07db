import ChunkStore.Proofs.Dataset.Copying
import ChunkStore.Proofs.Grid.Axes

/-!
# What a chunk and a selection have in common

Every selected element lies in one chunk, at the place that its remainders by the chunk's
dimensions give (`covers_runsOf`): the runs that are copied from a chunk cover the elements which
lie in it and no others, and take each from its place there.
-/

namespace ChunkStore.Dataset

open Coordinate

variable {axes : List Axis} {c x : Coordinate}

/-! ## Coordinates of a region -/

theorem overlap_axes (fits : ∀ a ∈ axes, a.Fits)
    (touched : List.Forall₂ (fun c a => (Axis.common c a).1 ≤ (Axis.common c a).2) c axes)
    (ends : List.Forall₂ (fun c (a : Axis) => c * a.chunk + a.chunk ≤ maxWord) c axes) :
    overlap c (axes.map Axis.chunk) (axes.map Axis.start) (axes.map Axis.count) =
      .ok (List.zipWith Axis.common c axes) := by
  induction touched with
  | nil => rfl
  | @cons c a cs axes _ _ ih =>
    obtain ⟨bound, others⟩ := List.forall₂_cons.1 ends
    have here := fits a List.mem_cons_self
    have pos := here.chunk
    have some := here.count
    have along : overlapAlong c a.chunk a.start a.count = .ok (Axis.common c a) := by
      have origin : Bounds.within (c * a.chunk) = .ok (c * a.chunk) :=
        Bounds.within_eq_ok_iff.2 ⟨by omega, rfl⟩
      have chunkEnd : Bounds.within (c * a.chunk + a.chunk) = .ok (c * a.chunk + a.chunk) :=
        Bounds.within_eq_ok_iff.2 ⟨bound, rfl⟩
      have stop : Bounds.within (a.start + a.count) = .ok (a.start + a.count) :=
        Bounds.within_eq_ok_iff.2 ⟨here.stop, rfl⟩
      have less : Bounds.sub (min (c * a.chunk + a.chunk) (a.start + a.count)) 1 =
          .ok (min (c * a.chunk + a.chunk) (a.start + a.count) - 1) :=
        Bounds.sub_eq_ok_iff.2 (by omega)
      simp only [overlapAlong, origin, chunkEnd, stop, bind, Except.bind, less]
      rfl
    rw [List.map_cons, List.map_cons, List.map_cons, overlap, along,
      ih (fun x hx => fits x (List.mem_cons_of_mem a hx)) others]
    rfl

/-- An element lies in the region of a chunk when it is selected and in the chunk. -/
theorem mem_region_iff (fits : ∀ a ∈ axes, a.Fits) (rank : c.length = axes.length) :
    x ∈ Box.coordinates (List.zipWith Axis.common c axes) ↔
      List.Forall₂ (fun x (a : Axis) => a.Selects x) x axes ∧
        List.zipWith (· / ·) x (axes.map Axis.chunk) = c := by
  rw [Box.mem_coordinates_iff]
  induction axes generalizing c x with
  | nil =>
    obtain rfl := List.length_eq_zero_iff.1 rank
    rw [List.zipWith_nil_left, List.forall₂_nil_right_iff, List.forall₂_nil_right_iff,
      List.map_nil, List.zipWith_nil_right]
    exact ⟨fun h => ⟨h, rfl⟩, fun h => h.1⟩
  | cons a axes ih =>
    obtain _ | ⟨c, cs⟩ := c
    · simp at rank
    have here := fits a List.mem_cons_self
    have rest := fun xs => @ih cs xs (fun y hy => fits y (List.mem_cons_of_mem a hy))
      (Nat.succ.inj rank)
    rw [List.zipWith_cons_cons, List.map_cons]
    obtain _ | ⟨x, xs⟩ := x
    · simp
    · rw [List.forall₂_cons, List.forall₂_cons, Axis.mem_common_iff here, rest,
        List.zipWith_cons_cons, List.cons.injEq]
      tauto

theorem within_sub_start (selected : List.Forall₂ (fun x (a : Axis) => a.Selects x) x axes) :
    Within (List.zipWith (· - ·) x (axes.map Axis.start)) (axes.map Axis.count) := by
  induction selected with
  | nil => exact .nil
  | cons here _ ih =>
    refine .cons ?_ ih
    obtain ⟨low, high⟩ := here
    dsimp only
    omega

theorem within_chunk (fits : ∀ a ∈ axes, a.Fits) (rank : x.length = axes.length) :
    Within (List.zipWith (· % ·) x (axes.map Axis.chunk)) (axes.map Axis.chunk) := by
  apply within_mod
  · rw [rank, List.length_map]
  · rintro k mem
    obtain ⟨a, own, rfl⟩ := List.mem_map.1 mem
    exact (fits a own).chunk

/-- The distance from the origin of its chunk. -/
theorem sub_origin (chunks x : List Nat) :
    List.zipWith (· - ·) x (List.zipWith (· * ·) (List.zipWith (· / ·) x chunks) chunks) =
      List.zipWith (· % ·) x chunks := by
  induction chunks generalizing x with
  | nil => simp only [List.zipWith_nil_right]
  | cons k chunks ih =>
    obtain _ | ⟨x, xs⟩ := x
    · rfl
    · simp only [List.zipWith_cons_cons, ih, Nat.mod_eq_sub_div_mul]

theorem rowMajor_concat {y es : List Nat} (rank : y.length = es.length) (j n : Nat) :
    rowMajor (y ++ [j]) (es ++ [n]) = rowMajor y es * n + j := by
  induction es generalizing y with
  | nil =>
    obtain rfl := List.length_eq_zero_iff.1 rank
    simp [rowMajor]
  | cons e es ih =>
    obtain _ | ⟨z, y⟩ := y
    · simp at rank
    · simp only [List.cons_append, rowMajor, ih (Nat.succ.inj rank), List.prod_append,
        List.prod_singleton, Nat.add_mul, Nat.mul_assoc, Nat.add_assoc]

/-- The place of an element in its chunk. -/
def placeInChunk (axes : List Axis) (x : Coordinate) : Nat :=
  rowMajor (List.zipWith (· % ·) x (axes.map Axis.chunk)) (axes.map Axis.chunk)

/-- The place of an element in the result. -/
def placeInResult (axes : List Axis) (x : Coordinate) : Nat :=
  rowMajor (List.zipWith (· - ·) x (axes.map Axis.start)) (axes.map Axis.count)

theorem positionIn_chunk (fits : ∀ a ∈ axes, a.Fits) (rank : x.length = axes.length)
    (held : (axes.map Axis.chunk).prod ≤ UInt64.size)
    (chunk : List.zipWith (· / ·) x (axes.map Axis.chunk) = c) :
    positionIn x (List.zipWith (· * ·) c (axes.map Axis.chunk))
      (downCounts (axes.map Axis.chunk)) = placeInChunk axes x := by
  rw [positionIn, ← chunk, sub_origin, dot_downCounts (within_chunk fits rank) held]
  rfl

theorem positionIn_result (selected : List.Forall₂ (fun x (a : Axis) => a.Selects x) x axes)
    (total : (axes.map Axis.count).prod ≤ UInt64.size) :
    positionIn x (axes.map Axis.start) (downCounts (axes.map Axis.count)) =
      placeInResult axes x := by
  rw [positionIn, dot_downCounts (within_sub_start selected) total]
  rfl

theorem placeInChunk_concat (rank : x.length = axes.length) (z : Nat) (a : Axis) :
    placeInChunk (axes ++ [a]) (x ++ [z]) = placeInChunk axes x * a.chunk + z % a.chunk := by
  have length : x.length = (axes.map Axis.chunk).length := by rw [rank, List.length_map]
  rw [placeInChunk, List.map_append, List.map_singleton, List.zipWith_append length]
  refine rowMajor_concat ?_ _ _
  rw [List.length_zipWith, length, Nat.min_self]

theorem placeInResult_concat (rank : x.length = axes.length) (z : Nat) (a : Axis) :
    placeInResult (axes ++ [a]) (x ++ [z]) = placeInResult axes x * a.count + (z - a.start) := by
  have length : x.length = (axes.map Axis.start).length := by rw [rank, List.length_map]
  rw [placeInResult, List.map_append, List.map_append, List.map_singleton, List.map_singleton,
    List.zipWith_append length]
  refine rowMajor_concat ?_ _ _
  rw [List.length_zipWith, length, Nat.min_self, List.length_map, List.length_map]

/-- Two selected elements are the same when their places in the result are. -/
theorem placeInResult_inj {y : Coordinate}
    (selected : List.Forall₂ (fun x (a : Axis) => a.Selects x) x axes)
    (other : List.Forall₂ (fun x (a : Axis) => a.Selects x) y axes)
    (same : placeInResult axes x = placeInResult axes y) : x = y := by
  have equal := rowMajor_inj (within_sub_start selected) (within_sub_start other) same
  clear same
  induction selected generalizing y with
  | nil => cases other; rfl
  | @cons x a xs axes here _ ih =>
    obtain _ | ⟨there, others⟩ := other
    rw [List.map_cons, List.zipWith_cons_cons, List.zipWith_cons_cons, List.cons.injEq] at equal
    rw [ih others equal.2]
    congr 1
    have low := here.1
    have low' := there.1
    have heads := equal.1
    omega

/-! ## The runs of a region -/

/-- Rows of one length do not mix: a number between the ends of a run in row `a` is in row `a`. -/
theorem row_unique {a b n i j m : Nat} (from' : a * n + i ≤ b * n + j)
    (upTo : b * n + j < a * n + m) (run : m ≤ n) (lt : j < n) : a = b ∧ i ≤ j ∧ j < m := by
  rcases Nat.lt_trichotomy a b with less | rfl | greater
  · have rows := Nat.mul_le_mul_right n less
    rw [Nat.succ_mul] at rows
    omega
  · omega
  · have rows := Nat.mul_le_mul_right n greater
    rw [Nat.succ_mul] at rows
    omega

theorem runsOf_nil (selection : Hyperslab) (start : selection.start = []) :
    runsOf [] [] selection [] = [⟨0, 0, 1⟩] := by
  simp [runsOf, Box.coordinates, positionIn, start, dot, downCounts]

/-- The elements of a region, row by row. -/
theorem mem_region_concat {a : Axis} {z : Nat} (rank : c.length = axes.length) {x : Coordinate} :
    x ∈ Box.coordinates (List.zipWith Axis.common (c ++ [z]) (axes ++ [a])) ↔
      ∃ outer last, x = outer ++ [last] ∧
        outer ∈ Box.coordinates (List.zipWith Axis.common c axes) ∧
        (Axis.common z a).1 ≤ last ∧ last ≤ (Axis.common z a).2 := by
  rw [Box.mem_coordinates_iff, List.zipWith_append rank]
  exact forall₂_concat_right.trans (by simp only [Box.mem_coordinates_iff])

/-- The run of a row starts at the first element that the row has in the region. -/
theorem mem_runsOf_concat {a : Axis} {z : Nat} {r : Run}
    (fits : ∀ b ∈ axes ++ [a], b.Fits) (rank : c.length = axes.length)
    (touched : (Axis.common z a).1 ≤ (Axis.common z a).2)
    (held : ((axes ++ [a]).map Axis.chunk).prod ≤ UInt64.size)
    (total : ((axes ++ [a]).map Axis.count).prod ≤ UInt64.size) :
    r ∈ runsOf (c ++ [z]) ((axes ++ [a]).map Axis.chunk)
        ⟨(axes ++ [a]).map Axis.start, (axes ++ [a]).map Axis.count⟩
        (List.zipWith Axis.common (c ++ [z]) (axes ++ [a])) ↔
      ∃ outer ∈ Box.coordinates (List.zipWith Axis.common c axes),
        r = ⟨placeInChunk (axes ++ [a]) (outer ++ [(Axis.common z a).1]),
          placeInResult (axes ++ [a]) (outer ++ [(Axis.common z a).1]),
          (Axis.common z a).2 - (Axis.common z a).1 + 1⟩ := by
  have rank' : (c ++ [z]).length = (axes ++ [a]).length := by
    rw [List.length_append, List.length_append, rank]
    rfl
  have whole : List.zipWith Axis.common (c ++ [z]) (axes ++ [a]) =
      List.zipWith Axis.common c axes ++ [Axis.common z a] := List.zipWith_append rank
  have filled : (List.zipWith Axis.common c axes ++ [Axis.common z a]).isEmpty = false := by
    rw [List.isEmpty_eq_false_iff]
    exact List.append_ne_nil_of_right_ne_nil _ (List.cons_ne_nil _ _)
  simp only [runsOf, whole, List.getLastD_concat, List.dropLast_concat, List.mem_map, filled,
    Bool.false_eq_true, if_false]
  refine exists_congr fun outer => and_congr_right fun mem => ?_
  have first : outer ++ [(Axis.common z a).1] ∈
      Box.coordinates (List.zipWith Axis.common (c ++ [z]) (axes ++ [a])) :=
    (mem_region_concat rank).2 ⟨outer, _, rfl, mem, le_refl _, touched⟩
  obtain ⟨selected, chunk⟩ := (mem_region_iff fits rank').1 first
  rw [positionIn_chunk fits selected.length_eq held chunk, positionIn_result selected total]
  exact eq_comm

variable {selection : Hyperslab}

/-- For every selected element: exactly the runs of its own chunk cover it, and they take it from
its place in the chunk. -/
theorem covers_runsOf (fits : ∀ a ∈ axes, a.Fits)
    (touched : List.Forall₂ (fun c a => (Axis.common c a).1 ≤ (Axis.common c a).2) c axes)
    (held : (axes.map Axis.chunk).prod ≤ UInt64.size)
    (total : (axes.map Axis.count).prod ≤ UInt64.size)
    (selected : List.Forall₂ (fun x (a : Axis) => a.Selects x) x axes) :
    ((∃ r ∈ runsOf c (axes.map Axis.chunk) ⟨axes.map Axis.start, axes.map Axis.count⟩
        (List.zipWith Axis.common c axes), r.Covers (placeInResult axes x)) ↔
      List.zipWith (· / ·) x (axes.map Axis.chunk) = c) ∧
    ∀ r ∈ runsOf c (axes.map Axis.chunk) ⟨axes.map Axis.start, axes.map Axis.count⟩
        (List.zipWith Axis.common c axes), r.Covers (placeInResult axes x) →
      r.source + (placeInResult axes x - r.target) = placeInChunk axes x := by
  rcases List.eq_nil_or_concat axes with rfl | ⟨outerAxes, a, rfl⟩
  · cases touched
    cases selected
    rw [List.map_nil, List.map_nil, List.map_nil, List.zipWith_nil_left, runsOf_nil _ rfl]
    refine ⟨⟨fun _ => rfl, fun _ => ⟨_, List.mem_singleton_self _, le_refl _, Nat.one_pos⟩⟩, ?_⟩
    intro r single _
    rw [List.mem_singleton.1 single]
    rfl
  rw [List.concat_eq_append] at *
  obtain ⟨cs, cz, rfl, touchedOuter, touchedLast⟩ := forall₂_concat_right.1 touched
  obtain ⟨xs, xz, rfl, selectedOuter, selectedLast⟩ := forall₂_concat_right.1 selected
  have rank := touchedOuter.length_eq
  have rank' : (cs ++ [cz]).length = (outerAxes ++ [a]).length := touched.length_eq
  have fitsOuter : ∀ b ∈ outerAxes, b.Fits := fun b mem => fits b (List.mem_append_left _ mem)
  have fitsLast : a.Fits := fits a (List.mem_append_right _ List.mem_cons_self)
  obtain ⟨lowSelected, lowChunk⟩ := (Axis.mem_common_iff fitsLast).1 ⟨le_refl _, touchedLast⟩
  obtain ⟨highSelected, -⟩ := (Axis.mem_common_iff fitsLast).1 ⟨touchedLast, le_refl _⟩
  obtain ⟨lowStart, lowStop⟩ := lowSelected
  obtain ⟨highStart, highStop⟩ := highSelected
  obtain ⟨lastStart, lastStop⟩ := selectedLast
  -- A run that covers the element is the run of its row, and the element lies in the region.
  have row : ∀ r ∈ runsOf (cs ++ [cz]) ((outerAxes ++ [a]).map Axis.chunk)
      ⟨(outerAxes ++ [a]).map Axis.start, (outerAxes ++ [a]).map Axis.count⟩
      (List.zipWith Axis.common (cs ++ [cz]) (outerAxes ++ [a])),
      r.Covers (placeInResult (outerAxes ++ [a]) (xs ++ [xz])) →
      xs ++ [xz] ∈ Box.coordinates
          (List.zipWith Axis.common (cs ++ [cz]) (outerAxes ++ [a])) ∧
        r.source = placeInChunk (outerAxes ++ [a]) (xs ++ [(Axis.common cz a).1]) ∧
        r.target = placeInResult (outerAxes ++ [a]) (xs ++ [(Axis.common cz a).1]) := by
    intro r mem covers
    obtain ⟨outer, inside, rfl⟩ := (mem_runsOf_concat fits rank touchedLast held total).1 mem
    obtain ⟨outerSelected, -⟩ := (mem_region_iff fitsOuter rank).1 inside
    obtain ⟨from', upTo⟩ := covers
    dsimp only at from' upTo
    rw [placeInResult_concat outerSelected.length_eq,
      placeInResult_concat selectedOuter.length_eq] at from' upTo
    obtain ⟨same, low, high⟩ := @row_unique (placeInResult outerAxes outer)
      (placeInResult outerAxes xs) a.count ((Axis.common cz a).1 - a.start) (xz - a.start)
      ((Axis.common cz a).2 - a.start + 1) from' (by omega) (by omega) (by omega)
    obtain rfl := placeInResult_inj outerSelected selectedOuter same
    refine ⟨(mem_region_concat rank).2 ⟨outer, xz, rfl, inside, ?_, ?_⟩, rfl, rfl⟩
    · omega
    · omega
  constructor
  · constructor
    · rintro ⟨r, mem, covers⟩
      exact ((mem_region_iff fits rank').1 (row r mem covers).1).2
    · intro chunk
      have region := (mem_region_iff fits rank').2 ⟨selected, chunk⟩
      obtain ⟨outer, last, whole, inside, low, high⟩ := (mem_region_concat rank).1 region
      obtain ⟨rfl, rfl⟩ := List.concat_inj.1 (by simpa only [List.concat_eq_append] using whole)
      refine ⟨_, (mem_runsOf_concat fits rank touchedLast held total).2 ⟨xs, inside, rfl⟩, ?_⟩
      rw [Run.Covers]
      dsimp only
      rw [placeInResult_concat selectedOuter.length_eq,
        placeInResult_concat selectedOuter.length_eq]
      omega
  · intro r mem covers
    obtain ⟨region, source, target⟩ := row r mem covers
    obtain ⟨outer, last, whole, -, low, high⟩ := (mem_region_concat rank).1 region
    obtain ⟨rfl, rfl⟩ := List.concat_inj.1 (by simpa only [List.concat_eq_append] using whole)
    obtain ⟨-, lastChunk⟩ := (Axis.mem_common_iff fitsLast).1 ⟨low, high⟩
    have lowPlace := Nat.div_add_mod' (Axis.common cz a).1 a.chunk
    have lastPlace := Nat.div_add_mod' xz a.chunk
    rw [lowChunk] at lowPlace
    rw [lastChunk] at lastPlace
    rw [source, target, placeInResult_concat selectedOuter.length_eq,
      placeInResult_concat selectedOuter.length_eq, placeInChunk_concat selectedOuter.length_eq,
      placeInChunk_concat selectedOuter.length_eq]
    omega

/-- The runs lie inside the chunk and the result, and none is longer than a chunk's last
dimension. -/
theorem inside_runsOf (fits : ∀ a ∈ axes, a.Fits)
    (touched : List.Forall₂ (fun c a => (Axis.common c a).1 ≤ (Axis.common c a).2) c axes)
    (held : (axes.map Axis.chunk).prod ≤ UInt64.size)
    (total : (axes.map Axis.count).prod ≤ UInt64.size) :
    ∀ r ∈ runsOf c (axes.map Axis.chunk) ⟨axes.map Axis.start, axes.map Axis.count⟩
        (List.zipWith Axis.common c axes),
      r.Inside (axes.map Axis.chunk).prod (axes.map Axis.count).prod := by
  rcases List.eq_nil_or_concat axes with rfl | ⟨outerAxes, a, rfl⟩
  · cases touched
    rw [List.map_nil, List.map_nil, List.map_nil, List.zipWith_nil_left, runsOf_nil _ rfl]
    intro r single
    rw [List.mem_singleton.1 single]
    exact ⟨le_refl _, le_refl _⟩
  rw [List.concat_eq_append] at *
  obtain ⟨cs, cz, rfl, touchedOuter, touchedLast⟩ := forall₂_concat_right.1 touched
  have rank := touchedOuter.length_eq
  have rank' : (cs ++ [cz]).length = (outerAxes ++ [a]).length := touched.length_eq
  have fitsLast : a.Fits := fits a (List.mem_append_right _ List.mem_cons_self)
  intro r mem
  obtain ⟨outer, inside, rfl⟩ := (mem_runsOf_concat fits rank touchedLast held total).1 mem
  -- The last element of the run has its place in the chunk and in the result.
  have last : outer ++ [(Axis.common cz a).2] ∈
      Box.coordinates (List.zipWith Axis.common (cs ++ [cz]) (outerAxes ++ [a])) :=
    (mem_region_concat rank).2 ⟨outer, _, rfl, inside, touchedLast, le_refl _⟩
  obtain ⟨selected, -⟩ := (mem_region_iff fits rank').1 last
  have inChunk := rowMajor_lt (within_chunk fits selected.length_eq)
  have inResult := rowMajor_lt (within_sub_start selected)
  obtain ⟨lowSelected, lowChunk⟩ := (Axis.mem_common_iff fitsLast).1 ⟨le_refl _, touchedLast⟩
  obtain ⟨highSelected, highChunk⟩ := (Axis.mem_common_iff fitsLast).1 ⟨touchedLast, le_refl _⟩
  obtain ⟨lowStart, lowStop⟩ := lowSelected
  have outerRank : outer.length = outerAxes.length := by
    have length := selected.length_eq
    rw [List.length_append, List.length_append] at length
    exact Nat.add_right_cancel length
  have lowPlace := Nat.div_add_mod' (Axis.common cz a).1 a.chunk
  have highPlace := Nat.div_add_mod' (Axis.common cz a).2 a.chunk
  rw [lowChunk] at lowPlace
  rw [highChunk] at highPlace
  rw [← placeInChunk, placeInChunk_concat outerRank] at inChunk
  rw [← placeInResult, placeInResult_concat outerRank] at inResult
  rw [Run.Inside]
  dsimp only
  rw [placeInChunk_concat outerRank, placeInResult_concat outerRank]
  omega

/-! ## Elements of the result -/

/-- Every place of the result is that of a selected element. -/
theorem exists_placeInResult {q : Nat} (lt : q < (axes.map Axis.count).prod) :
    ∃ x, List.Forall₂ (fun x (a : Axis) => a.Selects x) x axes ∧ placeInResult axes x = q := by
  have inside := within_ofRowMajor lt
  have place := rowMajor_ofRowMajor lt
  generalize ofRowMajor q (axes.map Axis.count) = y at inside place
  have shift : ∃ x, List.Forall₂ (fun x (a : Axis) => a.Selects x) x axes ∧
      List.zipWith (· - ·) x (axes.map Axis.start) = y := by
    clear place lt
    induction axes generalizing y with
    | nil =>
      cases inside
      exact ⟨[], .nil, rfl⟩
    | cons a axes ih =>
      obtain _ | ⟨below, inside⟩ := inside
      obtain ⟨xs, selected, rest⟩ := ih _ inside
      refine ⟨(a.start + _) :: xs,
        .cons ⟨Nat.le_add_right _ _, Nat.add_lt_add_left below _⟩ selected, ?_⟩
      rw [List.map_cons, List.zipWith_cons_cons, rest, Nat.add_sub_cancel_left]
  obtain ⟨x, selected, distance⟩ := shift
  exact ⟨x, selected, by rw [placeInResult, distance, place]⟩

/-- The runs of a touched chunk go from the first to the last common element of the last
dimension, and there is at least one. -/
theorem exists_run (fits : ∀ a ∈ axes, a.Fits)
    (touched : List.Forall₂ (fun c a => (Axis.common c a).1 ≤ (Axis.common c a).2) c axes)
    (chunkDims : List Nat) (selection : Hyperslab) :
    ∃ low high, (List.zipWith Axis.common c axes).getLastD (0, 0) = (low, high) ∧ low ≤ high ∧
      ∃ r ∈ runsOf c chunkDims selection (List.zipWith Axis.common c axes),
        r.length = high - low + 1 := by
  rcases List.eq_nil_or_concat axes with rfl | ⟨outerAxes, a, rfl⟩
  · cases touched
    exact ⟨0, 0, rfl, le_refl _, _, List.mem_singleton_self _, rfl⟩
  rw [List.concat_eq_append] at *
  obtain ⟨cs, z, rfl, touchedOuter, touchedLast⟩ := forall₂_concat_right.1 touched
  have rank := touchedOuter.length_eq
  have fitsOuter : ∀ b ∈ outerAxes, b.Fits := fun b mem => fits b (List.mem_append_left _ mem)
  have whole : List.zipWith Axis.common (cs ++ [z]) (outerAxes ++ [a]) =
      List.zipWith Axis.common cs outerAxes ++ [Axis.common z a] := List.zipWith_append rank
  obtain ⟨outer, region⟩ := Hyperslab.exists_selected fitsOuter touchedOuter
  have mem := (mem_region_iff fitsOuter rank).2 region
  rw [whole, List.getLastD_concat]
  refine ⟨_, _, rfl, touchedLast, ?_⟩
  rw [runsOf, List.getLastD_concat, List.dropLast_concat]
  exact ⟨_, List.mem_map_of_mem mem, rfl⟩

/-- A run is no longer than a 64-bit number. -/
theorem length_runsOf_le (fits : ∀ a ∈ axes, a.Fits)
    (touched : List.Forall₂ (fun c a => (Axis.common c a).1 ≤ (Axis.common c a).2) c axes)
    {chunkDims : List Nat} {selection : Hyperslab} :
    ∀ r ∈ runsOf c chunkDims selection (List.zipWith Axis.common c axes), r.length ≤ maxWord := by
  intro r mem
  obtain ⟨low, high, last, length⟩ : ∃ low high,
      (List.zipWith Axis.common c axes).getLastD (0, 0) = (low, high) ∧
        high - low + 1 ≤ maxWord := by
    rcases List.eq_nil_or_concat axes with rfl | ⟨outerAxes, a, rfl⟩
    · rw [List.zipWith_nil_right]
      exact ⟨0, 0, rfl, by decide⟩
    · rw [List.concat_eq_append] at *
      obtain ⟨cs, z, rfl, touchedOuter, touchedLast⟩ := forall₂_concat_right.1 touched
      have fitsLast := fits a (List.mem_append_right _ List.mem_cons_self)
      have stop := fitsLast.stop
      have some := fitsLast.count
      have whole : List.zipWith Axis.common (cs ++ [z]) (outerAxes ++ [a]) =
          List.zipWith Axis.common cs outerAxes ++ [Axis.common z a] :=
        List.zipWith_append touchedOuter.length_eq
      rw [whole, List.getLastD_concat]
      refine ⟨(Axis.common z a).1, (Axis.common z a).2, rfl, ?_⟩
      simp only [Axis.common]
      omega
  simp only [runsOf, last, List.mem_map] at mem
  obtain ⟨outer, -, rfl⟩ := mem
  exact length

end ChunkStore.Dataset
