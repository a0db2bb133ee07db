import ChunkStore.Proofs.Grid.RowMajor
import ChunkStore.Proofs.Results
import ChunkStore.Proofs.Runs
import ChunkStore.Selection

/-!
# Blocks of elements cut into chunks

A selection is a block, and each of its dimensions is an `Axis`: an interval of elements and the
length of the chunks that cut it. `Axis.mem_common_iff` and `Axis.mem_span_iff` say which elements
lie in a chunk and which chunks are touched; a `Box` lists its coordinates in lexicographic order
(`Box.mem_coordinates_iff`, `Box.pairwise_coordinates`). `Hyperslab.chunks` are the chunks that a
selection touches, each once and in row-major order (`Hyperslab.mem_chunks_axes`,
`Hyperslab.pairwise_chunks`).
-/

namespace ChunkStore

/-- One dimension of a selection and of the chunks that it is cut into. -/
structure Axis where
  start : Nat
  count : Nat
  chunk : Nat

namespace Axis

/-- The chunks have elements, and so has the selection, whose end is a 64-bit number. -/
structure Fits (a : Axis) : Prop where
  chunk : 0 < a.chunk
  count : 0 < a.count
  stop : a.start + a.count ≤ maxWord

/-- The element is selected along this dimension. -/
def Selects (a : Axis) (x : Nat) : Prop := a.start ≤ x ∧ x < a.start + a.count

/-- The chunks that the selection touches, both ends included. -/
def span (a : Axis) : Nat × Nat := (a.start / a.chunk, (a.start + a.count - 1) / a.chunk)

/-- What chunk `c` and the selection have in common, both ends included. -/
def common (c : Nat) (a : Axis) : Nat × Nat :=
  (max (c * a.chunk) a.start, min (c * a.chunk + a.chunk) (a.start + a.count) - 1)

variable {a : Axis} {c x : Nat}

theorem div_eq_iff {chunk : Nat} (pos : 0 < chunk) :
    x / chunk = c ↔ c * chunk ≤ x ∧ x < c * chunk + chunk := by
  rw [Nat.div_eq_iff pos]
  omega

/-- The elements that a chunk and the selection have in common are the selected ones that lie in
the chunk. -/
theorem mem_common_iff (fits : a.Fits) :
    ((common c a).1 ≤ x ∧ x ≤ (common c a).2) ↔ a.Selects x ∧ x / a.chunk = c := by
  have pos := fits.chunk
  have some := fits.count
  rw [div_eq_iff pos, Selects]
  simp only [common]
  omega

/-- A touched chunk has an element in common with the selection. -/
theorem mem_span_iff (fits : a.Fits) :
    (a.span.1 ≤ c ∧ c ≤ a.span.2) ↔ (common c a).1 ≤ (common c a).2 := by
  have pos := fits.chunk
  have some := fits.count
  have first : a.start / a.chunk ≤ c ↔ a.start < c * a.chunk + a.chunk := by
    rw [← Nat.lt_succ_iff, Nat.div_lt_iff_lt_mul pos, Nat.succ_mul]
  have last : c ≤ (a.start + a.count - 1) / a.chunk ↔ c * a.chunk ≤ a.start + a.count - 1 :=
    Nat.le_div_iff_mul_le pos
  simp only [span, common, first, last]
  omega

end Axis

theorem Coordinate.lexCompare_self (c : Coordinate) : Coordinate.lexCompare c c = .eq := by
  induction c with
  | nil => rfl
  | cons a c ih => rw [lexCompare, if_neg (Nat.lt_irrefl a), if_neg (Nat.lt_irrefl a), ih]

namespace Box

theorem mem_coordinates_iff {box : Box} {c : Coordinate} :
    c ∈ box.coordinates ↔ List.Forall₂ (fun c (p : Nat × Nat) => p.1 ≤ c ∧ c ≤ p.2) c box := by
  induction box generalizing c with
  | nil => rw [coordinates, List.mem_singleton, List.forall₂_nil_right_iff]
  | cons p box ih =>
    obtain ⟨low, high⟩ := p
    simp only [coordinates, List.mem_flatMap, List.mem_map, List.mem_range'_1]
    constructor
    · rintro ⟨head, between, tail, member, rfl⟩
      exact .cons ⟨between.1, by omega⟩ (ih.1 member)
    · intro inside
      cases inside with
      | @cons head _ tail _ between rest =>
        refine ⟨head, ⟨between.1, ?_⟩, tail, ih.2 rest, rfl⟩
        have upper : head ≤ high := between.2
        omega

/-- The coordinates are listed in lexicographic order, each once. -/
theorem pairwise_coordinates (box : Box) :
    box.coordinates.Pairwise fun c d => Coordinate.lexCompare c d = .lt := by
  induction box with
  | nil => exact List.pairwise_singleton _ _
  | cons p box ih =>
    obtain ⟨low, high⟩ := p
    rw [coordinates, List.pairwise_flatMap]
    constructor
    · intro head _
      rw [List.pairwise_map]
      refine ih.imp fun less => ?_
      simpa only [Coordinate.lexCompare, Nat.lt_irrefl, if_false] using less
    · have sorted : (List.range' low (high + 1 - low)).Pairwise (· < ·) :=
        List.pairwise_lt_range'
      refine sorted.imp fun less c hc d hd => ?_
      obtain ⟨cs, -, rfl⟩ := List.mem_map.1 hc
      obtain ⟨ds, -, rfl⟩ := List.mem_map.1 hd
      simp only [Coordinate.lexCompare, if_pos less]

end Box

/-! ## Lists of axes -/

/-- Three lists of one length are the three fields of one list of axes. -/
theorem exists_axes {start count chunkDims : List Nat} (counts : count.length = start.length)
    (chunks : chunkDims.length = start.length) :
    ∃ axes : List Axis, start = axes.map Axis.start ∧ count = axes.map Axis.count ∧
      chunkDims = axes.map Axis.chunk := by
  induction start generalizing count chunkDims with
  | nil => exact ⟨[], rfl, List.length_eq_zero_iff.1 counts, List.length_eq_zero_iff.1 chunks⟩
  | cons s start ih =>
    obtain _ | ⟨n, count⟩ := count
    · simp at counts
    obtain _ | ⟨k, chunkDims⟩ := chunkDims
    · simp at chunks
    obtain ⟨axes, rfl, rfl, rfl⟩ := ih (Nat.succ.inj counts) (Nat.succ.inj chunks)
    exact ⟨⟨s, n, k⟩ :: axes, rfl, rfl, rfl⟩

/-- A product is counted exactly when 64 bits hold every product of the first factors, even if a
later factor is zero. -/
theorem Bounds.product_eq_ok_iff {factors : List Nat} {n : Nat} :
    product factors = .ok n ↔
      n = factors.prod ∧ ∀ i, (factors.take i).prod ≤ maxWord := by
  suffices steps : ∀ start ≤ maxWord,
      factors.foldlM (fun product factor => within (product * factor)) start = .ok n ↔
        n = start * factors.prod ∧ ∀ i, start * (factors.take i).prod ≤ maxWord by
    have all := steps 1 (by decide)
    simp only [Nat.one_mul] at all
    exact all
  induction factors with
  | nil =>
    intro start word
    simp only [List.take_nil, List.prod_nil, Nat.mul_one, word, implies_true, and_true]
    exact ⟨fun done => (Except.ok.inj done).symm, fun same => congrArg Except.ok same.symm⟩
  | cons factor factors ih =>
    intro start word
    rw [List.foldlM_cons, bind_eq_ok_iff]
    constructor
    · rintro ⟨product, step, done⟩
      obtain ⟨fits, rfl⟩ := within_eq_ok_iff.1 step
      obtain ⟨total, each⟩ := (ih _ fits).1 done
      rw [List.prod_cons, ← Nat.mul_assoc]
      refine ⟨total, fun i => ?_⟩
      cases i with
      | zero => rwa [List.take_zero, List.prod_nil, Nat.mul_one]
      | succ i =>
        rw [List.take_succ_cons, List.prod_cons, ← Nat.mul_assoc]
        exact each i
    · rintro ⟨total, each⟩
      have later : ∀ i, start * factor * (factors.take i).prod ≤ maxWord := fun i => by
        have next := each (i + 1)
        rwa [List.take_succ_cons, List.prod_cons, ← Nat.mul_assoc] at next
      have fits : start * factor ≤ maxWord := by
        have first := later 0
        rwa [List.take_zero, List.prod_nil, Nat.mul_one] at first
      rw [List.prod_cons, ← Nat.mul_assoc] at total
      exact ⟨_, within_eq_ok_iff.2 ⟨fits, rfl⟩, (ih _ fits).2 ⟨total, later⟩⟩

namespace Hyperslab

/-- The element is selected. -/
def Selects (s : Hyperslab) (x : Coordinate) : Prop :=
  List.Forall₂ (fun x (p : Nat × Nat) => p.1 ≤ x ∧ x < p.1 + p.2) x (s.start.zip s.count)

/-- The chunks that the selection touches, in the order in which a read asks for them. -/
def chunks (s : Hyperslab) (chunkDims : List Nat) : List Coordinate :=
  match s.chunkSpan chunkDims with
  | .ok (some span) => span.coordinates
  | _ => []

/-- No chunk is asked for twice, and the last dimension changes fastest. -/
theorem pairwise_chunks (s : Hyperslab) (chunkDims : List Nat) :
    (s.chunks chunkDims).Pairwise fun c d => Coordinate.lexCompare c d = .lt := by
  unfold chunks
  split
  · exact Box.pairwise_coordinates _
  · exact .nil

theorem nodup_chunks (s : Hyperslab) (chunkDims : List Nat) : (s.chunks chunkDims).Nodup := by
  refine (s.pairwise_chunks chunkDims).imp fun {c d} less same => ?_
  rw [same, Coordinate.lexCompare_self] at less
  cases less

/-- The chunks of a selection of nothing. -/
theorem chunks_of_empty {s : Hyperslab} (empty : 0 ∈ s.count) (chunkDims : List Nat) :
    s.chunkSpan chunkDims = .ok none ∧ s.chunks chunkDims = [] := by
  have span : s.chunkSpan chunkDims = .ok none := if_pos empty
  exact ⟨span, by rw [chunks, span]⟩

theorem not_selects_of_empty {s : Hyperslab} (empty : 0 ∈ s.count)
    (ranks : s.start.length = s.count.length) (x : Coordinate) : ¬ s.Selects x := by
  intro selected
  rw [← List.map_snd_zip ranks.ge] at empty
  obtain ⟨p, mem, zero⟩ := List.mem_map.1 empty
  have some : ∀ p ∈ s.start.zip s.count, 0 < p.2 :=
    forall_of_forall₂ selected fun x p inside => by omega
  have pos := some p mem
  omega

/-- The elements selected can be counted. -/
theorem numElements_eq {s : Hyperslab} {n : Nat} (counted : s.numElements = .ok n) :
    n = s.count.prod ∧ n ≤ maxWord := by
  obtain ⟨total, each⟩ := Bounds.product_eq_ok_iff.1 counted
  have all := each s.count.length
  rw [List.take_length, ← total] at all
  exact ⟨total, all⟩

theorem ranks_of_validate {s : Hyperslab} {dims : List Nat} (valid : s.validate dims = .ok ()) :
    s.count.length = s.start.length ∧ s.start.length = dims.length ∧
      misfit? 0 s.start s.count dims = none := by
  unfold validate at valid
  split at valid
  · cases valid
  · next ranks =>
      split at valid
      · cases valid
      · next inside => exact ⟨by omega, by omega, inside⟩

variable {axes : List Axis}

/-- A block that lies inside the extents ends in each dimension at one of their elements. -/
theorem stops_of_inside {dims : List Nat} {d : Nat}
    (inside : misfit? d (axes.map Axis.start) (axes.map Axis.count) dims = none)
    (rank : axes.length = dims.length) :
    List.Forall₂ (fun (a : Axis) n => a.start + a.count ≤ n) axes dims := by
  induction axes generalizing dims d with
  | nil =>
    rw [List.length_eq_zero_iff.1 rank.symm]
    exact .nil
  | cons a axes ih =>
    obtain _ | ⟨n, dims⟩ := dims
    · simp at rank
    rw [List.map_cons, List.map_cons, misfit?] at inside
    split at inside
    · next fits => exact .cons fits (ih inside (Nat.succ.inj rank))
    · cases inside

/-- A selection that is not empty, one axis for each dimension. -/
theorem exists_axes_of_validate {s : Hyperslab} {dims chunkDims : List Nat}
    (valid : s.validate dims = .ok ()) (rank : chunkDims.length = dims.length)
    (chunks : ∀ k ∈ chunkDims, 0 < k) (words : ∀ n ∈ dims, n ≤ maxWord) (some : 0 ∉ s.count) :
    ∃ axes : List Axis, (s.start = axes.map Axis.start ∧ s.count = axes.map Axis.count ∧
      chunkDims = axes.map Axis.chunk) ∧ (∀ a ∈ axes, a.Fits) ∧
        List.Forall₂ (fun (a : Axis) n => a.start + a.count ≤ n) axes dims := by
  obtain ⟨counts, starts, inside⟩ := ranks_of_validate valid
  obtain ⟨axes, start, count, chunkDims⟩ := exists_axes counts (rank.trans starts.symm)
  rw [start, count] at inside
  rw [start, List.length_map] at starts
  have stops := stops_of_inside inside starts
  refine ⟨axes, ⟨start, count, chunkDims⟩, fun a mem => ?_, stops⟩
  obtain ⟨i, here⟩ := List.mem_iff_getElem?.1 mem
  obtain ⟨n, there, stop⟩ := forall₂_getElem? stops here
  refine ⟨chunks _ (chunkDims ▸ List.mem_map_of_mem mem), ?_,
    stop.trans (words n (List.mem_of_getElem? there))⟩
  exact Nat.pos_of_ne_zero fun zero => some (count ▸ zero ▸ List.mem_map_of_mem mem)

/-- Chunks with elements in common with a block end with the extents or not a chunk later. -/
theorem ends_of_touched {c dims : List Nat} (fits : ∀ a ∈ axes, a.Fits)
    (touched : List.Forall₂ (fun c a => (Axis.common c a).1 ≤ (Axis.common c a).2) c axes)
    (stops : List.Forall₂ (fun (a : Axis) n => a.start + a.count ≤ n) axes dims)
    (ends : List.Forall₂ (fun n (a : Axis) => n + a.chunk ≤ maxWord) dims axes) :
    List.Forall₂ (fun c (a : Axis) => c * a.chunk + a.chunk ≤ maxWord) c axes := by
  induction touched generalizing dims with
  | nil => exact .nil
  | @cons c a cs axes common _ ih =>
    obtain _ | ⟨stop, stops⟩ := stops
    obtain _ | ⟨last, ends⟩ := ends
    refine .cons ?_ (ih (fun a mem => fits a (List.mem_cons_of_mem _ mem)) stops ends)
    have some := (fits a List.mem_cons_self).count
    simp only [Axis.common] at common
    omega

theorem selects_axes {x : Coordinate} :
    (Hyperslab.mk (axes.map Axis.start) (axes.map Axis.count)).Selects x ↔
      List.Forall₂ (fun x (a : Axis) => a.Selects x) x axes := by
  have pairs : (axes.map Axis.start).zip (axes.map Axis.count) =
      axes.map fun a => (a.start, a.count) := List.zip_map' ..
  rw [Selects]
  show List.Forall₂ _ x ((axes.map Axis.start).zip (axes.map Axis.count)) ↔ _
  rw [pairs, List.forall₂_map_right_iff]
  rfl

theorem spanAlong_axis {a : Axis} (fits : a.Fits) :
    spanAlong a.start a.count a.chunk = .ok a.span := by
  have pos := fits.chunk
  have some := fits.count
  have stop : Bounds.within (a.start + a.count) = .ok (a.start + a.count) :=
    Bounds.within_eq_ok_iff.2 ⟨fits.stop, rfl⟩
  have less : Bounds.sub (a.start + a.count) 1 = .ok (a.start + a.count - 1) :=
    Bounds.sub_eq_ok_iff.2 (by omega)
  have quotient : ∀ n, Bounds.div n a.chunk = .ok (n / a.chunk) := fun n =>
    Bounds.div_eq_ok_iff.2 ⟨by omega, rfl⟩
  simp only [spanAlong, stop, quotient, bind, Except.bind, less]
  rfl

theorem spansAlong_axes (fits : ∀ a ∈ axes, a.Fits) :
    spansAlong (axes.map Axis.start) (axes.map Axis.count) (axes.map Axis.chunk) =
      .ok (axes.map Axis.span) := by
  induction axes with
  | nil => rfl
  | cons a axes ih =>
    rw [List.map_cons, List.map_cons, List.map_cons, spansAlong,
      spanAlong_axis (fits a List.mem_cons_self),
      ih fun x hx => fits x (List.mem_cons_of_mem a hx)]
    rfl

/-- The chunks of a selection that is not empty. -/
theorem chunks_axes (fits : ∀ a ∈ axes, a.Fits) :
    (Hyperslab.mk (axes.map Axis.start) (axes.map Axis.count)).chunkSpan (axes.map Axis.chunk) =
        .ok (some (axes.map Axis.span)) ∧
      (Hyperslab.mk (axes.map Axis.start) (axes.map Axis.count)).chunks (axes.map Axis.chunk) =
        Box.coordinates (axes.map Axis.span) := by
  have full : 0 ∉ axes.map Axis.count := by
    intro zero
    obtain ⟨a, mem, empty⟩ := List.mem_map.1 zero
    have some := (fits a mem).count
    omega
  have span : (Hyperslab.mk (axes.map Axis.start) (axes.map Axis.count)).chunkSpan
      (axes.map Axis.chunk) = .ok (some (axes.map Axis.span)) := by
    rw [chunkSpan, if_neg full, spansAlong_axes fits]
    rfl
  exact ⟨span, by rw [chunks, span]⟩

theorem mem_chunks_axes (fits : ∀ a ∈ axes, a.Fits) {c : Coordinate} :
    c ∈ Box.coordinates (axes.map Axis.span) ↔
      List.Forall₂ (fun c a => (Axis.common c a).1 ≤ (Axis.common c a).2) c axes := by
  rw [Box.mem_coordinates_iff, List.forall₂_map_right_iff]
  exact forall₂_congr_right fun a mem c => Axis.mem_span_iff (fits a mem)

/-- A touched chunk has a selected element. -/
theorem exists_selected {c : Coordinate} (fits : ∀ a ∈ axes, a.Fits)
    (touched : List.Forall₂ (fun c a => (Axis.common c a).1 ≤ (Axis.common c a).2) c axes) :
    ∃ x, List.Forall₂ (fun x (a : Axis) => a.Selects x) x axes ∧
      List.zipWith (· / ·) x (axes.map Axis.chunk) = c := by
  induction touched with
  | nil => exact ⟨[], .nil, rfl⟩
  | @cons c a cs axes here _ ih =>
    obtain ⟨xs, selected, chunk⟩ := ih fun b hb => fits b (List.mem_cons_of_mem a hb)
    obtain ⟨first, own⟩ :=
      (Axis.mem_common_iff (fits a List.mem_cons_self)).1 ⟨le_refl _, here⟩
    refine ⟨(Axis.common c a).1 :: xs, .cons first selected, ?_⟩
    rw [List.map_cons, List.zipWith_cons_cons, own, chunk]

/-- The chunk of a selected element is touched. -/
theorem touched_of_selected {c x : Coordinate} (fits : ∀ a ∈ axes, a.Fits)
    (selected : List.Forall₂ (fun x (a : Axis) => a.Selects x) x axes)
    (chunk : List.zipWith (· / ·) x (axes.map Axis.chunk) = c) :
    List.Forall₂ (fun c a => (Axis.common c a).1 ≤ (Axis.common c a).2) c axes := by
  subst chunk
  induction selected with
  | nil => exact .nil
  | @cons x a xs axes here _ ih =>
    refine .cons ?_ (ih fun b hb => fits b (List.mem_cons_of_mem a hb))
    obtain ⟨low, high⟩ := (Axis.mem_common_iff (fits a List.mem_cons_self)).2 ⟨here, rfl⟩
    exact low.trans high

end Hyperslab

end ChunkStore
