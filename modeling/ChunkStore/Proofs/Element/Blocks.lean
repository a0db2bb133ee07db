import ChunkStore.Proofs.Element.Loops

/-!
# Kernels and the byte-by-byte transforms

A block of a kernel makes its own part of the destination right and loads and stores only inside the
buffers (`fills_shuffleBlock`, `fills_unshuffleBlock`, `fills_swapBlock`); so do all whole blocks
one after another (`fills_forBlocks`), and the rest goes byte by byte. `byBlocks_eq_reference`: with
registers of one lane and of two a kernel gives what the transform gives byte by byte, whatever the
destination held before. `run_undone`: what one unit of the processor makes of whole elements any
other unit undoes.
-/

namespace ChunkStore.Element

variable {V : Type} {m : Machine V} {ls : Lanes V}
variable {target : Nat → UInt8} {size : Nat} {done : Nat → Prop} {out source : Array UInt8}

/-! ## Registers of a block -/

theorem two_dvd_of_gatherTable {width : Nat} {table : Lane}
    (found : gatherTable? width = some table) : 2 ∣ width := by
  unfold gatherTable? at found
  split at found
  case h_4 => cases found
  all_goals decide

theorem dvd_of_reverseTable {width : Nat} {table : Lane}
    (found : reverseTable? width = some table) : width ∣ 16 := by
  unfold reverseTable? at found
  split at found
  case h_5 => cases found
  all_goals decide

theorem Lane.window_congr {f g : Nat → UInt8} {i j : Nat}
    (same : ∀ k < 16, f (i + k) = g (j + k)) : window f i = window g j := by
  refine Vector.ext fun k lt => ?_
  rw [window, window, Vector.getElem_ofFn, Vector.getElem_ofFn]
  exact same k lt

theorem apply_of_map_eq_range {α β : Type} {xs : List α} {φ : α → β} {count : Nat} {g : Nat → β}
    (known : xs.map φ = (List.range count).map g) {k : Nat} {x : α} (found : xs[k]? = some x) :
    k < count ∧ φ x = g k := by
  have item : ((List.range count).map g)[k]? = some (φ x) := by
    rw [← known, List.getElem?_map, found]
    rfl
  obtain ⟨lt, same⟩ := List.getElem?_eq_some_iff.1 item
  rw [List.length_map, List.length_range] at lt
  rw [List.getElem_map, List.getElem_range] at same
  exact ⟨lt, same.symm⟩

theorem length_of_map_eq_range {α β : Type} {xs : List α} {φ : α → β} {count : Nat} {g : Nat → β}
    (known : xs.map φ = (List.range count).map g) : xs.length = count := by
  have lengths := congrArg List.length known
  rwa [List.length_map, List.length_map, List.length_range] at lengths

/-- The planes of the elements from byte `offset` on, lane by lane 16 elements. -/
theorem lane_planes (lawful : m.Lawful ls) {width : Nat} {table : Lane}
    (found : gatherTable? width = some table) (f : Nat → UInt8) (offset : Nat) {l : Nat}
    (lt : l < ls.count) :
    (planes m (((List.range width).map (ls.blockWindow f width offset)).map
        (m.gather table))).map (ls.lane l) =
      (List.range width).map fun j =>
        Lane.window (fun i => f (offset + (16 * l + i) * width + j)) 0 := by
  have gathered : (((List.range width).map (ls.blockWindow f width offset)).map
        (m.gather table)).map (ls.lane l) =
      (List.range width).map fun k => Lane.gather table
        (Lane.window (fun i => f (offset + 16 * l * width + i)) (16 * k)) := by
    rw [List.map_map, List.map_map]
    refine List.map_congr_left fun k _ => ?_
    show ls.lane l (m.gather table (ls.make _)) = _
    rw [lawful.gather, ls.lane_make _ l lt]
    refine congrArg _ (Lane.window_congr fun i _ => ?_)
    rw [Nat.mul_add, ← Nat.mul_assoc, ← Nat.add_assoc, Nat.add_assoc _ (16 * k)]
  rw [planes_map (lawful.carries l), gathered, planes_windows found]
  refine List.map_congr_left fun j _ => Lane.window_congr fun i _ => ?_
  rw [Nat.zero_add, Nat.add_mul, Nat.add_assoc, Nat.add_assoc, Nat.add_assoc]

/-- The elements from element `start` on, in each lane 16 of them, from planes of `n` elements. -/
theorem lane_elements (lawful : m.Lawful ls) {width : Nat} {table : Lane}
    (found : gatherTable? width = some table) (f : Nat → UInt8) (n start : Nat) {l : Nat}
    (lt : l < ls.count) :
    (elements m ((List.range width).map fun j => ls.window f (j * n + start))).map (ls.lane l) =
      (List.range width).map fun k => Lane.window
        (fun i => f ((16 * k + i) % width * n + start + 16 * l + (16 * k + i) / width)) 0 := by
  have plane (q i : Nat) (below : i < 16) : (16 * q + i) / 16 = q := by omega
  have place (q i : Nat) (below : i < 16) : (16 * q + i) % 16 = i := by omega
  have loaded : ((List.range width).map fun j => ls.window f (j * n + start)).map (ls.lane l) =
      (List.range width).map fun j =>
        Lane.window (fun p => f (p / 16 * n + start + 16 * l + p % 16)) (16 * j) := by
    rw [List.map_map]
    refine List.map_congr_left fun j _ => ?_
    show ls.lane l (ls.make _) = _
    rw [ls.lane_make _ l lt]
    refine Lane.window_congr fun i below => ?_
    rw [plane j i below, place j i below]
  rw [elements_map (lawful.carries l), loaded, elements_windows found]
  refine List.map_congr_left fun k mem => Lane.window_congr fun i below => ?_
  have pos : 0 < width := Nat.zero_lt_of_lt (List.mem_range.1 mem)
  have inside : (16 * k + i) / width < 16 := by
    rw [Nat.div_lt_iff_lt_mul pos]
    have lt := List.mem_range.1 mem
    omega
  rw [Nat.zero_add, plane _ _ inside, place _ _ inside]

/-! ## Blocks -/

/-- A register for every plane from number `plane` on. -/
theorem fills_storePlanes (lawful : m.Lawful ls) {n start plane : Nat} {vs : List V}
    (holds : Holds target size done out) (inside : start + m.size ≤ n)
    (fits : (plane + vs.length) * n ≤ size)
    (shows : ∀ (j : Nat) (v : V), vs[j]? = some v →
      ls.Shows target ((plane + j) * n + start) v) :
    Fills target size (fun k => done k ∨ (plane ≤ k / n ∧ k / n < plane + vs.length) ∧
        start ≤ k % n ∧ k % n < start + m.size)
      (storePlanes m n start out plane vs) := by
  induction vs generalizing plane done out with
  | nil =>
    refine .pure (holds.mono fun k _ there => there.resolve_right fun beyond => ?_)
    exact Nat.not_lt_of_le beyond.1.1 beyond.1.2
  | cons v vs ih =>
    have next : plane + 1 + vs.length = plane + (vs.length + 1) := by omega
    have below : (plane + 1) * n ≤ size :=
      Nat.le_trans (Nat.mul_le_mul_right n (by rw [List.length_cons]; omega)) fits
    rw [Nat.succ_mul] at below
    have shown : ls.Shows target (plane * n + start) v := shows 0 v rfl
    refine (lawful.store holds (by omega) shown).bind fun out holds => ?_
    have later : ∀ (j : Nat) (v : V), vs[j]? = some v →
        ls.Shows target ((plane + 1 + j) * n + start) v := by
      intro j v found
      rw [Nat.add_assoc, Nat.add_comm 1]
      exact shows (j + 1) v found
    refine (ih holds (by rwa [next]) later).mono fun k _ there => ?_
    rcases there with there | ⟨⟨low, high⟩, block⟩
    · exact .inl (.inl there)
    · -- a place of this plane was written now, one of a later plane is written then
      rw [List.length_cons] at high
      by_cases first : k / n = plane
      · have whole := Nat.div_add_mod' k n
        rw [first] at whole
        exact .inl (.inr ⟨by omega, by omega⟩)
      · exact .inr ⟨⟨by omega, by omega⟩, block⟩

/-- A block of elements has its bytes inside the buffer of all elements. -/
theorem block_within {count width n start block : Nat} (whole : count = n * width)
    (inside : start + block ≤ n) : start * width + width * block ≤ count := by
  rw [whole, Nat.mul_comm width, ← Nat.add_mul]
  exact Nat.mul_le_mul_right width inside

theorem fills_shuffleBlock (lawful : m.Lawful ls) {width n start : Nat} {table : Lane}
    (found : gatherTable? width = some table) (whole : source.size = n * width)
    (inside : start + m.size ≤ n) (holds : Holds target source.size done out)
    (moved : ∀ k, target k = source.getD (k % n * width + k / n) 0) :
    Fills target source.size (fun k => done k ∨ start ≤ k % n ∧ k % n < start + m.size)
      (shuffleBlock m table source n width start out) := by
  have within := block_within whole inside
  rw [shuffleBlock, lawful.loadBlock (two_dvd_of_gatherTable found) source _ within]
  have lanes (l : Nat) (lt : l < ls.count) := lane_planes lawful found
    (fun k => source.getD k 0) (start * width) lt
  have count := length_of_map_eq_range (lanes 0 ls.pos)
  have fits : (0 + width) * n ≤ source.size :=
    Nat.le_of_eq (by rw [Nat.zero_add, whole, Nat.mul_comm])
  rw [← count] at fits
  refine (fills_storePlanes lawful holds inside fits fun j v there l lt => ?_).mono
    fun k lt there => Or.imp_right (fun block => ?_) there
  · -- byte `i` of lane `l` of plane `j` is byte `j` of element `start + (16 * l + i)`
    rw [(apply_of_map_eq_range (lanes l lt) there).2]
    refine Lane.window_congr fun i below => ?_
    have least : 16 * l + 16 ≤ m.size := by
      rw [lawful.size]
      omega
    have element : start + (16 * l + i) < n := by omega
    have spot : (0 + j) * n + start + 16 * l + i = n * j + (start + (16 * l + i)) := by
      rw [Nat.zero_add, Nat.mul_comm n]
      omega
    rw [moved, spot, Nat.mul_add_mod, Nat.mod_eq_of_lt element,
      Nat.mul_add_div (Nat.zero_lt_of_lt element), Nat.div_eq_of_lt element, Nat.add_zero,
      Nat.zero_add, Nat.add_mul start]
  · rw [whole] at lt
    rw [count, Nat.zero_add]
    exact ⟨⟨Nat.zero_le _, Nat.div_lt_of_lt_mul lt⟩, block⟩

theorem fills_unshuffleBlock (lawful : m.Lawful ls) {width n start : Nat} {table : Lane}
    (found : gatherTable? width = some table) (whole : source.size = n * width)
    (inside : start + m.size ≤ n) (holds : Holds target source.size done out)
    (moved : ∀ k, target k = source.getD (k % width * n + k / width) 0) :
    Fills target source.size
      (fun k => done k ∨ start ≤ k / width ∧ k / width < start + m.size)
      (unshuffleBlock m source n width start out) := by
  have loaded : (List.range width).mapM (fun j => m.load source (j * n + start)) = some
      ((List.range width).map fun j => ls.window (fun k => source.getD k 0) (j * n + start)) := by
    refine mapM_eq_some fun j mem => lawful.load source _ ?_
    have below : (j + 1) * n ≤ width * n := Nat.mul_le_mul_right n (List.mem_range.1 mem)
    rw [Nat.succ_mul, Nat.mul_comm width, ← whole] at below
    omega
  rw [unshuffleBlock, loaded]
  have lanes (l : Nat) (lt : l < ls.count) := lane_elements lawful found
    (fun k => source.getD k 0) n start lt
  have count := length_of_map_eq_range (lanes 0 ls.pos)
  have within := block_within whole inside
  have even : 2 ∣ width := two_dvd_of_gatherTable found
  refine (lawful.storeBlock (by rwa [count]) holds (by rwa [count]) fun k v there l lt => ?_).mono
    fun k lt there => Or.imp_right (fun block => ?_) there
  · obtain ⟨below, shown⟩ := apply_of_map_eq_range (lanes l lt) there
    rw [shown, count]
    -- the bytes before lane `l` of the block are those of whole elements
    refine Lane.window_congr fun i _ => ?_
    have pos : 0 < width := Nat.zero_lt_of_lt below
    have spot : start * width + 16 * (l * width + k) + i =
        width * (start + 16 * l) + (16 * k + i) := by
      rw [Nat.mul_comm width, Nat.add_mul, Nat.mul_add, Nat.mul_assoc]
      omega
    rw [moved, spot, Nat.mul_add_mod, Nat.mul_add_div pos, Nat.zero_add, ← Nat.add_assoc,
      ← Nat.add_assoc]
  · have pos : 0 < width := by
      rw [whole] at lt
      exact Nat.pos_of_lt_mul_left lt
    rw [count]
    exact ⟨(Nat.le_div_iff_mul_le pos).1 block.1, by
      rw [Nat.mul_comm width, ← Nat.add_mul]
      exact (Nat.div_lt_iff_lt_mul pos).1 block.2⟩

theorem fills_swapBlock (lawful : m.Lawful ls) {width start : Nat} {table : Lane}
    (found : reverseTable? width = some table) (aligned : width ∣ start)
    (inside : start + m.size ≤ source.size) (holds : Holds target source.size done out)
    (moved : ∀ k, target k = source.getD (k - k % width + (width - 1 - k % width)) 0) :
    Fills target source.size (fun k => done k ∨ start ≤ k ∧ k < start + m.size)
      (m.load source start >>= fun v => m.store out start (m.gather table v)) := by
  rw [lawful.load source start inside]
  refine lawful.store holds inside fun l lt => ?_
  have begin : Lane.window (fun k => source.getD k 0) (start + 16 * l) =
      Lane.window (fun i => source.getD (start + 16 * l + i) 0) 0 :=
    Lane.window_congr fun i _ => by rw [Nat.zero_add]
  rw [lawful.gather, Lanes.window, ls.lane_make _ l lt, begin, gather_window found]
  refine Lane.window_congr fun i _ => ?_
  have whole : width ∣ start + 16 * l :=
    Nat.dvd_add aligned (Nat.dvd_mul_right_of_dvd (dvd_of_reverseTable found) l)
  have part : (start + 16 * l + i) % width = i % width := by
    obtain ⟨c, same⟩ := whole
    rw [same, Nat.mul_add_mod]
  have least : i % width ≤ i := Nat.mod_le ..
  rw [moved, part, Nat.zero_add, Nat.add_sub_assoc least, ← Nat.add_assoc]

/-- All whole blocks, each of which makes its own part right. -/
theorem fills_forBlocks {n block : Nat} (place : Nat → Nat)
    {step : Nat → Array UInt8 → Option (Array UInt8)}
    (steps : ∀ b < n / block, ∀ {done out}, Holds target size done out →
      Fills target size (fun k => done k ∨ b * block ≤ place k ∧ place k < b * block + block)
        (step (b * block) out))
    (fits : out.size = size) :
    Fills target size (fun k => place k < n / block * block) (forBlocks block n step out) := by
  have blocks : Fills target size (fun k => False ∨ ∃ b ∈ List.range (n / block),
      b * block ≤ place k ∧ place k < b * block + block) (forBlocks block n step out) :=
    .foldlM (fun b mem _ _ holds => steps b (List.mem_range.1 mem) holds) (.start fits)
  refine blocks.mono fun k _ there => .inr ⟨place k / block, List.mem_range.2 ?_, ?_⟩
  · exact (Nat.div_lt_iff_lt_mul (Nat.pos_of_lt_mul_left there)).2 there
  · have split := Nat.div_add_mod' (place k) block
    have small := Nat.mod_lt (place k) (Nat.pos_of_lt_mul_left there)
    omega

/-! ## Transforms -/

namespace Transform

theorem fills_byBlocks (lawful : m.Lawful ls) (t : Transform) {width : Nat}
    (whole : width ∣ source.size) (fits : out.size = source.size) :
    Fills (t.byteAt source width) source.size (fun _ => True) (t.byBlocks m source width out) := by
  have product : source.size = source.size / width * width := (Nat.div_mul_cancel whole).symm
  have pos : 0 < m.size := by
    rw [lawful.size]
    exact Nat.mul_pos (by decide) ls.pos
  have inside {n b : Nat} (lt : b < n / m.size) : b * m.size + m.size ≤ n := by
    rw [← Nat.succ_mul]
    exact (Nat.le_div_iff_mul_le pos).1 lt
  -- what the blocks leave the loops over single bytes do
  have all (place : Nat → Nat) (start : Nat) :
      ∀ k < source.size, True → place k < start ∨ start ≤ place k :=
    fun k _ _ => Nat.lt_or_ge (place k) start
  cases t with
  | shuffle =>
    simp only [byBlocks]
    split
    next => exact fills_byBytes shuffle whole fits
    next table found =>
      refine (fills_forBlocks (· % (source.size / width)) (fun b lt _ _ holds => ?_) fits).bind
        fun _ holds => (fills_shuffleRange product holds ?_).mono (all _ _)
      · exact fills_shuffleBlock lawful found product (inside lt) holds fun _ => rfl
      · exact fun _ hi _ hj => byteAt_shuffle hi hj
  | unshuffle =>
    simp only [byBlocks]
    split
    next => exact fills_byBytes unshuffle whole fits
    next table found =>
      refine (fills_forBlocks (· / width) (fun b lt _ _ holds => ?_) fits).bind
        fun _ holds => (fills_unshuffleRange product holds ?_).mono (all _ _)
      · exact fills_unshuffleBlock lawful found product (inside lt) holds fun _ => rfl
      · exact fun _ hi _ hj => byteAt_unshuffle hi hj
  | swap =>
    simp only [byBlocks]
    split
    next => exact fills_byBytes swap whole fits
    next table found =>
      have aligned (b : Nat) : width ∣ b * m.size := by
        rw [lawful.size]
        exact Nat.dvd_mul_left_of_dvd (Nat.dvd_mul_right_of_dvd (dvd_of_reverseTable found) _) b
      refine (fills_forBlocks id (fun b lt _ _ holds => ?_) fits).bind fun _ holds => ?_
      · exact fills_swapBlock lawful found (aligned b) (inside lt) holds fun _ => rfl
      · obtain ⟨first, start⟩ := aligned (source.size / m.size)
        rw [Nat.mul_comm width] at start
        have nonzero : 0 < width := Nat.pos_of_dvd_of_pos (dvd_of_reverseTable found) (by decide)
        have before : first ≤ source.size / width :=
          (Nat.le_div_iff_mul_le nonzero).2 (start ▸ Nat.div_mul_le_self ..)
        rw [start] at holds ⊢
        exact (fills_swapRange product before holds fun _ hi _ hj => byteAt_swap hi hj).mono
          (all id _)

theorem byBlocks_eq (lawful : m.Lawful ls) (t : Transform) {source : Bytes} {width : Nat}
    (whole : width ∣ source.length) (fits : out.size = source.length) :
    t.byBlocks m source.toArray width out = some (t.reference source width).toArray :=
  eq_reference (fills_byBlocks lawful t whole fits) whole

/-- The kernels of both widths of register fill any destination with what the transform gives byte
by byte, and no register is loaded or stored outside the buffers. -/
theorem byBlocks_eq_reference (t : Transform) {source : Bytes} {width : Nat}
    (whole : width ∣ source.length) (fits : out.size = source.length) :
    t.byBlocks Machine.lane source.toArray width out = some (t.reference source width).toArray ∧
    t.byBlocks Machine.wide source.toArray width out = some (t.reference source width).toArray ∧
    t.byBytes source.toArray width out = some (t.reference source width).toArray :=
  ⟨byBlocks_eq lawful_lane t whole fits, byBlocks_eq lawful_wide t whole fits,
    byBytes_eq t whole fits⟩

/-- Of 35 elements of 2 bytes the narrow registers move two blocks and the wide ones one, and three
elements are left. -/
theorem byBlocks_eq_reference_of_rest :
    let source : Bytes := (List.range 70).map UInt8.ofNat
    let out : Array UInt8 := Array.replicate 70 255
    2 ∣ source.length ∧ out.size = source.length ∧
    slice (shuffle.reference source 2) 32 6 = [64, 66, 68, 1, 3, 5] ∧
    shuffle.byBlocks Machine.lane source.toArray 2 out =
      some (shuffle.reference source 2).toArray ∧
    shuffle.byBlocks Machine.wide source.toArray 2 out =
      some (shuffle.reference source 2).toArray ∧
    shuffle.byBytes source.toArray 2 out = some (shuffle.reference source 2).toArray :=
  ⟨by decide, by decide, by decide +kernel, byBlocks_eq_reference shuffle (by decide) (by decide)⟩

/-- Every unit of the processor gives what the transform gives byte by byte. -/
theorem onUnit?_eq (t : Transform) (unit : VectorUnit) {source : Bytes} {width : Nat}
    (whole : width ∣ source.length) :
    t.onUnit? unit source width = some (t.reference source width).toArray := by
  have fits : (Array.replicate source.length (0 : UInt8)).size = source.length :=
    Array.size_replicate
  cases unit with
  | neon | scalar => exact byBytes_eq t whole fits
  | sse4 => exact byBlocks_eq lawful_lane t whole fits
  | avx2 => exact byBlocks_eq lawful_wide t whole fits

/-! ## Whole elements on any unit -/

/-- A unit that is present does what is done byte by byte, and refuses the same buffers. -/
theorem run_eq_whole (t : Transform) {unit : VectorUnit} (present : unit.isPresent = true)
    (source : Bytes) (width : Nat) :
    t.run unit source source.length width = t.whole source width := by
  have checks : checkBuffers source.length source.length width unit =
      checkBuffers source.length source.length width .scalar := by
    rw [checkBuffers, checkBuffers, present]
    rfl
  rw [run, Transform.whole, checks]
  cases passed : checkBuffers source.length source.length width .scalar with
  | error e => rfl
  | ok _ =>
    obtain ⟨-, whole⟩ := checkBuffers_scalar_eq_ok_iff.1 passed
    rw [onUnit?_eq t unit whole, byBytes_eq t whole Array.size_replicate]

/-- Any units of the processor transform whole elements and nothing else: byte `j` of element `i` of
`n` comes to place `j * n + i`, and back from there; every element is turned around, and again. -/
theorem run_undone {unit unit' : VectorUnit} (present : unit.isPresent = true)
    (present' : unit'.isPresent = true) (source : Bytes) (width : Nat) :
    (∀ t : Transform, t.run unit source source.length width = t.whole source width ∧
      ((∃ out, t.run unit source source.length width = .ok out) ↔
        0 < width ∧ width ∣ source.length)) ∧
    ∀ n, 0 < width → source.length = n * width → ∃ shuffled unshuffled swapped : Bytes,
      (shuffle.run unit source source.length width = .ok shuffled ∧
        shuffled.length = source.length ∧
        (∀ i < n, ∀ j < width, shuffled[j * n + i]? = source[i * width + j]?) ∧
        unshuffle.run unit' shuffled shuffled.length width = .ok source) ∧
      (unshuffle.run unit source source.length width = .ok unshuffled ∧
        shuffle.run unit' unshuffled unshuffled.length width = .ok source) ∧
      (swap.run unit source source.length width = .ok swapped ∧
        swapped.length = source.length ∧
        (∀ i < n, ∀ j < width, swapped[i * width + j]? = source[i * width + (width - 1 - j)]?) ∧
        swap.run unit' swapped swapped.length width = .ok source) := by
  constructor
  · intro t
    have same := run_eq_whole t present source width
    refine ⟨same, ?_⟩
    rw [same]
    constructor
    · rintro ⟨out, done⟩
      obtain ⟨pos, whole, -⟩ := (whole_eq_ok_iff t).1 done
      exact ⟨pos, whole⟩
    · rintro ⟨pos, whole⟩
      exact ⟨_, (whole_eq_ok_iff t).2 ⟨pos, whole, rfl⟩⟩
  · intro n pos length
    have whole : width ∣ source.length := ⟨n, by rw [length, Nat.mul_comm]⟩
    have done (t : Transform) {unit : VectorUnit} (present : unit.isPresent = true)
        {source : Bytes} (whole : width ∣ source.length) :
        t.run unit source source.length width = .ok (t.reference source width) := by
      rw [run_eq_whole t present, whole_eq_ok_iff]
      exact ⟨pos, whole, rfl⟩
    refine ⟨transpose source width, untranspose source width, reverseBytes source width,
      ⟨done shuffle present whole, length_transpose .., ?_, ?_⟩,
      ⟨done unshuffle present whole, ?_⟩,
      ⟨done swap present whole, length_reverseBytes whole, ?_, ?_⟩⟩
    · exact fun i hi j hj => getElem?_transpose length hi hj
    · rw [done unshuffle present' (by rwa [length_transpose])]
      exact congrArg _ (untranspose_transpose whole)
    · rw [done shuffle present' (by rwa [length_untranspose])]
      exact congrArg _ (transpose_untranspose whole)
    · exact fun i hi j hj => getElem?_reverseBytes length hi hj
    · rw [done swap present' (by rwa [length_reverseBytes whole])]
      exact congrArg _ (reverseBytes_reverseBytes whole)

/-- 35 elements of 2 bytes, taken apart by wide registers and put together by narrow ones. -/
theorem run_undone_of_rest :
    let source : Bytes := (List.range 70).map UInt8.ofNat
    VectorUnit.avx2.isPresent = true ∧ VectorUnit.sse4.isPresent = true ∧ 0 < 2 ∧
    source.length = 35 * 2 ∧ ∃ shuffled : Bytes,
      shuffle.run .avx2 source source.length 2 = .ok shuffled ∧
      shuffled[1 * 35 + 34]? = some 69 ∧
      unshuffle.run .sse4 shuffled shuffled.length 2 = .ok source := by
  intro source
  have length : source.length = 35 * 2 := by decide
  obtain ⟨-, rearranged⟩ :=
    @run_undone .avx2 .sse4 (by decide) (by decide) source 2
  obtain ⟨shuffled, _, _, ⟨done, -, places, undone⟩, -, -⟩ :=
    rearranged 35 (by decide) length
  refine ⟨by decide, by decide, by decide, length, shuffled, done, ?_, undone⟩
  exact (places 34 (by decide) 1 (by decide)).trans (by decide)

end Transform

end ChunkStore.Element
