import ChunkStore.Proofs.Element.Filling
import ChunkStore.Proofs.Element.Transposition
import ChunkStore.Proofs.Results

/-!
# Transforms by their loops

A loop over the planes of a transposition, or over the elements that are turned around, makes its
part of the destination right and meets no place outside the buffers (`fills_shuffleRange`,
`fills_unshuffleRange`, `fills_swapRange`), whatever the destination held before. So the loops over
all elements fill any destination as they shall (`Transform.byBytes_eq`), and whole elements are
transformed and nothing else (`Transform.whole_eq_ok_iff`).
-/

namespace ChunkStore.Element

variable {target : Nat → UInt8} {done : Nat → Prop} {source out : Array UInt8} {n width start : Nat}

theorem getElem?_eq_getD {k : Nat} (inside : k < source.size) :
    source[k]? = some (source.getD k 0) := by
  rw [Array.getD_eq_getD_getElem?, Array.getElem?_eq_getElem inside]
  rfl

/-- Elements from `start` on. -/
theorem mem_range'_iff {i : Nat} : i ∈ List.range' start (n - start) ↔ start ≤ i ∧ i < n := by
  rw [List.mem_range'_1]
  omega

/-! ## Planes -/

/-- A loop over planes, each a loop over the elements from `start` on, that takes every byte from
one place of the source to one of the destination. -/
theorem fills_planes (taken put : (i j : Nat) → Nat) (room : Array UInt8 → Nat)
    (roomy : ∀ out : Array UInt8, out.size = source.size → room out = n * width)
    (inside : ∀ i < n, ∀ j < width, taken i j < source.size ∧ put i j < source.size)
    (moved : ∀ i < n, ∀ j < width, target (put i j) = source.getD (taken i j) 0)
    (holds : Holds target source.size done out) :
    Fills target source.size
      (fun k => done k ∨ ∃ j ∈ List.range width, ∃ i ∈ List.range' start (n - start), k = put i j)
      ((List.range width).foldlM (fun out j => do
        guard ((j + 1) * n ≤ room out)
        (List.range' start (n - start)).foldlM
          (fun out i => do setByte? out (put i j) (← source[taken i j]?)) out) out) := by
  refine .foldlM (fun j mem done out holds => ?_) holds
  have hj := List.mem_range.1 mem
  have plane : (j + 1) * n ≤ room out := by
    rw [roomy out holds.length, Nat.mul_comm n]
    exact Nat.mul_le_mul_right n hj
  rw [guard, if_pos plane]
  refine .foldlM (fun i mem done out holds => ?_) holds
  obtain ⟨-, hi⟩ := mem_range'_iff.1 mem
  obtain ⟨there, place⟩ := inside i hi j hj
  rw [getElem?_eq_getD there]
  exact .setByte? holds place (moved i hi j hj).symm

theorem fills_shuffleRange (product : source.size = n * width)
    (holds : Holds target source.size done out)
    (moved : ∀ i < n, ∀ j < width, target (j * n + i) = source.getD (i * width + j) 0) :
    Fills target source.size (fun k => done k ∨ start ≤ k % n)
      (shuffleRange source width n start out) := by
  have inside (i : Nat) (hi : i < n) (j : Nat) (hj : j < width) :
      i * width + j < source.size ∧ j * n + i < source.size := by
    rw [product]
    exact ⟨(place_in_row hi hj).1, Nat.mul_comm n width ▸ (place_in_row hj hi).1⟩
  have planes : Fills target source.size _ (shuffleRange source width n start out) :=
    fills_planes _ _ Array.size (fun _ fits => fits.trans product) inside moved holds
  refine planes.mono fun k lt there => there.imp_right fun from_start => ?_
  rw [product, Nat.mul_comm] at lt
  obtain ⟨j, hj, i, hi, rfl⟩ := exists_row lt
  rw [(place_in_row hj hi).2.2] at from_start
  exact ⟨j, List.mem_range.2 hj, i, mem_range'_iff.2 ⟨from_start, hi⟩, rfl⟩

theorem fills_unshuffleRange (product : source.size = n * width)
    (holds : Holds target source.size done out)
    (moved : ∀ i < n, ∀ j < width, target (i * width + j) = source.getD (j * n + i) 0) :
    Fills target source.size (fun k => done k ∨ start ≤ k / width)
      (unshuffleRange source width n start out) := by
  have inside (i : Nat) (hi : i < n) (j : Nat) (hj : j < width) :
      j * n + i < source.size ∧ i * width + j < source.size := by
    rw [product]
    exact ⟨Nat.mul_comm n width ▸ (place_in_row hj hi).1, (place_in_row hi hj).1⟩
  have planes : Fills target source.size _ (unshuffleRange source width n start out) :=
    fills_planes _ _ (fun _ => source.size) (fun _ _ => product) inside moved holds
  refine planes.mono fun k lt there => there.imp_right fun from_start => ?_
  rw [product] at lt
  obtain ⟨i, hi, j, hj, rfl⟩ := exists_row lt
  rw [(place_in_row hi hj).2.1] at from_start
  exact ⟨j, List.mem_range.2 hj, i, mem_range'_iff.2 ⟨from_start, hi⟩, rfl⟩

/-! ## Elements -/

/-- Byte `k` of an element backwards. -/
theorem mem_zipIdx_reverse_iff {element : Bytes} {k : Nat} {b : UInt8} :
    (b, k) ∈ element.reverse.zipIdx ↔
      k < element.length ∧ element[element.length - 1 - k]? = some b := by
  rw [List.mem_zipIdx_iff_getElem?]
  by_cases lt : k < element.length
  · rw [List.getElem?_reverse lt]
    exact ⟨fun found => ⟨lt, found⟩, And.right⟩
  · rw [List.getElem?_eq_none (by simpa using lt)]
    simp [lt]

/-- The elements from byte `start` on, of which at most `count` are looked at. -/
theorem mem_elements_iff {xs : Bytes} {count c : Nat} {element : Bytes} :
    (element, c) ∈ ((chunksExact width (xs.drop start)).take count).zipIdx ↔
      c < (xs.length - start) / width ∧ c < count ∧
        element = slice xs (start + c * width) width := by
  rw [List.mem_zipIdx_iff_getElem?, List.getElem?_take, chunksExact, getElem?_takeChunks,
    List.length_drop, slice, List.drop_drop, ← slice]
  by_cases looked : c < count
  · by_cases there : c < (xs.length - start) / width
    · simp [looked, there, eq_comm]
    · simp [looked, there]
  · simp [looked]

/-- A single element. -/
theorem fills_reversed (product : source.size = n * width) {i : Nat} (hi : i < n)
    (holds : Holds target source.size done out)
    (turned : ∀ i < n, ∀ j < width,
      target (i * width + j) = source.getD (i * width + (width - 1 - j)) 0) :
    Fills target source.size (fun k => done k ∨ i * width ≤ k ∧ k < i * width + width)
      ((slice source.toList (i * width) width).reverse.zipIdx.foldlM
        (fun out (b, k) => setByte? out (i * width + k) b) out) := by
  have within : i * width + width ≤ source.size := by
    rw [product, ← Nat.succ_mul]
    exact Nat.mul_le_mul_right width hi
  have length : (slice source.toList (i * width) width).length = width := length_slice within
  have byte {k : Nat} {b : UInt8} :
      (b, k) ∈ (slice source.toList (i * width) width).reverse.zipIdx ↔
        k < width ∧ b = target (i * width + k) := by
    rw [mem_zipIdx_reverse_iff, length]
    refine and_congr_right fun lt => ?_
    rw [getElem?_slice, if_pos (by omega), Array.getElem?_toList, getElem?_eq_getD (by omega),
      turned i hi k lt, Option.some_inj, eq_comm]
  have bytes : Fills target source.size (fun k => done k ∨
      ∃ p ∈ (slice source.toList (i * width) width).reverse.zipIdx, k = i * width + p.2)
      ((slice source.toList (i * width) width).reverse.zipIdx.foldlM
        (fun out (b, k) => setByte? out (i * width + k) b) out) := by
    refine .foldlM (fun p mem done out holds => ?_) holds
    obtain ⟨lt, right⟩ := byte.1 mem
    exact .setByte? holds (by omega) right
  refine bytes.mono fun k _ there => there.imp_right fun ⟨low, high⟩ => ?_
  exact ⟨(target (i * width + (k - i * width)), k - i * width), byte.2 ⟨by omega, rfl⟩,
    (Nat.add_sub_cancel' low).symm⟩

theorem fills_swapRange (product : source.size = n * width) {first : Nat} (inside : first ≤ n)
    (holds : Holds target source.size done out)
    (turned : ∀ i < n, ∀ j < width,
      target (i * width + j) = source.getD (i * width + (width - 1 - j)) 0) :
    Fills target source.size (fun k => done k ∨ first * width ≤ k)
      (swapRange source width (first * width) out) := by
  have start : first * width ≤ source.size := product ▸ Nat.mul_le_mul_right width inside
  have guarded : first * width ≤ source.size ∧ first * width ≤ out.size :=
    ⟨start, holds.length ▸ start⟩
  have rest : source.size - first * width = (n - first) * width := by rw [product, Nat.sub_mul]
  have elements : Fills target source.size (fun k => done k ∨
      ∃ p ∈ ((chunksExact width (source.toList.drop (first * width))).take
          ((n - first) * width / width)).zipIdx,
        (first + p.2) * width ≤ k ∧ k < (first + p.2) * width + width)
      (swapRange source width (first * width) out) := by
    rw [swapRange, guard, if_pos guarded, holds.length, rest]
    refine .foldlM (fun (element, c) mem done out holds => ?_) holds
    obtain ⟨-, looked, rfl⟩ := mem_elements_iff.1 mem
    have below : (n - first) * width / width ≤ n - first :=
      Nat.div_le_of_le_mul (Nat.le_of_eq (Nat.mul_comm ..))
    have hi : first + c < n := by omega
    simp only [← Nat.add_mul]
    exact fills_reversed product hi holds turned
  refine elements.mono fun k lt there => there.imp_right fun from_first => ?_
  rw [product] at lt
  have pos : 0 < width := Nat.pos_of_lt_mul_left lt
  obtain ⟨i, hi, j, hj, rfl⟩ := exists_row lt
  have later : first ≤ i := by
    rw [← (place_in_row hi hj).2.1]
    exact (Nat.le_div_iff_mul_le pos).2 from_first
  have looked : i - first < (n - first) * width / width := by
    rw [Nat.mul_div_cancel _ pos]
    omega
  refine ⟨(_, i - first), mem_elements_iff.2 ⟨?_, looked, rfl⟩, ?_⟩
  · rwa [Array.length_toList, rest]
  · show (first + (i - first)) * width ≤ _ ∧ _
    rw [Nat.add_sub_cancel' later]
    omega

/-! ## All elements -/

namespace Transform

theorem byteAt_shuffle {i j : Nat} (hi : i < source.size / width) (hj : j < width) :
    shuffle.byteAt source width (j * (source.size / width) + i) =
      source.getD (i * width + j) 0 := by
  obtain ⟨-, row, column⟩ := place_in_row hj hi
  rw [byteAt, row, column]

theorem byteAt_unshuffle {i j : Nat} (hi : i < source.size / width) (hj : j < width) :
    unshuffle.byteAt source width (i * width + j) =
      source.getD (j * (source.size / width) + i) 0 := by
  obtain ⟨-, row, column⟩ := place_in_row hi hj
  rw [byteAt, row, column]

theorem byteAt_swap {i j : Nat} (hi : i < n) (hj : j < width) :
    swap.byteAt source width (i * width + j) =
      source.getD (i * width + (width - 1 - j)) 0 := by
  obtain ⟨-, -, column⟩ := place_in_row hi hj
  rw [byteAt, column, Nat.add_sub_cancel]

/-- Byte by byte every place of a destination gets its byte. -/
theorem fills_byBytes (t : Transform) (whole : width ∣ source.size)
    (fits : out.size = source.size) :
    Fills (t.byteAt source width) source.size (fun _ => True) (t.byBytes source width out) := by
  have product : source.size = source.size / width * width := (Nat.div_mul_cancel whole).symm
  have all (start : Nat → Nat) : ∀ k < source.size, True → False ∨ 0 ≤ start k :=
    fun _ _ _ => .inr (Nat.zero_le _)
  cases t with
  | shuffle =>
    exact (fills_shuffleRange product (.start fits) fun _ hi _ hj => byteAt_shuffle hi hj).mono
      (all _)
  | unshuffle =>
    exact (fills_unshuffleRange product (.start fits) fun _ hi _ hj => byteAt_unshuffle hi hj).mono
      (all _)
  | swap =>
    have turned := fills_swapRange product (Nat.zero_le _) (.start fits)
      fun _ hi _ hj => byteAt_swap hi hj
    rw [Nat.zero_mul] at turned
    exact turned.mono (all _)

theorem eq_reference {t : Transform} {source : Bytes} {x : Option (Array UInt8)}
    (filled : Fills (t.byteAt source.toArray width) source.length (fun _ => True) x)
    (whole : width ∣ source.length) : x = some (t.reference source width).toArray := by
  obtain ⟨_, rfl, holds⟩ := filled
  rw [holds.eq_target fun _ _ => trivial, reference_eq t whole]

theorem byBytes_eq (t : Transform) {source : Bytes} (whole : width ∣ source.length)
    (fits : out.size = source.length) :
    t.byBytes source.toArray width out = some (t.reference source width).toArray :=
  eq_reference (fills_byBytes t whole fits) whole

/-! ## Whole elements -/

theorem checkBuffers_scalar_eq_ok_iff {length : Nat} :
    checkBuffers length length width .scalar = .ok () ↔ 0 < width ∧ width ∣ length := by
  unfold checkBuffers
  rw [Nat.dvd_iff_mod_eq_zero, Nat.pos_iff_ne_zero]
  split
  next zero => simp [zero]
  next wide =>
    split
    next rest => simp [rest]
    next full => simpa [VectorUnit.isPresent, wide] using full

theorem whole_eq (t : Transform) (source : Bytes) (width : Nat) : t.whole source width = do
    checkBuffers source.length source.length width .scalar
    return t.reference source width := by
  rw [Transform.whole]
  cases passed : checkBuffers source.length source.length width .scalar with
  | error e => rfl
  | ok _ =>
    obtain ⟨-, whole⟩ := checkBuffers_scalar_eq_ok_iff.1 passed
    show (if width = 1 then _ else _) = Except.ok (t.reference source width)
    rw [byBytes_eq t whole Array.size_replicate]
    split
    next one =>
      rw [one, reference_one]
      rfl
    next => rfl

/-- Whole elements are transformed, and nothing else. -/
theorem whole_eq_ok_iff (t : Transform) {source out : Bytes} {width : Nat} :
    t.whole source width = .ok out ↔
      0 < width ∧ width ∣ source.length ∧ out = t.reference source width := by
  rw [whole_eq, bind_eq_ok_iff]
  constructor
  · rintro ⟨_, passed, done⟩
    cases done
    obtain ⟨pos, divides⟩ := checkBuffers_scalar_eq_ok_iff.1 passed
    exact ⟨pos, divides, rfl⟩
  · rintro ⟨pos, divides, rfl⟩
    exact ⟨(), checkBuffers_scalar_eq_ok_iff.2 ⟨pos, divides⟩, rfl⟩

/-- Buffers that are refused are not left by any transform. -/
theorem checkBuffers_ne_outOfBounds {length length' : Nat} {unit : VectorUnit} :
    checkBuffers length length' width unit ≠ .error .outOfBounds := by
  unfold checkBuffers
  intro failed
  repeat' split at failed
  all_goals cases failed

/-- No place outside the buffers is met. -/
theorem whole_ne_outOfBounds (t : Transform) (source : Bytes) (width : Nat) :
    t.whole source width ≠ .error .outOfBounds := by
  rw [whole_eq]
  cases passed : checkBuffers source.length source.length width .scalar with
  | error e =>
    rintro ⟨⟩
    exact checkBuffers_ne_outOfBounds passed
  | ok _ => nofun

end Transform

end ChunkStore.Element
