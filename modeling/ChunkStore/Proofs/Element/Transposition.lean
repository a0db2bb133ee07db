import ChunkStore.Element.Basic
import ChunkStore.Proofs.Runs

/-!
# Where the bytes of elements go

`n` elements of `width` bytes are `n` rows, and their byte planes are `width` rows of `n` bytes.
`transpose`, `untranspose` and `reverseBytes` are what transforms shall make of whole elements, each
in one expression (`Transform.reference`). `getElem?_transpose`, `getElem?_untranspose` and
`getElem?_reverseBytes` say which byte comes to which place of a row. A transposition is undone by
the one back (`untranspose_transpose`), and the other way round (`transpose_untranspose`); elements
turned around twice are as before (`reverseBytes_reverseBytes`).
-/

namespace ChunkStore.Element

/-! ## Rows -/

section Rows

variable {n width : Nat}

theorem place_in_row {i j : Nat} (hi : i < n) (hj : j < width) :
    i * width + j < n * width ∧ (i * width + j) / width = i ∧ (i * width + j) % width = j := by
  have pos : 0 < width := Nat.zero_lt_of_lt hj
  refine ⟨?_, ?_, ?_⟩
  · have full : (i + 1) * width ≤ n * width := Nat.mul_le_mul_right width hi
    rw [Nat.succ_mul] at full
    omega
  · rw [Nat.mul_comm, Nat.mul_add_div pos, Nat.div_eq_of_lt hj, Nat.add_zero]
  · rw [Nat.mul_comm, Nat.mul_add_mod, Nat.mod_eq_of_lt hj]

theorem exists_row {k : Nat} (lt : k < n * width) :
    ∃ i < n, ∃ j < width, k = i * width + j := by
  have pos : 0 < width := Nat.pos_of_lt_mul_left lt
  refine ⟨k / width, (Nat.div_lt_iff_lt_mul pos).2 lt, k % width, Nat.mod_lt k pos, ?_⟩
  exact (Nat.div_add_mod' k width).symm

/-- Lists of rows agree when the rows do. -/
theorem ext_rows {xs ys : Bytes} (left : xs.length = n * width) (right : ys.length = n * width)
    (same : ∀ i < n, ∀ j < width, xs[i * width + j]? = ys[i * width + j]?) : xs = ys := by
  refine List.ext_getElem? fun k => ?_
  rcases Nat.lt_or_ge k (n * width) with lt | ge
  · obtain ⟨i, hi, j, hj, rfl⟩ := exists_row lt
    exact same i hi j hj
  · rw [List.getElem?_eq_none (left ▸ ge), List.getElem?_eq_none (right ▸ ge)]

end Rows

/-- A place that gets the byte of another place inside the source. -/
theorem getElem?_map_range {source : Bytes} (origin : Nat → Nat) {k : Nat}
    (here : k < source.length) (there : origin k < source.length) :
    ((List.range source.length).map fun k => source.toArray.getD (origin k) 0)[k]? =
      source[origin k]? := by
  simp [here, there, Array.getD]

variable {source : Bytes} {width n : Nat}

/-! ## Transposition -/

/-- Byte `j` of element `i` goes to position `j * n + i`, for `n` elements of `width` bytes. -/
def transpose (source : Bytes) (width : Nat) : Bytes :=
  let bytes := source.toArray
  let n := source.length / width
  (List.range source.length).map fun k => bytes.getD (k % n * width + k / n) 0

/-- Byte `j * n + i` goes to byte `j` of element `i`, for `n` elements of `width` bytes. -/
def untranspose (source : Bytes) (width : Nat) : Bytes :=
  let bytes := source.toArray
  let n := source.length / width
  (List.range source.length).map fun k => bytes.getD (k % width * n + k / width) 0

@[simp] theorem length_transpose (source : Bytes) (width : Nat) :
    (transpose source width).length = source.length := by simp [transpose]

@[simp] theorem length_untranspose (source : Bytes) (width : Nat) :
    (untranspose source width).length = source.length := by simp [untranspose]

section Places

variable {i j : Nat} (length : source.length = n * width) (hi : i < n) (hj : j < width)

include length hi hj

/-- Byte `j` of element `i` comes to place `i` of plane `j`. -/
theorem getElem?_transpose : (transpose source width)[j * n + i]? = source[i * width + j]? := by
  have count : source.length / width = n := by
    rw [length, Nat.mul_div_cancel n (Nat.zero_lt_of_lt hj)]
  obtain ⟨inside, row, column⟩ := place_in_row hj hi
  have target : (j * n + i) % n * width + (j * n + i) / n = i * width + j := by rw [row, column]
  rw [transpose, count, ← target]
  refine getElem?_map_range (fun k => k % n * width + k / n) ?_ ?_
  · rwa [length, Nat.mul_comm n]
  · rw [target, length]
    exact (place_in_row hi hj).1

/-- Place `i` of plane `j` comes to byte `j` of element `i`. -/
theorem getElem?_untranspose :
    (untranspose source width)[i * width + j]? = source[j * n + i]? := by
  have count : source.length / width = n := by
    rw [length, Nat.mul_div_cancel n (Nat.zero_lt_of_lt hj)]
  obtain ⟨inside, row, column⟩ := place_in_row hi hj
  have target : (i * width + j) % width * n + (i * width + j) / width = j * n + i := by
    rw [row, column]
  rw [untranspose, count, ← target]
  refine getElem?_map_range (fun k => k % width * n + k / width) ?_ ?_
  · rwa [length]
  · rw [target, length, Nat.mul_comm n]
    exact (place_in_row hj hi).1

end Places

/-- Elements are put together again from their bytes. -/
theorem untranspose_transpose (whole : width ∣ source.length) :
    untranspose (transpose source width) width = source := by
  have length := (Nat.div_mul_cancel whole).symm
  have moved : (transpose source width).length = source.length / width * width := by
    rwa [length_transpose]
  refine ext_rows (by rwa [length_untranspose]) length fun i hi j hj => ?_
  rw [getElem?_untranspose moved hi hj, getElem?_transpose length hi hj]

/-- Byte planes are taken apart again from the elements. -/
theorem transpose_untranspose (whole : width ∣ source.length) :
    transpose (untranspose source width) width = source := by
  have length := (Nat.div_mul_cancel whole).symm
  have moved : (untranspose source width).length = source.length / width * width := by
    rwa [length_untranspose]
  have planes : source.length = width * (source.length / width) := by rwa [Nat.mul_comm]
  refine ext_rows (by rw [length_transpose, moved, Nat.mul_comm]) planes fun j hj i hi => ?_
  rw [getElem?_transpose moved hi hj, getElem?_untranspose length hi hj]

/-! ## Byte order -/

/-- The bytes of every element in the opposite order. -/
def reverseBytes (source : Bytes) (width : Nat) : Bytes :=
  (chunksExact width source).flatMap List.reverse

theorem reverse_take_eq {width : Nat} {xs : Bytes} (long : width ≤ xs.length) :
    (xs.take width).reverse = (List.range width).map fun k =>
      xs.toArray.getD (k - k % width + (width - 1 - k % width)) 0 := by
  refine List.ext_getElem (by simp [long]) fun k _ below => ?_
  have lt : k < width := by simpa using below
  have inside : width - 1 - k < xs.length := by omega
  simp [Nat.mod_eq_of_lt lt, long, inside]

theorem flatMap_reverse_takeChunks {width count : Nat} {xs : Bytes}
    (whole : xs.length = count * width) :
    (takeChunks width count xs).flatMap List.reverse =
      (List.range (count * width)).map fun k =>
        xs.toArray.getD (k - k % width + (width - 1 - k % width)) 0 := by
  induction count generalizing xs with
  | zero =>
    rw [Nat.zero_mul]
    rfl
  | succ count ih =>
    rw [Nat.succ_mul] at whole
    have rest : (xs.drop width).length = count * width := by
      rw [List.length_drop, whole, Nat.add_sub_cancel]
    rw [takeChunks, List.flatMap_cons, ih rest, reverse_take_eq (by omega), Nat.succ_mul,
      Nat.add_comm _ width, List.range_add, List.map_append, List.map_map]
    refine congrArg _ (List.map_congr_left fun k _ => ?_)
    have least : k % width ≤ k := Nat.mod_le ..
    show _ = xs.toArray.getD (width + k - (width + k) % width + (width - 1 - (width + k) % width)) 0
    rw [Nat.add_mod_left, Nat.add_sub_assoc least, Nat.add_assoc]
    simp

theorem reverseBytes_eq (whole : width ∣ source.length) : reverseBytes source width =
    (List.range source.length).map fun k =>
      source.toArray.getD (k - k % width + (width - 1 - k % width)) 0 := by
  have product := (Nat.div_mul_cancel whole).symm
  have turned := flatMap_reverse_takeChunks product
  rwa [← product] at turned

/-- Byte `j` of every element is byte `j` from its end. -/
theorem getElem?_reverseBytes {i j : Nat} (length : source.length = n * width) (hi : i < n)
    (hj : j < width) :
    (reverseBytes source width)[i * width + j]? = source[i * width + (width - 1 - j)]? := by
  obtain ⟨inside, -, column⟩ := place_in_row hi hj
  have target : i * width + j - (i * width + j) % width + (width - 1 - (i * width + j) % width) =
      i * width + (width - 1 - j) := by
    rw [column, Nat.add_sub_cancel]
  have whole : width ∣ source.length := ⟨n, by rw [length, Nat.mul_comm]⟩
  rw [reverseBytes_eq whole, ← target]
  refine getElem?_map_range (fun k => k - k % width + (width - 1 - k % width)) ?_ ?_
  · rwa [length]
  · rw [target, length]
    exact (place_in_row hi (show width - 1 - j < width by omega)).1

theorem length_reverseBytes (whole : width ∣ source.length) :
    (reverseBytes source width).length = source.length := by
  rw [reverseBytes_eq whole, List.length_map, List.length_range]

theorem reverseBytes_reverseBytes (whole : width ∣ source.length) :
    reverseBytes (reverseBytes source width) width = source := by
  have length := (Nat.div_mul_cancel whole).symm
  have moved : (reverseBytes source width).length = source.length / width * width := by
    rwa [length_reverseBytes whole]
  have whole' : width ∣ (reverseBytes source width).length := by
    rwa [length_reverseBytes whole]
  refine ext_rows (by rwa [length_reverseBytes whole']) length fun i hi j hj => ?_
  have back : width - 1 - (width - 1 - j) = j := by omega
  rw [getElem?_reverseBytes moved hi hj, getElem?_reverseBytes length hi (by omega), back]

/-! ## Each place of the destination -/

namespace Transform

/-- What the transform shall make of whole elements. -/
def reference : Transform → Bytes → (width : Nat) → Bytes
  | shuffle => transpose
  | unshuffle => untranspose
  | swap => reverseBytes

/-- The byte that a transform brings to place `k`. -/
def byteAt (t : Transform) (source : Array UInt8) (width k : Nat) : UInt8 :=
  let n := source.size / width
  match t with
  | shuffle => source.getD (k % n * width + k / n) 0
  | unshuffle => source.getD (k % width * n + k / width) 0
  | swap => source.getD (k - k % width + (width - 1 - k % width)) 0

/-- Each place gets its byte. -/
theorem reference_eq (t : Transform) {source : Bytes} {width : Nat}
    (whole : width ∣ source.length) : t.reference source width =
      (List.range source.length).map (t.byteAt source.toArray width) := by
  cases t with
  | shuffle => rfl
  | unshuffle => rfl
  | swap => exact reverseBytes_eq whole

/-- Elements of one byte stay where they are. -/
theorem reference_one (t : Transform) (source : Bytes) : t.reference source 1 = source := by
  have length : source.length = source.length * 1 := (Nat.mul_one _).symm
  cases t with
  | shuffle =>
    refine ext_rows ((length_transpose source 1).trans length) length fun i hi j hj => ?_
    obtain rfl : j = 0 := by omega
    show (transpose source 1)[i * 1 + 0]? = _
    simpa using getElem?_transpose length hi hj
  | unshuffle =>
    refine ext_rows ((length_untranspose source 1).trans length) length fun i hi j hj => ?_
    obtain rfl : j = 0 := by omega
    show (untranspose source 1)[i * 1 + 0]? = _
    simpa using getElem?_untranspose length hi hj
  | swap =>
    refine ext_rows ((length_reverseBytes (Nat.one_dvd _)).trans length) length fun i hi j hj => ?_
    obtain rfl : j = 0 := by omega
    exact getElem?_reverseBytes length hi hj

end Transform

end ChunkStore.Element
