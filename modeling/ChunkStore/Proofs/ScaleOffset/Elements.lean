import ChunkStore.Bytes.Lemmas
import ChunkStore.Proofs.Bitmap
import ChunkStore.Proofs.Element.Loops
import ChunkStore.ScaleOffset.Packing

/-!
# What packed chunks are made of

A chunk of whole elements and the numbers of its elements determine each other, in either byte
order (`ofElements_elements`, `elements_ofElements`). A packed chunk is a header and codes: what
`header` writes is found again in front of any payload (`decode_take_header`,
`decode_slice_header`), and `readCodes` finds the numbers that `Bits.pack` put together, when each
fits its width (`readCodes_pack`).
-/

namespace ChunkStore

namespace ScaleOffset

variable {p : Parameters}

/-! ## Elements -/

theorem size_of_validate (valid : p.validate = .ok ()) : p.size.toNat ∈ [1, 2, 4, 8] := by
  unfold Parameters.validate at valid
  split at valid
  · cases valid
  cases number : p.numberClass with
  | integer =>
    rw [number] at valid
    dsimp only at valid
    split at valid
    next served => exact served
    next => cases valid
  | float =>
    rw [number] at valid
    dsimp only at valid
    split at valid
    next served =>
      simp only [List.mem_cons, List.not_mem_nil, or_false] at served ⊢
      omega
    next => cases valid

theorem size_pos (valid : p.validate = .ok ()) : 0 < p.size.toNat := by
  have served := size_of_validate valid
  simp only [List.mem_cons, List.not_mem_nil, or_false] at served
  omega

theorem bits_le (valid : p.validate = .ok ()) : p.bits ≤ 64 := by
  have served := size_of_validate valid
  simp only [List.mem_cons, List.not_mem_nil, or_false] at served
  rw [Parameters.bits]
  omega

theorem pow_size (p : Parameters) : 256 ^ p.size.toNat = 2 ^ p.bits := by
  rw [Parameters.bits, Nat.mul_comm, Nat.pow_mul]

/-- Elements in the byte order of the dataset, from or to least significant first. -/
def reorder (p : Parameters) (bytes : Bytes) : Bytes :=
  if p.swapsBytes then Element.reverseBytes bytes p.size.toNat else bytes

/-- Whole elements are converted. -/
theorem convert_eq (some : 0 < p.size.toNat) {bytes : Bytes}
    (whole : p.size.toNat ∣ bytes.length) : convert p bytes = .ok (reorder p bytes) := by
  have swapped : Element.swap bytes p.size.toNat = .ok (Element.reverseBytes bytes p.size.toNat) :=
    (Element.Transform.whole_eq_ok_iff .swap).2 ⟨some, whole, rfl⟩
  unfold convert reorder
  split
  · rw [swapped]
    rfl
  · rfl

/-- The numbers of a chunk's elements. -/
def elements (p : Parameters) (bytes : Bytes) : List Nat :=
  (chunksExact p.size.toNat (reorder p bytes)).map LittleEndian.decode

/-- The chunk with the given elements. -/
def ofElements (p : Parameters) (values : List Nat) : Bytes :=
  reorder p (values.flatMap (LittleEndian.encode p.size.toNat))

theorem length_reorder {bytes : Bytes} (whole : p.size.toNat ∣ bytes.length) :
    (reorder p bytes).length = bytes.length := by
  unfold reorder
  split
  · exact Element.length_reverseBytes whole
  · rfl

theorem reorder_reorder {bytes : Bytes} (whole : p.size.toNat ∣ bytes.length) :
    reorder p (reorder p bytes) = bytes := by
  unfold reorder
  split
  · exact Element.reverseBytes_reverseBytes whole
  · rfl

theorem length_elements {bytes : Bytes} (whole : p.size.toNat ∣ bytes.length) :
    (elements p bytes).length = bytes.length / p.size.toNat := by
  rw [elements, List.length_map, chunksExact, length_takeChunks, length_reorder whole]

theorem elements_lt {bytes : Bytes} : ∀ v ∈ elements p bytes, v < 2 ^ p.bits := by
  intro v mem
  obtain ⟨r, run, rfl⟩ := List.mem_map.1 mem
  have small := LittleEndian.decode_lt r
  rwa [length_of_mem_chunksExact r run, pow_size] at small

theorem length_ofElements (values : List Nat) :
    (ofElements p values).length = values.length * p.size.toNat := by
  have length := length_flatMap_of_forall (LittleEndian.length_encode p.size.toNat) values
  rw [ofElements, length_reorder (length ▸ Nat.dvd_mul_left ..), length]

theorem ofElements_elements {bytes : Bytes} (whole : p.size.toNat ∣ bytes.length) :
    ofElements p (elements p bytes) = bytes := by
  have same : (chunksExact p.size.toNat (reorder p bytes)).map
      (LittleEndian.encode p.size.toNat ∘ LittleEndian.decode) =
        chunksExact p.size.toNat (reorder p bytes) := by
    conv_rhs => rw [← List.map_id (chunksExact ..)]
    apply List.map_congr_left
    intro r mem
    rw [Function.comp_apply, ← length_of_mem_chunksExact r mem, LittleEndian.encode_decode, id]
  rw [ofElements, elements, List.flatMap_def, List.map_map, same,
    flatten_chunksExact (by rwa [length_reorder whole]), reorder_reorder whole]

theorem elements_ofElements (values : List Nat) (pos : 0 < p.size.toNat) :
    elements p (ofElements p values) = values.map (· % 2 ^ p.bits) := by
  have uniform := LittleEndian.length_encode p.size.toNat
  have whole : p.size.toNat ∣ (values.flatMap (LittleEndian.encode p.size.toNat)).length :=
    length_flatMap_of_forall uniform values ▸ Nat.dvd_mul_left ..
  rw [elements, ofElements, reorder_reorder whole, List.flatMap_def,
    chunksExact_flatten pos (length_of_mem_map uniform), List.map_map]
  apply List.map_congr_left
  intro v _
  rw [Function.comp_apply, LittleEndian.decode_encode, pow_size]

/-! ## Headers -/

@[simp] theorem length_header (minbits minval : Nat) :
    (header minbits minval).length = headerLength := by
  simp [header, headerLength]

theorem drop_header (minbits minval : Nat) (payload : Bytes) :
    (header minbits minval ++ payload).drop headerLength = payload :=
  List.drop_left' (length_header ..)

theorem decode_take_header {minbits : Nat} (small : minbits < 256 ^ 4) (minval : Nat)
    (payload : Bytes) :
    LittleEndian.decode ((header minbits minval ++ payload).take 4) = minbits := by
  rw [header, List.append_assoc, List.append_assoc, List.append_assoc,
    List.take_left' (LittleEndian.length_encode ..), LittleEndian.decode_encode_of_lt small]

theorem decode_slice_header (minbits minval : Nat) (payload : Bytes) :
    LittleEndian.decode (slice (header minbits minval ++ payload) 5
      (min ((header minbits minval ++ payload).getD 4 0).toNat 8)) = minval % 256 ^ 8 := by
  have front : header minbits minval ++ payload = (LittleEndian.encode 4 minbits ++ [8]) ++
      (LittleEndian.encode 8 minval ++ (List.replicate 8 0 ++ payload)) := by
    simp [header]
  have count : (header minbits minval ++ payload).getD 4 0 = 8 := by
    simp [front, List.getD_eq_getElem?_getD]
  have written : slice (header minbits minval ++ payload) 5 8 = LittleEndian.encode 8 minval := by
    rw [front, slice, List.drop_left' (by simp), List.take_left' (LittleEndian.length_encode ..)]
  rw [count]
  show LittleEndian.decode (slice _ 5 8) = _
  rw [written, LittleEndian.decode_encode]

/-! ## Codes -/

theorem readCodes_pack {width : Nat} {codes : List Nat} (fit : ∀ c ∈ codes, c < 2 ^ width) :
    readCodes width codes.length (Bits.pack (codes.flatMap (Bits.ofNumber width))) = codes := by
  obtain ⟨n, bits⟩ := Bits.unpack_pack (codes.flatMap (Bits.ofNumber width))
  have uniform : ∀ r ∈ codes.map (Bits.ofNumber width), r.length = width :=
    length_of_mem_map (Bits.length_ofNumber width)
  have runs := takeChunks_flatten (List.replicate n false) uniform
  rw [List.length_map] at runs
  rw [readCodes, bits, List.flatMap_def, runs, List.map_map]
  conv_rhs => rw [← List.map_id codes]
  apply List.map_congr_left
  intro c mem
  rw [Function.comp_apply, Bits.toNumber_ofNumber, Nat.mod_eq_of_lt (fit c mem), id]

end ScaleOffset

end ChunkStore
