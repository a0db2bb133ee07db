import ChunkStore.Proofs.Results
import ChunkStore.Proofs.ScaleOffset.BitReading

/-!
# Packed chunks by their layout

A packed chunk says how wide its codes are (`widthOf`) and what is added to them (`minvalOf`), and
unpacking makes sure that the payload is long enough for them (`bytesUsed`) before it reads any. So
it reads the codes that the payload has, and no byte behind the payload (`decode_eq`). What every
byte string is unpacked to, or that it is refused, follows from its layout (`decode_by_layout`).
-/

namespace ChunkStore.ScaleOffset

variable {p : Parameters} {stored : Bytes}

/-! ## The parts of a packed chunk -/

/-- Bits per code of a packed chunk. -/
def widthOf (stored : Bytes) : Nat := LittleEndian.decode (stored.take 4)

/-- The codes of a packed chunk. -/
def storedCodes (p : Parameters) (stored : Bytes) : List Nat :=
  readCodes (widthOf stored) p.elementCount.toNat (stored.drop headerLength)

/-- The least value of a packed chunk. -/
def minvalOf (stored : Bytes) : Nat :=
  LittleEndian.decode (slice stored 5 (min (stored.getD 4 0).toNat 8))

/-- Bytes that a packed chunk with codes of the given width has after its header. -/
def bytesUsed (p : Parameters) (width : Nat) : Nat :=
  if width = p.bits then p.elementCount.toNat * p.size.toNat
  else (p.elementCount.toNat * width + 7) / 8

/-- The elements that a packed chunk holds, the least significant byte of each first. -/
def plain (p : Parameters) (stored : Bytes) : Bytes :=
  if widthOf stored = p.bits then
    (stored.drop headerLength).take (bytesUsed p (widthOf stored))
  else ((storedCodes p stored).map (valueOfCode p (widthOf stored) (minvalOf stored))).flatMap
    (LittleEndian.encode p.size.toNat)

/-- A packed chunk is refused when its parameters are not served, it has no header, its codes are
wider than an element or it is too short for them; otherwise it is unpacked. -/
theorem decode_eq (stored : Bytes) (p : Parameters) :
    decode stored p = p.validate >>= fun _ =>
      if stored.length < headerLength then .error (.unexpectedEnd headerLength stored.length)
      else if p.bits < widthOf stored then
        .error (.corrupt .scaleOffsetChunk (.packedWidth (widthOf stored) p.bits))
      else if (stored.drop headerLength).length < bytesUsed p (widthOf stored) then
        .error (.unexpectedEnd (headerLength + bytesUsed p (widthOf stored)) stored.length)
      else .ok (reorder p (plain p stored)) := by
  unfold decode
  cases valid : p.validate with
  | error e => rfl
  | ok _ =>
    have bits := bits_le valid
    have some := size_pos valid
    show (if stored.length < headerLength then _ else _) =
      if stored.length < headerLength then _ else _
    refine guard_congr fun _ => ?_
    dsimp only
    refine guard_congr fun narrow => ?_
    refine guard_congr fun enough => ?_
    have word : widthOf stored ≤ 64 := (Nat.le_of_not_lt narrow).trans bits
    have enough : bytesUsed p (widthOf stored) ≤ (stored.drop headerLength).length :=
      Nat.le_of_not_lt enough
    rw [plain]
    show (if widthOf stored = p.bits then _ else _) = _
    by_cases whole : widthOf stored = p.bits
    · have used : bytesUsed p (widthOf stored) = p.elementCount.toNat * p.size.toNat := if_pos whole
      rw [if_pos whole, if_pos whole]
      refine convert_eq some ?_
      show p.size.toNat ∣
        ((stored.drop headerLength).take (bytesUsed p (widthOf stored))).length
      rw [List.length_take_of_le enough, used]
      exact Nat.dvd_mul_left ..
    · rw [if_neg whole, if_neg whole]
      rw [bytesUsed, if_neg whole] at enough
      have inside : 0 + p.elementCount.toNat * widthOf stored ≤
          8 * (stored.drop headerLength).length := by omega
      have codes := unpackCodes_eq inside word
      show (unpackCodes (stored.drop headerLength).toArray (widthOf stored) p.elementCount.toNat 0
        >>= fun codes => _) = _
      rw [codes, List.flatMap_map]
      refine convert_eq some ?_
      rw [length_flatMap_of_forall fun code => LittleEndian.length_encode ..]
      exact Nat.dvd_mul_left ..

/-! ## What is refused -/

/-- The class has elements of the size, and floats are not scaled by exponent. -/
def Parameters.Served (p : Parameters) : Prop :=
  match p.numberClass with
  | .integer => p.size.toNat ∈ [1, 2, 4, 8]
  | .float => p.size.toNat ∈ [4, 8] ∧ p.scaleType ≠ 1

theorem Parameters.validate_eq_ok_iff (p : Parameters) : p.validate = .ok () ↔ p.Served := by
  unfold validate Served
  cases p.numberClass with
  | integer =>
    rw [if_neg nofun]
    dsimp only
    split
    · next served => exact iff_of_true rfl served
    · next other => exact iff_of_false nofun other
  | float =>
    dsimp only
    split
    · next exponent => exact iff_of_false nofun fun served => served.2 exponent.2
    · next digits =>
        split
        · next served => exact iff_of_true rfl ⟨served, fun one => digits ⟨rfl, one⟩⟩
        · next other => exact iff_of_false nofun fun served => other served.1

/-- A byte string that the parameters and its header allow to unpack. -/
structure Unpacks (p : Parameters) (stored : Bytes) : Prop where
  served : p.Served
  header : headerLength ≤ stored.length
  width : widthOf stored ≤ p.bits
  payload : bytesUsed p (widthOf stored) ≤ (stored.drop headerLength).length

theorem decode_eq_ok_iff {out : Bytes} :
    decode stored p = .ok out ↔ Unpacks p stored ∧ out = reorder p (plain p stored) := by
  rw [decode_eq, bind_eq_ok_iff]
  constructor
  · rintro ⟨_, valid, done⟩
    split at done
    · cases done
    · next header =>
      split at done
      · cases done
      · next width =>
        split at done
        · cases done
        · next payload =>
          cases done
          exact ⟨⟨p.validate_eq_ok_iff.1 valid, Nat.le_of_not_lt header, Nat.le_of_not_lt width,
            Nat.le_of_not_lt payload⟩, rfl⟩
  · rintro ⟨⟨served, header, width, payload⟩, rfl⟩
    refine ⟨(), p.validate_eq_ok_iff.2 served, ?_⟩
    rw [if_neg (Nat.not_lt.2 header), if_neg (Nat.not_lt.2 width), if_neg (Nat.not_lt.2 payload)]

theorem exists_error_iff : (∃ e, decode stored p = .error e) ↔ ¬ p.Served ∨
    stored.length < headerLength ∨ p.bits < widthOf stored ∨
      (stored.drop headerLength).length < bytesUsed p (widthOf stored) := by
  constructor
  · rintro ⟨e, failed⟩
    by_contra none
    simp only [not_or, not_not, Nat.not_lt] at none
    obtain ⟨served, header, width, payload⟩ := none
    rw [decode_eq_ok_iff.2 ⟨⟨served, header, width, payload⟩, rfl⟩] at failed
    cases failed
  · intro reason
    cases done : decode stored p with
    | error e => exact ⟨e, rfl⟩
    | ok out =>
      obtain ⟨⟨served, header, width, payload⟩, -⟩ := decode_eq_ok_iff.1 done
      rcases reason with other | short | wide | short
      · exact absurd served other
      · omega
      · omega
      · omega

theorem Parameters.validate_ne_outOfRange (p : Parameters) : p.validate ≠ .error .outOfRange := by
  unfold validate
  split
  · exact nofun
  · dsimp only
    split
    all_goals
      split
      · exact nofun
      · exact nofun

/-- No byte behind the payload is read. -/
theorem decode_ne_outOfRange (stored : Bytes) (p : Parameters) :
    decode stored p ≠ .error .outOfRange := by
  rw [decode_eq]
  intro failed
  rcases bind_eq_error_iff.1 failed with invalid | ⟨_, -, failed⟩
  · exact p.validate_ne_outOfRange invalid
  split at failed
  · cases failed
  split at failed
  · cases failed
  split at failed <;> cases failed

/-! ## What is unpacked -/

theorem length_plain (unpacks : Unpacks p stored) :
    (plain p stored).length = p.elementCount.toNat * p.size.toNat := by
  have enough := unpacks.payload
  unfold plain
  split
  · next whole =>
      rw [List.length_take_of_le enough, bytesUsed, if_pos whole]
  · rw [length_flatMap_of_forall fun v => LittleEndian.length_encode .., List.length_map,
      storedCodes, readCodes, List.length_map, length_takeChunks]

/-- The number that the bits of code `i` form, counted from the most significant bit of the first
byte behind the header. -/
def codeAt (stored : Bytes) (i : Nat) : Nat :=
  Bits.toNumber
    (slice (Bits.unpack (stored.drop headerLength)) (i * widthOf stored) (widthOf stored))

/-- The integer with code `i`: the fill value for the code of all one-bits, if there is one, and
otherwise the sum with the least value, in the bits of an element. -/
def integerAt (p : Parameters) (stored : Bytes) (i : Nat) : Nat :=
  match p.fill with
  | some fill =>
    if codeAt stored i = 2 ^ widthOf stored - 1 then LittleEndian.decode (fill.take p.size.toNat)
    else (codeAt stored i + minvalOf stored) % 2 ^ p.bits
  | none => (codeAt stored i + minvalOf stored) % 2 ^ p.bits

theorem getElem?_storedCodes {i : Nat} (inside : i < p.elementCount.toNat) :
    (storedCodes p stored)[i]? = some (codeAt stored i) := by
  rw [storedCodes, readCodes, List.getElem?_map, getElem?_takeChunks, if_pos inside]
  rfl

/-- The bytes of the fill value that an element has make up its element. -/
theorem valueOfCode_mod (served : p.size.toNat ≤ 8) (integers : p.numberClass = .integer)
    (i : Nat) :
    valueOfCode p (widthOf stored) (minvalOf stored) (codeAt stored i) % 2 ^ p.bits =
      integerAt p stored i := by
  have sum : reconstruct p (minvalOf stored) (codeAt stored i) % 2 ^ p.bits =
      (codeAt stored i + minvalOf stored) % 2 ^ p.bits := by
    rw [reconstruct, integers]
    dsimp only
    rw [Nat.one_shiftLeft, Nat.mod_mod]
  unfold valueOfCode integerAt Parameters.fillValue
  cases p.fill with
  | none => exact sum
  | some fill =>
    have front : LittleEndian.decode (fill.take 8) % 2 ^ p.bits =
        LittleEndian.decode (fill.take p.size.toNat) := by
      rw [← pow_size, ← LittleEndian.decode_take, List.take_take, Nat.min_eq_left served]
    rw [Option.map_some, allOnes, Nat.one_shiftLeft]
    dsimp only
    split
    · exact front
    · exact sum

theorem decode_slice_plain (unpacks : Unpacks p stored) (integers : p.numberClass = .integer)
    (narrow : widthOf stored < p.bits) {i : Nat} (inside : i < p.elementCount.toNat) :
    LittleEndian.decode (slice (plain p stored) (i * p.size.toNat) p.size.toNat) =
      integerAt p stored i := by
  have served := size_of_validate (p.validate_eq_ok_iff.2 unpacks.served)
  simp only [List.mem_cons, List.not_mem_nil, or_false] at served
  have here : ((storedCodes p stored).map (valueOfCode p (widthOf stored) (minvalOf stored)))[i]? =
      some (valueOfCode p (widthOf stored) (minvalOf stored) (codeAt stored i)) := by
    rw [List.getElem?_map, getElem?_storedCodes inside, Option.map_some]
  rw [plain, if_neg narrow.ne, slice_flatMap (fun v => LittleEndian.length_encode ..) here,
    LittleEndian.decode_encode, pow_size, valueOfCode_mod (by omega) integers]

/-- A byte string is refused exactly when the parameters are not served, the header is cut off, its
codes are wider than an element or the payload is too short for them, and it is refused before any
byte behind it is read. Otherwise it is unpacked to a whole chunk, and integers that are packed in
fewer bits than they have are what their codes say. -/
theorem decode_by_layout (stored : Bytes) (p : Parameters) :
    ((∃ e, decode stored p = .error e) ↔ ¬ p.Served ∨ stored.length < headerLength ∨
      p.bits < widthOf stored ∨
        (stored.drop headerLength).length < bytesUsed p (widthOf stored)) ∧
    decode stored p ≠ .error .outOfRange ∧
    ∀ out, decode stored p = .ok out → out.length = p.elementCount.toNat * p.size.toNat ∧
      ∃ elements, out = reorder p elements ∧ elements.length = out.length ∧
        (p.numberClass = .integer → widthOf stored < p.bits → ∀ i < p.elementCount.toNat,
          LittleEndian.decode (slice elements (i * p.size.toNat) p.size.toNat) =
            integerAt p stored i) := by
  refine ⟨exists_error_iff, decode_ne_outOfRange stored p, fun out done => ?_⟩
  obtain ⟨unpacks, rfl⟩ := decode_eq_ok_iff.1 done
  have length := length_plain unpacks
  have same : (reorder p (plain p stored)).length = (plain p stored).length :=
    length_reorder (length ▸ Nat.dvd_mul_left ..)
  refine ⟨same.trans length, plain p stored, rfl, same.symm, ?_⟩
  exact fun integers narrow i inside => decode_slice_plain unpacks integers narrow inside

end ChunkStore.ScaleOffset
