import ChunkStore.Proofs.ScaleOffset.BitWriting
import ChunkStore.Proofs.ScaleOffset.Codes
import ChunkStore.Proofs.ScaleOffset.Unpacking

/-!
# Packed chunks unpacked

A chunk of the right length is packed, and what is packed is unpacked to a chunk of the same length,
whatever the operations on floats make of its elements (`exists_keeps`). Integers come back as they
were; the fill value comes back wherever it was, and only there its code is written
(`ScaleOffset.Keeps`). A chunk is packed in one of two ways (`exists_encodeUsing`): as it is, or
as marks, which are the distances of its elements and the code of all one-bits for the fill value.
-/

namespace ChunkStore.ScaleOffset

variable {p : Parameters} {a b : Arithmetic} {input stored : Bytes} {values : List Nat}

/-! ## Packing with any arithmetic -/

/-- The packed form of a chunk. -/
def encodeUsing (a : Arithmetic) (input : Bytes) (p : Parameters) : Except Error Bytes := do
  p.validate
  let size := p.size.toNat
  let count := p.elementCount.toNat
  if input.length ≠ count * size then
    throw (.corrupt .scaleOffsetChunk (.inputLength input.length count size))
  let ordered := reorder p input
  match codesUsing a p ((chunksExact size ordered).map LittleEndian.decode) with
  | none => return header 0 0
  | some c =>
    let width := codeWidth p c.span
    if p.bits ≤ width then return header p.bits 0 ++ ordered
    return header width c.minval ++
      Bits.pack (c.codes.flatMap fun code => Bits.ofNumber width (code.getD (allOnes width)))

/-- The chunk that a packed chunk holds. -/
def decodeUsing (a : Arithmetic) (input : Bytes) (p : Parameters) : Except Error Bytes := do
  p.validate
  if input.length < headerLength then
    throw (.unexpectedEnd headerLength input.length)
  let minbits := LittleEndian.decode (input.take 4)
  let minvalLength := min (input.getD 4 0).toNat 8
  let minval := LittleEndian.decode (slice input 5 minvalLength)
  let size := p.size.toNat
  let count := p.elementCount.toNat
  if p.bits < minbits then
    throw (.corrupt .scaleOffsetChunk (.packedWidth minbits p.bits))
  let payload := input.drop headerLength
  let needed := if minbits = p.bits then count * size else (count * minbits + 7) / 8
  if payload.length < needed then
    throw (.unexpectedEnd (headerLength + needed) input.length)
  if minbits = p.bits then return reorder p (payload.take needed)
  let codes := readCodes minbits count payload
  return reorder p
    (codes.flatMap fun code => LittleEndian.encode size (valueUsing a p minbits minval code))

theorem encodeUsing_real (input : Bytes) (p : Parameters) :
    encodeUsing (.real p) input p = encode input p := by
  unfold encodeUsing encode
  rewrite [codesUsing_real]
  cases valid : p.validate with
  | error e => rfl
  | ok _ =>
    show (if input.length ≠ p.elementCount.toNat * p.size.toNat then _ else _) =
      if input.length ≠ p.elementCount.toNat * p.size.toNat then _ else _
    refine guard_congr fun length => ?_
    have whole : p.size.toNat ∣ input.length := not_not.1 length ▸ Nat.dvd_mul_left ..
    rw [convert_eq (size_pos valid) whole]
    show
        (match codesOf p ((chunksExact p.size.toNat (reorder p input)).map LittleEndian.decode) with
      | none => _
      | some c => _) =
        match codesOf p ((chunksExact p.size.toNat (reorder p input)).map LittleEndian.decode) with
        | none => _
        | some c => _
    cases codesOf p ((chunksExact p.size.toNat (reorder p input)).map LittleEndian.decode) with
    | none => rfl
    | some c =>
      dsimp only
      split
      · rfl
      · have written := BitWriter.toList_foldl_write (header (codeWidth p c.span) c.minval)
          (codeWidth p c.span) (c.codes.map (Option.getD · (allOnes (codeWidth p c.span))))
        rw [List.foldl_map, List.flatMap_map] at written
        exact congrArg Except.ok written.symm

theorem decodeUsing_real (input : Bytes) (p : Parameters) :
    decodeUsing (.real p) input p = decode input p := by
  rw [decode_eq]
  unfold decodeUsing
  rewrite [valueUsing_real]
  cases p.validate with
  | error e => rfl
  | ok _ =>
    show (if input.length < headerLength then _ else _) =
      if input.length < headerLength then _ else _
    refine guard_congr fun _ => ?_
    dsimp only
    refine guard_congr fun _ => ?_
    refine guard_congr fun _ => ?_
    rw [plain]
    show (if widthOf input = p.bits then _ else _) = _
    by_cases whole : widthOf input = p.bits
    · rw [if_pos whole, if_pos whole]
      rfl
    · rw [if_neg whole, if_neg whole, List.flatMap_map]
      rfl

/-! ## Marks -/

/-- What is written for an element: all one-bits for the fill value, and the distance of others. -/
def mark (p : Parameters) (width : Nat) (distance : Nat → Nat) (v : Nat) : Nat :=
  if some v = p.fillValue then allOnes width else distance v

/-- What is written for all the elements. -/
def markAll (p : Parameters) (width : Nat) (distance : Nat → Nat) (values : List Nat) : List Nat :=
  values.map (mark p width distance)

/-- Distances that a width holds, that are not taken for the fill value, and that give integers
again. -/
structure Marks (p : Parameters) (values : List Nat) (width minval : Nat) (distance : Nat → Nat) :
    Prop where
  narrow : width < p.bits
  fits : ∀ v ∈ values, some v ≠ p.fillValue → distance v < 2 ^ width
  apart : p.fillValue.isSome → ∀ v ∈ values, some v ≠ p.fillValue → distance v ≠ allOnes width
  restores : p.numberClass = .integer → ∀ v ∈ values, some v ≠ p.fillValue →
    reconstruct p (minval % 256 ^ 8) (distance v) = v

@[simp] theorem length_markAll (p : Parameters) (width : Nat) (distance : Nat → Nat) :
    (markAll p width distance values).length = values.length := by
  simp [markAll]

theorem allOnes_lt (width : Nat) : allOnes width < 2 ^ width := by
  have pos : 0 < 2 ^ width := Nat.two_pow_pos width
  rw [allOnes, Nat.one_shiftLeft]
  omega

theorem flatMap_codeAll (p : Parameters) (width : Nat) (distance : Nat → Nat) :
    ((codeAll p distance values).flatMap fun code =>
      Bits.ofNumber width (code.getD (allOnes width))) =
        (markAll p width distance values).flatMap (Bits.ofNumber width) := by
  rw [codeAll, markAll, List.flatMap_map, List.flatMap_map]
  apply List.flatMap_congr
  intro v _
  unfold mark
  split <;> rfl

theorem Marks.lt {width minval : Nat} {distance : Nat → Nat}
    (marks : Marks p values width minval distance) :
    ∀ m ∈ markAll p width distance values, m < 2 ^ width := by
  intro m mem
  obtain ⟨v, known, rfl⟩ := List.mem_map.1 mem
  unfold mark
  split
  · exact allOnes_lt width
  next other => exact marks.fits v known other

/-! ## What is packed -/

theorem length_elements_of_valid (valid : p.validate = .ok ())
    (length : input.length = p.elementCount.toNat * p.size.toNat) :
    (elements p input).length = p.elementCount.toNat := by
  rw [length_elements (length ▸ Nat.dvd_mul_left ..), length, Nat.mul_div_cancel _ (size_pos valid)]

theorem encodeUsing_eq (valid : p.validate = .ok ())
    (length : input.length = p.elementCount.toNat * p.size.toNat) :
    encodeUsing a input p = .ok (match codesUsing a p (elements p input) with
      | none => header 0 0
      | some c =>
        if p.bits ≤ codeWidth p c.span then header p.bits 0 ++ reorder p input
        else header (codeWidth p c.span) c.minval ++
          Bits.pack (c.codes.flatMap fun code =>
            Bits.ofNumber (codeWidth p c.span) (code.getD (allOnes (codeWidth p c.span))))) := by
  unfold encodeUsing
  rw [valid]
  show (if input.length ≠ p.elementCount.toNat * p.size.toNat then _ else _) = _
  rw [if_neg (not_not.2 length)]
  show (match codesUsing a p (elements p input) with
    | none => _
    | some c => _) = _
  cases codesUsing a p (elements p input) with
  | none => rfl
  | some c =>
    dsimp only
    split <;> rfl

/-- A chunk is packed as it is or as marks. -/
theorem exists_encodeUsing (valid : p.validate = .ok ())
    (length : input.length = p.elementCount.toNat * p.size.toNat) :
    ∃ stored, encodeUsing a input p = .ok stored ∧
      (stored = header p.bits 0 ++ reorder p input ∨
        ∃ width minval distance, Marks p (elements p input) width minval distance ∧
          stored = header width minval ++
            Bits.pack ((markAll p width distance (elements p input)).flatMap
              (Bits.ofNumber width))) := by
  have bits := bits_le valid
  refine ⟨_, encodeUsing_eq valid length, ?_⟩
  cases coded : codesUsing a p (elements p input) with
  | none =>
    -- Nothing but the fill value takes codes of no bits.
    have filled := codesUsing_eq_none coded
    have pos := size_pos valid
    refine .inr ⟨0, 0, fun _ => 0, ⟨?_, ?_, ?_, ?_⟩, ?_⟩
    · rw [Parameters.bits]
      omega
    · exact fun v mem other => absurd (filled v mem) other
    · exact fun _ v mem other => absurd (filled v mem) other
    · exact fun _ v mem other => absurd (filled v mem) other
    · have noBits : (markAll p 0 (fun _ => 0) (elements p input)).flatMap (Bits.ofNumber 0) = [] :=
        List.flatMap_eq_nil_iff.2 fun _ _ => rfl
      rw [noBits]
      rfl
  | some c =>
    dsimp only
    split
    · exact .inl rfl
    next narrow =>
      obtain ⟨wide, apart⟩ := lt_of_codeWidth_lt (Nat.lt_of_not_le narrow) bits
      obtain ⟨distance, codes, near⟩ := codesUsing_eq_some bits coded
      refine .inr ⟨_, c.minval, distance, ⟨Nat.lt_of_not_le narrow, ?_, ?_, ?_⟩, ?_⟩
      · exact fun v mem other => (near v mem other).1.trans_lt wide
      · exact fun filled v mem other => ((near v mem other).1.trans_lt (apart filled)).ne
      · exact fun integer v mem other => (near v mem other).2 integer (elements_lt v mem)
      · rw [codes, flatMap_codeAll]

/-! ## What is unpacked -/

/-- A header and a payload that is long enough are unpacked. -/
theorem decodeUsing_header (valid : p.validate = .ok ()) {width minval : Nat} {payload : Bytes}
    (narrow : width ≤ p.bits) (enough : (if width = p.bits then
      p.elementCount.toNat * p.size.toNat else (p.elementCount.toNat * width + 7) / 8) ≤
        payload.length) :
    decodeUsing b (header width minval ++ payload) p =
      .ok (if width = p.bits then
        reorder p (payload.take (p.elementCount.toNat * p.size.toNat))
      else ofElements p ((readCodes width p.elementCount.toNat payload).map
        (valueUsing b p width (minval % 256 ^ 8)))) := by
  have bits := bits_le valid
  have small : width < 256 ^ 4 := by omega
  have long : ¬ (header width minval ++ payload).length < headerLength := by
    rw [List.length_append, length_header]
    omega
  unfold decodeUsing
  refine bind_eq_ok_iff.2 ⟨(), valid, guard_eq_ok_iff.2 ⟨long, ?_⟩⟩
  dsimp only
  rw [decode_take_header small, decode_slice_header, drop_header]
  refine guard_eq_ok_iff.2 ⟨Nat.not_lt.2 narrow, guard_eq_ok_iff.2 ⟨Nat.not_lt.2 enough, ?_⟩⟩
  by_cases full : width = p.bits
  · rw [if_pos full, if_pos full, if_pos full]
    rfl
  · rw [if_neg full, if_neg full, ofElements, List.flatMap_map]
    rfl

theorem decodeUsing_plain (valid : p.validate = .ok ())
    (length : input.length = p.elementCount.toNat * p.size.toNat) :
    decodeUsing b (header p.bits 0 ++ reorder p input) p = .ok input := by
  have whole : p.size.toNat ∣ input.length := length ▸ Nat.dvd_mul_left ..
  have same := length_reorder (p := p) whole
  rw [decodeUsing_header valid (Nat.le_refl _) (by rw [if_pos rfl]; omega), if_pos rfl, ← length,
    ← same, List.take_length, reorder_reorder whole]

theorem decodeUsing_marks (valid : p.validate = .ok ()) {width minval : Nat} {codes : List Nat}
    (narrow : width < p.bits) (fit : ∀ c ∈ codes, c < 2 ^ width)
    (length : codes.length = p.elementCount.toNat) :
    decodeUsing b (header width minval ++ Bits.pack (codes.flatMap (Bits.ofNumber width))) p =
      .ok (ofElements p (codes.map (valueUsing b p width (minval % 256 ^ 8)))) := by
  have bits : (codes.flatMap (Bits.ofNumber width)).length = p.elementCount.toNat * width := by
    rw [length_flatMap_of_forall (Bits.length_ofNumber width), length]
  have enough : (if width = p.bits then p.elementCount.toNat * p.size.toNat
      else (p.elementCount.toNat * width + 7) / 8) ≤
        (Bits.pack (codes.flatMap (Bits.ofNumber width))).length := by
    rw [if_neg narrow.ne, Bits.length_pack, bits]
  rw [decodeUsing_header valid narrow.le enough, if_neg narrow.ne, ← length, readCodes_pack fit]

/-! ## What is kept -/

/-- How a chunk, its packed form and what is unpacked of that go together. -/
structure Keeps (p : Parameters) (input stored out : Bytes) : Prop where
  length : out.length = p.elementCount.toNat * p.size.toNat
  integers : p.numberClass = .integer → out = input
  fills : ∀ (i v : Nat), (elements p input)[i]? = some v → some v = p.fillValue →
    (elements p out)[i]? = some v
  /-- The code of all one-bits is written for the fill value and for nothing else. -/
  marks : p.fillValue.isSome → widthOf stored < p.bits →
    ∀ (i v : Nat), (elements p input)[i]? = some v →
      ((storedCodes p stored)[i]? = some (allOnes (widthOf stored)) ↔ some v = p.fillValue)

namespace Marks

variable {width minval : Nat} {distance : Nat → Nat}

/-- The fill value is given again, and so is every integer. -/
theorem valueUsing_eq (marks : Marks p values width minval distance) {v : Nat} (mem : v ∈ values)
    (known : some v = p.fillValue ∨ p.numberClass = .integer) :
    valueUsing b p width (minval % 256 ^ 8) (mark p width distance v) = v := by
  unfold valueUsing mark
  by_cases fill : some v = p.fillValue
  · rw [if_pos fill, ← fill]
    exact if_pos rfl
  · have integer := known.resolve_left fill
    have again := marks.restores integer v mem fill
    rw [if_neg fill, integer]
    cases filled : p.fillValue with
    | none => exact again
    | some other =>
      exact (if_neg (marks.apart (by rw [filled]; rfl) v mem fill)).trans again

/-- Only the fill value has the code of all one-bits. -/
theorem eq_allOnes_iff (marks : Marks p values width minval distance)
    (filled : p.fillValue.isSome) {v : Nat} (mem : v ∈ values) :
    mark p width distance v = allOnes width ↔ some v = p.fillValue := by
  unfold mark
  split
  next fill => exact ⟨fun _ => fill, fun _ => rfl⟩
  next other =>
    have apart := marks.apart filled v mem other
    exact ⟨fun taken => absurd taken apart, fun fill => absurd fill other⟩

theorem keeps (valid : p.validate = .ok ())
    (length : input.length = p.elementCount.toNat * p.size.toNat)
    (marks : Marks p (elements p input) width minval distance) :
    Keeps p input
      (header width minval ++ Bits.pack
        ((markAll p width distance (elements p input)).flatMap (Bits.ofNumber width)))
      (ofElements p ((markAll p width distance (elements p input)).map
        (valueUsing b p width (minval % 256 ^ 8)))) := by
  have pos := size_pos valid
  have bits := bits_le valid
  have whole : p.size.toNat ∣ input.length := length ▸ Nat.dvd_mul_left ..
  have marked : (markAll p width distance (elements p input)).length = p.elementCount.toNat := by
    rw [length_markAll, length_elements_of_valid valid length]
  constructor
  case length => rw [length_ofElements, List.length_map, marked]
  case integers =>
    intro integer
    have same : (markAll p width distance (elements p input)).map
        (valueUsing b p width (minval % 256 ^ 8)) = elements p input := by
      rw [markAll, List.map_map]
      conv_rhs => rw [← List.map_id (elements p input)]
      exact List.map_congr_left fun v mem => marks.valueUsing_eq mem (.inr integer)
    rw [same, ofElements_elements whole]
  case fills =>
    intro i v found fill
    have mem := List.mem_of_getElem? found
    rw [elements_ofElements _ pos, markAll, List.getElem?_map, List.getElem?_map,
      List.getElem?_map, found]
    simp only [Option.map_some]
    rw [marks.valueUsing_eq mem (.inl fill), Nat.mod_eq_of_lt (elements_lt v mem)]
  case marks =>
    intro filled narrow i v found
    have mem := List.mem_of_getElem? found
    have small : width < 256 ^ 4 := by
      have := marks.narrow
      omega
    rw [storedCodes, widthOf, decode_take_header small, drop_header, ← marked,
      readCodes_pack marks.lt, markAll, List.getElem?_map, found, Option.map_some,
      Option.some_inj]
    exact marks.eq_allOnes_iff filled mem

end Marks

theorem keeps_plain (valid : p.validate = .ok ())
    (length : input.length = p.elementCount.toNat * p.size.toNat) (payload : Bytes) :
    Keeps p input (header p.bits 0 ++ payload) input := by
  have bits := bits_le valid
  have width : widthOf (header p.bits 0 ++ payload) = p.bits :=
    decode_take_header (by omega) 0 payload
  constructor
  case length => exact length
  case integers => exact fun _ => rfl
  case fills => exact fun _ _ found _ => found
  case marks =>
    intro _ narrow
    omega

/-- Every chunk of the right length is packed and unpacked, whatever floats are made into. -/
theorem exists_keeps (valid : p.validate = .ok ())
    (length : input.length = p.elementCount.toNat * p.size.toNat) (a b : Arithmetic) :
    ∃ stored out, encodeUsing a input p = .ok stored ∧ decodeUsing b stored p = .ok out ∧
      Keeps p input stored out := by
  obtain ⟨stored, packed, rfl | ⟨width, minval, distance, marks, rfl⟩⟩ :=
    exists_encodeUsing (a := a) valid length
  · exact ⟨_, input, packed, decodeUsing_plain valid length, keeps_plain valid length _⟩
  · have count : (markAll p width distance (elements p input)).length =
        p.elementCount.toNat := by
      rw [length_markAll, length_elements_of_valid valid length]
    exact ⟨_, _, packed, decodeUsing_marks valid marks.narrow marks.lt count,
      marks.keeps valid length⟩

/-! ## The operations on bit patterns -/

theorem encode_eq_ok {p : Parameters} {input stored : Bytes}
    (packed : encode input p = .ok stored) :
    p.validate = .ok () ∧ input.length = p.elementCount.toNat * p.size.toNat := by
  unfold encode at packed
  obtain ⟨_, valid, packed⟩ := bind_eq_ok_iff.1 packed
  obtain ⟨length, -⟩ := guard_eq_ok_iff.1 packed
  exact ⟨valid, not_not.1 length⟩

theorem decode_of_encode {p : Parameters} {input stored : Bytes}
    (integers : p.numberClass = .integer) (packed : encode input p = .ok stored) :
    decode stored p = .ok input := by
  obtain ⟨valid, length⟩ := encode_eq_ok packed
  obtain ⟨stored', out, packed', unpacked, keeps⟩ := exists_keeps valid length (.real p) (.real p)
  rw [encodeUsing_real, packed] at packed'
  cases packed'
  rwa [decodeUsing_real, keeps.integers integers] at unpacked

/-- Packing with the operations on bit patterns is packing with one arithmetic, and with any two a
chunk of the right length is packed by the first and unpacked by the second: integers as they
were, the fill value wherever it was, and its code for nothing else. -/
theorem packed_keeps (valid : p.validate = .ok ())
    (length : input.length = p.elementCount.toNat * p.size.toNat) :
    (∀ chunk, encode chunk p = encodeUsing (.real p) chunk p) ∧
    (∀ chunk, decode chunk p = decodeUsing (.real p) chunk p) ∧
    ∀ a b : Arithmetic, ∃ stored out,
      encodeUsing a input p = .ok stored ∧ decodeUsing b stored p = .ok out ∧
        Keeps p input stored out :=
  ⟨fun chunk => (encodeUsing_real chunk p).symm, fun chunk => (decodeUsing_real chunk p).symm,
    exists_keeps valid length⟩

/-- Four signed elements, the most significant byte first: -300, the fill value, 211 and -300 take
ten bits each. -/
theorem packed_keeps_signed : ∃ (p : Parameters) (input stored : Bytes),
    p.signed ∧ p.bigEndian ∧ p.fillValue = some 32767 ∧
    p.validate = .ok () ∧ input.length = p.elementCount.toNat * p.size.toNat ∧
    encode input p = .ok stored ∧ decode stored p = .ok input ∧
    widthOf stored = 10 ∧ storedCodes p stored = [0, 1023, 511, 0] := by
  let p : Parameters := ⟨2, 0, 4, .integer, 2, true, true, some [0xff, 0x7f]⟩
  let input : Bytes := [0xfe, 0xd4, 0x7f, 0xff, 0x00, 0xd3, 0xfe, 0xd4]
  have valid : p.validate = .ok () := by decide
  obtain ⟨packs, unpacks, kept⟩ := packed_keeps valid (show input.length = _ by decide)
  obtain ⟨stored, out, packed, unpacked, keeps⟩ := kept (.real p) (.real p)
  rw [← packs] at packed
  rw [← unpacks, keeps.integers rfl] at unpacked
  have here : encode input p = .ok (header 10 (toWord (-300)) ++ [0, 63, 247, 252, 0]) := by
    decide +kernel
  rw [here] at packed
  cases packed
  exact ⟨p, input, _, rfl, rfl, rfl, valid, by decide, here, unpacked, by decide +kernel,
    by decide +kernel⟩

end ChunkStore.ScaleOffset
