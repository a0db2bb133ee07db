import ChunkStore.Bytes.Lemmas
import ChunkStore.Filter.Builtin
import ChunkStore.Proofs.Runs

/-!
# Scale-offset parameters as client data

Parameters are written as eight words and a fill value of `fillWords` words, and fill values of
that many bytes survive: `ofClientData_toClientData` reads back what was written. A fill value that
was parsed has the element size, whatever words it came from (`length_fill_of_ofClientData`), so
parsed parameters survive too, and a filter that is described by them anew does what it did before
(`parameters_survive`).
-/

namespace ChunkStore

/-- The filter with other client data. -/
def FilterContext.withClientData (ctx : FilterContext) (words : List UInt32) : FilterContext :=
  { ctx with entry := { ctx.entry with clientData := words } }

/-- The scale-offset filter knows its client data only as the parameters that they are read as. -/
theorem Codec.scaleOffset_congr {words words' : List UInt32}
    (same : ScaleOffset.Parameters.ofClientData words =
      ScaleOffset.Parameters.ofClientData words') (ctx : FilterContext) (data : Bytes) :
    Codec.scaleOffset.decode (ctx.withClientData words) data =
        Codec.scaleOffset.decode (ctx.withClientData words') data ∧
      Codec.scaleOffset.encode (ctx.withClientData words) data =
        Codec.scaleOffset.encode (ctx.withClientData words') data := by
  constructor
  · show Codec.unpack _ data = Codec.unpack _ data
    rw [Codec.unpack, Codec.unpack]
    exact congrArg (· >>= _) same
  · exact congrArg (· >>= _) same

namespace ScaleOffset.Parameters

@[simp] theorem length_resize (bytes : Bytes) (size : Nat) : (resize bytes size).length = size := by
  simp [resize]

/-- Filling up with zeros and cutting again changes nothing. -/
theorem resize_resize {bytes : Bytes} {room : Nat} (fits : bytes.length ≤ room) :
    resize (resize bytes room) bytes.length = bytes := by
  simp [resize, List.take_of_length_le fits]

/-- The word that four bytes are read as has these bytes. -/
theorem encode_ofNat_decode {chunk : Bytes} (length : chunk.length = 4) :
    LittleEndian.encode 4 (UInt32.ofNat (LittleEndian.decode chunk)).toNat = chunk := by
  have small : LittleEndian.decode chunk < UInt32.size := by
    have below := LittleEndian.decode_lt chunk
    rwa [length] at below
  rw [UInt32.toNat_ofNat_of_lt' small, ← length, LittleEndian.encode_decode]

/-- The words of a fill value hold its bytes, and then zeros. -/
theorem flatMap_encode_wordsOfFill (fill : Bytes) :
    (wordsOfFill (some fill)).flatMap (fun w => LittleEndian.encode 4 w.toNat) =
      resize fill (4 * fillWords) := by
  have whole : (resize fill (4 * fillWords)).length = fillWords * 4 := length_resize ..
  have each : ∀ chunk ∈ takeChunks 4 fillWords (resize fill (4 * fillWords)),
      LittleEndian.encode 4 (UInt32.ofNat (LittleEndian.decode chunk)).toNat = chunk := by
    intro chunk mem
    exact encode_ofNat_decode (length_of_mem_takeChunks (Nat.le_of_eq whole.symm) chunk mem)
  rw [wordsOfFill, Option.getD_some, List.flatMap_map, List.flatMap_def, List.map_congr_left each,
    List.map_id', flatten_takeChunks whole]

theorem classOfCode?_codeOfClass (numberClass : NumberClass) :
    classOfCode? (codeOfClass numberClass) = some numberClass := by
  cases numberClass <;> rfl

theorem length_toClientData (p : Parameters) :
    p.toClientData.length = headWords + fillWords := by
  rw [toClientData, List.length_append, wordsOfFill, List.length_map, length_takeChunks]
  rfl

/-- What is written reads back, when the fill value has the element size and its words hold it. -/
theorem ofClientData_toClientData {p : Parameters} (small : p.size.toNat ≤ 4 * fillWords)
    (whole : ∀ fill, p.fill = some fill → fill.length = p.size.toNat) :
    ofClientData p.toClientData = .ok p := by
  obtain ⟨scaleType, scaleFactor, elementCount, numberClass, size, signed, bigEndian, fill⟩ := p
  have kept : (if fill.isSome.toUInt32 = 1 then
      some (resize ((wordsOfFill fill).flatMap fun w => LittleEndian.encode 4 w.toNat) size.toNat)
      else none) = fill := by
    cases fill with
    | none => rfl
    | some fill =>
      have length : fill.length = size.toNat := whole fill rfl
      rw [if_pos (by rfl), flatMap_encode_wordsOfFill, ← length, resize_resize (length ▸ small)]
  have sign : (signed.toUInt32 == 1) = signed := by cases signed <;> rfl
  have order : (bigEndian.toUInt32 == 1) = bigEndian := by cases bigEndian <;> rfl
  simp only [toClientData, List.cons_append, List.nil_append, ofClientData,
    classOfCode?_codeOfClass, kept, sign, order, Int32.toInt32_toUInt32]

/-- A fill value that was parsed has the element size. -/
theorem length_fill_of_ofClientData {words : List UInt32} {p : Parameters}
    (parsed : ofClientData words = .ok p) {fill : Bytes} (filled : p.fill = some fill) :
    fill.length = p.size.toNat := by
  unfold ofClientData at parsed
  split at parsed
  · split at parsed
    · cases parsed
    · cases parsed
      dsimp only at filled
      split at filled
      · cases filled
        exact length_resize ..
      · cases filled
  · cases parsed

/-- Parameters with elements of at most 48 bytes, and a fill value of the element size if there is
one, read back from the 20 words that they are written as, and these are written again. So do
parameters that were parsed from any words, and with the words that they are written as the filter
decodes and encodes every chunk as it does with the words that they were parsed from. -/
theorem parameters_survive :
    (∀ p : Parameters, p.size.toNat ≤ 48 →
      (∀ fill, p.fill = some fill → fill.length = p.size.toNat) →
        ofClientData p.toClientData = .ok p ∧ p.toClientData.length = 20 ∧
          (ofClientData p.toClientData).map toClientData = .ok p.toClientData) ∧
    ∀ (words : List UInt32) (p : Parameters), ofClientData words = .ok p → p.size.toNat ≤ 48 →
      ofClientData p.toClientData = ofClientData words ∧
        ∀ (ctx : FilterContext) (data : Bytes),
          Codec.scaleOffset.decode (ctx.withClientData p.toClientData) data =
              Codec.scaleOffset.decode (ctx.withClientData words) data ∧
            Codec.scaleOffset.encode (ctx.withClientData p.toClientData) data =
              Codec.scaleOffset.encode (ctx.withClientData words) data := by
  refine ⟨fun p small whole => ?_, fun words p parsed small => ?_⟩
  · have again := ofClientData_toClientData small whole
    exact ⟨again, length_toClientData p, by rw [again]; rfl⟩
  · have again := ofClientData_toClientData small fun fill => length_fill_of_ofClientData parsed
    have same : ofClientData p.toClientData = ofClientData words := again.trans parsed.symm
    exact ⟨same, fun ctx data => Codec.scaleOffset_congr same ctx data⟩

/-- Words with a fill value of more bytes than an element has, and a sign flag of 2, which is no
sign: the words that are written differ, and mean the same. -/
theorem parameters_survive_surplus_words :
    ∃ p : Parameters, p.fill = some [1, 2, 3, 4, 5, 6] ∧ p.scaleFactor = -1 ∧ p.signed = false ∧
      p.size.toNat ≤ 48 ∧
      ofClientData [2, 4294967295, 5, 0, 6, 2, 1, 1, 67305985, 134678021, 9] = .ok p ∧
      p.toClientData ≠ [2, 4294967295, 5, 0, 6, 2, 1, 1, 67305985, 134678021, 9] ∧
      ofClientData p.toClientData =
        ofClientData [2, 4294967295, 5, 0, 6, 2, 1, 1, 67305985, 134678021, 9] ∧
      (ofClientData p.toClientData).map toClientData = .ok p.toClientData := by
  have parsed : ofClientData [2, 4294967295, 5, 0, 6, 2, 1, 1, 67305985, 134678021, 9] =
      .ok ⟨2, -1, 5, .integer, 6, false, true, some [1, 2, 3, 4, 5, 6]⟩ := by decide
  obtain ⟨-, -, again⟩ := parameters_survive.1
    ⟨2, -1, 5, .integer, 6, false, true, some [1, 2, 3, 4, 5, 6]⟩ (by decide)
    (fun fill filled => by cases filled; decide)
  exact ⟨_, rfl, rfl, rfl, by decide, parsed, by decide,
    (parameters_survive.2 _ _ parsed (by decide)).1, again⟩

end ScaleOffset.Parameters

end ChunkStore
