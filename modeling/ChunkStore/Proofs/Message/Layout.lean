import ChunkStore.Layout
import ChunkStore.Proofs.ByteWidths
import ChunkStore.Proofs.Parser
import ChunkStore.Proofs.Runs

/-!
# The data layout message read back

Encoding and parsing of chunked layouts are inverse (`ChunkedLayout.parse_encode`), up to the
version and the flags, which an encoded layout has in one form only (`ChunkedLayout.normalized`).
What a message must hold for it is said by `ChunkedLayout.Representable`; each part of a message is
read as it was written (`reads_encodeThree`, `reads_encodeFour`), and whatever message is parsed, in
any version, gives a layout that can be represented (`representable_of_parse`).
-/

namespace ChunkStore

open ChunkStore.Parser

namespace ChunkedLayout

/-- The fields of a layout fit into their places in the version 4 message. -/
structure Fits (widths : FileWidths) (l : ChunkedLayout) : Prop where
  rank : 1 ≤ l.chunkDims.length ∧ l.chunkDims.length ≤ 254
  dims : ∀ k ∈ l.chunkDims, 0 < k ∧ k ≤ maxWord
  element : 0 < l.elementSize ∧ l.elementSize < UInt32.size
  address : Addressable widths l.address

/-- The fields of a layout fit into their places in the message that is written for it. -/
structure Representable (widths : FileWidths) (l : ChunkedLayout) : Prop extends
    Fits widths l where
  narrow : l.index = .treeOne → ∀ k ∈ l.chunkDims, k < UInt32.size
  stored : ∀ size mask, l.index = .single (some (size, mask)) → size < 256 ^ widths.lengthSize

/-- Whether the layout has one chunk, which is filtered. -/
def hasFilteredChunk (l : ChunkedLayout) : Bool :=
  match l.index with
  | .single (some _) => true
  | _ => false

/-- The layout with the version that is written for it and the flags that this version has. -/
def normalized (l : ChunkedLayout) : ChunkedLayout :=
  { l with
    version := if l.index = .treeOne then 3 else 4
    flags := if l.index = .treeOne then 0
      else (l.flags &&& 1) + if l.hasFilteredChunk then 2 else 0 }

variable {widths : FileWidths} {l : ChunkedLayout}

/-! ## Flags -/

theorem keptFlag_cases (flags : UInt8) : flags &&& 1 = 0 ∨ flags &&& 1 = 1 := by
  have bit : (flags &&& 1).toNat = flags.toNat % 2 := by
    rw [UInt8.toNat_and]
    exact Nat.and_one_is_mod _
  rcases Nat.mod_two_eq_zero_or_one flags.toNat with zero | one
  · exact .inl (UInt8.toNat_inj.1 (bit.trans zero))
  · exact .inr (UInt8.toNat_inj.1 (bit.trans one))

theorem encodedFlags_eq_ite (l : ChunkedLayout) :
    l.encodedFlags = if l.hasFilteredChunk then l.flags &&& 1 ||| 2 else l.flags &&& 1 := by
  unfold encodedFlags hasFilteredChunk
  rcases l.index with _ | (_ | _) | _ | _ | _ | _
  all_goals rfl

/-- The flags that are written keep the flag of partial chunks, and have the one of a filtered only
chunk for such a layout and for no other. -/
theorem encodedFlags_spec (l : ChunkedLayout) :
    l.encodedFlags = (l.flags &&& 1) + (if l.hasFilteredChunk then 2 else 0) ∧
      l.encodedFlags &&& 1 = l.flags &&& 1 ∧
      l.encodedFlags &&& 2 = if l.hasFilteredChunk then 2 else 0 := by
  rw [encodedFlags_eq_ite]
  rcases keptFlag_cases l.flags with kept | kept
  all_goals
    rw [kept]
    split
    · decide
    · decide

theorem flags_normalized (other : l.index ≠ .treeOne) : l.normalized.flags = l.encodedFlags := by
  rw [l.encodedFlags_spec.1]
  exact if_neg other

/-- A layout and the normalized one have one message. -/
theorem encode_normalized (l : ChunkedLayout) (widths : FileWidths) :
    l.normalized.encode widths = l.encode widths := by
  have index : l.normalized.index = l.index := rfl
  by_cases one : l.index = .treeOne
  · simp only [encode, index, one]
    rfl
  · -- Flags are written through `encodedFlags`, which keeps what normalizing left.
    have flags : l.normalized.encodedFlags = l.encodedFlags := by
      rw [encodedFlags_eq_ite, flags_normalized one, l.encodedFlags_spec.2.1]
      exact l.encodedFlags_eq_ite.symm
    have four : l.normalized.encodeFour widths = l.encodeFour widths := by
      simp only [encodeFour, flags]
      rfl
    simp only [encode, index, four]

/-! ## Fields -/

theorem ofDimensions_eq (fits : l.Fits widths) (version flags : UInt8) :
    DataLayout.ofDimensions version flags l.allDims l.index l.address =
      .ok (.chunked { l with version, flags }) := by
  have rank := fits.rank
  have element := fits.element
  have some : 0 ∉ l.chunkDims := fun mem => Nat.lt_irrefl 0 (fits.dims 0 mem).1
  have last : (l.chunkDims ++ [l.elementSize]).getLastD 0 = l.elementSize :=
    List.getLastD_concat ..
  simp only [DataLayout.ofDimensions, allDims, List.dropLast_concat, last, List.length_append,
    List.length_singleton]
  rw [if_neg (by omega), if_neg]
  rintro (zero | wide | zero)
  · omega
  · omega
  · exact some zero

theorem Fits.length_allDims (fits : l.Fits widths) :
    (UInt8.ofNat l.allDims.length).toNat = l.allDims.length := by
  have rank := fits.rank
  have length : l.allDims.length = l.chunkDims.length + 1 := List.length_append
  exact UInt8.toNat_ofNat_of_lt' (by rw [UInt8.size]; omega)

/-- A width for the dimensions can be read, and they fit. -/
theorem Fits.dimensionWidth (fits : l.Fits widths) :
    (1 ≤ l.dimensionWidth ∧ l.dimensionWidth ≤ 8) ∧
      ∀ k ∈ l.allDims, k < 256 ^ l.dimensionWidth := by
  have narrow : l.elementSize ≤ maxWord := by
    have element := fits.element
    have small : UInt32.size ≤ maxWord := by decide
    omega
  have words : ∀ n ∈ l.allDims, n ≤ maxWord := by
    intro n mem
    rcases List.mem_append.1 mem with dim | size
    · exact (fits.dims n dim).2
    · rwa [List.mem_singleton.1 size]
  refine ⟨minByteCount_le (foldl_max_le (Nat.zero_le _) words), fun k mem => ?_⟩
  exact ((le_foldl_max l.allDims 0).2 k mem).trans_lt (lt_pow_minByteCount _)

theorem reads_dimensions {dims : List Nat} {width : Nat} (narrow : width ≤ 8)
    (fits : ∀ k ∈ dims, k < 256 ^ width) (n : Nat) :
    Reads (DataLayout.dimensions dims.length width) n
      (dims.flatMap (LittleEndian.encode width)) dims := by
  have read : Reads (DataLayout.dimensions dims.length width) n
      (dims.flatMap (LittleEndian.encode width)) (dims.map id) :=
    .times fun n k mem => .uint_encode narrow (fits k mem)
  rwa [List.map_id] at read

/-- The parameters of an index are read with the flags that were written before them. -/
theorem reads_indexParameters (fits : l.Representable widths) (other : l.index ≠ .treeOne)
    (n : Nat) : Reads (DataLayout.indexParameters l.encodedFlags widths) n
      ([UInt8.ofNat (l.index.typeCode.getD 0)] ++ encodeParameters widths l.index) l.index := by
  have bit := l.encodedFlags_spec.2.2
  have stored := fits.stored
  unfold hasFilteredChunk at bit
  cases index : l.index with
  | treeOne => exact absurd index other
  | single filtered =>
    -- Whether a size and a mask follow is known from the flags alone.
    rw [index] at bit stored
    cases filtered with
    | none => exact .bind_last (.uint_one 1) (.ite_pos bit (.pure _))
    | some p =>
      obtain ⟨size, mask⟩ := p
      have set : (2 : UInt8) ≠ 0 := by decide
      refine .bind (.uint_one 1) (.ite_neg (fun clear => set (bit.symm.trans clear)) ?_)
      exact .bind (.length (stored size mask rfl)) (.bind_pure _ (.word32 mask))
  | implicit => exact .bind_last (.uint_one 2) (.pure _)
  | fixedArray pageBits => exact .bind (.uint_one 3) (.bind_pure _ (.byte pageBits))
  | extensibleArray maxBits indexElements minPointers minElements pageBits =>
    have bytes : [maxBits, indexElements, minPointers, minElements, pageBits] =
        [maxBits] ++ ([indexElements] ++ ([minPointers] ++ ([minElements] ++ [pageBits]))) := rfl
    rw [encodeParameters, bytes]
    exact .bind (.uint_one 4) (.bind (.byte maxBits) (.bind (.byte indexElements)
      (.bind (.byte minPointers) (.bind (.byte minElements) (.bind_pure _ (.byte pageBits))))))
  | treeTwo nodeSize splitPercent mergePercent =>
    exact .bind (.uint_one 5) (.bind (.word32 nodeSize) (.bind (.byte splitPercent)
      (.bind_pure _ (.byte mergePercent))))

/-! ## Messages -/

/-- A version 4 message is read as it was written. -/
theorem reads_encodeFour (fits : l.Representable widths) (other : l.index ≠ .treeOne) :
    Reads (DataLayout.parser widths) 0 (l.encodeFour widths) (.chunked l.normalized) := by
  obtain ⟨width, dims⟩ := fits.dimensionWidth
  have bytes : (UInt8.ofNat l.dimensionWidth).toNat = l.dimensionWidth :=
    UInt8.toNat_ofNat_of_lt' (by rw [UInt8.size]; omega)
  have parts : l.encodeFour widths = [4] ++ ([2] ++ ([l.encodedFlags] ++
      ([UInt8.ofNat l.allDims.length] ++ ([UInt8.ofNat l.dimensionWidth] ++
        (l.allDims.flatMap (LittleEndian.encode l.dimensionWidth) ++
          (([UInt8.ofNat (l.index.typeCode.getD 0)] ++ encodeParameters widths l.index) ++
            LittleEndian.encode widths.offsetSize l.address)))))) := by
    simp only [encodeFour, List.append_assoc, List.cons_append, List.nil_append]
  have whole := ofDimensions_eq fits.toFits 4 l.encodedFlags
  have normalized : l.normalized = { l with version := 4, flags := l.encodedFlags } := by
    rw [← flags_normalized other, normalized, if_neg other]
  rw [parts, normalized]
  refine .bind (.byte 4) (.ite_neg (by decide) (.ite_pos (by decide) ?_))
  refine .bind (.uint_one 2) (.bind (.byte _) (.bind (.uint_one _) (.bind (.uint_one _) ?_)))
  rw [fits.length_allDims, bytes]
  refine .ite_neg (by omega) (.bind (reads_dimensions width.2 dims _) ?_)
  refine .bind (reads_indexParameters fits other _) ?_
  exact .bind_last (.address fits.address) (.lift whole)

/-- A version 3 message is read as it was written. -/
theorem reads_encodeThree (fits : l.Representable widths) (one : l.index = .treeOne) :
    Reads (DataLayout.parser widths) 0 (l.encodeThree widths) (.chunked l.normalized) := by
  have dims : ∀ k ∈ l.allDims, k < 256 ^ 4 := by
    intro k mem
    rcases List.mem_append.1 mem with dim | size
    · exact fits.narrow one k dim
    · rw [List.mem_singleton.1 size]
      exact fits.element.2
  have parts : l.encodeThree widths = [3] ++ ([2] ++ ([UInt8.ofNat l.allDims.length] ++
      (LittleEndian.encode widths.offsetSize l.address ++
        l.allDims.flatMap (LittleEndian.encode 4)))) := by
    simp only [encodeThree, List.cons_append, List.nil_append]
  have whole := ofDimensions_eq fits.toFits 3 0
  have normalized : l.normalized = { l with version := 3, flags := 0 } := by
    rw [normalized, if_pos one, if_pos one]
  rw [parts, normalized]
  refine .bind (.byte 3) (.ite_neg (by decide) (.ite_pos (by decide) ?_))
  refine .bind (.uint_one 2) (.ite_pos rfl (.bind (.uint_one _) (.bind (.address fits.address) ?_)))
  rw [fits.length_allDims]
  refine .bind_last (reads_dimensions (by decide) dims _) (.lift ?_)
  rw [← one]
  exact whole

/-- A layout that can be represented is read from its message, to the last byte of it. -/
theorem reads_encode (fits : l.Representable widths) :
    Reads (DataLayout.parser widths) 0 (l.encode widths) (.chunked l.normalized) := by
  by_cases one : l.index = .treeOne
  · have message : l.encode widths = l.encodeThree widths := by
      rw [encode, one]
    rw [message]
    exact reads_encodeThree fits one
  · have message : l.encode widths = l.encodeFour widths := by
      unfold encode
      split
      next same => exact absurd same one
      next => rfl
    rw [message]
    exact reads_encodeFour fits one

/-- A layout that can be represented is read from its message, whatever follows. -/
theorem parse_encode_append (fits : l.Representable widths) (rest : Bytes) :
    DataLayout.parse (l.encode widths ++ rest) widths = .ok (.chunked l.normalized) :=
  (reads_encode fits).parse rest

/-- The message of a fixed array is read as it was written. -/
theorem parse_encodeFour {pageBits : UInt8} (fits : l.Fits widths) (version : l.version = 4)
    (flags : l.flags &&& 1 = l.flags) (index : l.index = .fixedArray pageBits) :
    DataLayout.parse (l.encodeFour widths) widths = .ok (.chunked l) := by
  have other : l.index ≠ .treeOne := by
    rw [index]
    exact nofun
  have representable : l.Representable widths :=
    ⟨fits, fun one => absurd one other, fun _ _ single => by cases index.symm.trans single⟩
  have read := (reads_encodeFour representable other).parse []
  have same : l.normalized = l := by
    have written : l.encodedFlags = l.flags := by
      rw [encodedFlags, index]
      exact flags
    rw [normalized, if_neg other, if_neg other, ← l.encodedFlags_spec.1, written, ← version]
  rwa [List.append_nil, same] at read

/-! ## Whatever is parsed -/

/-- Dimensions that were accepted make a layout that can be represented. -/
theorem representable_of_ofDimensions {version flags : UInt8} {dims : List Nat}
    {index : IndexParameters} {address : Nat}
    (made : DataLayout.ofDimensions version flags dims index address = .ok (.chunked l))
    (count : dims.length < 256) (words : ∀ k ∈ dims, k ≤ maxWord)
    (addressable : Addressable widths address)
    (narrow : index = .treeOne → ∀ k ∈ dims, k < UInt32.size)
    (stored : ∀ size mask, index = .single (some (size, mask)) → size < 256 ^ widths.lengthSize) :
    l.Representable widths := by
  unfold DataLayout.ofDimensions at made
  dsimp only at made
  split at made
  · cases made
  next some =>
    split at made
    · cases made
    next proper =>
      cases made
      have part : ∀ k ∈ dims.dropLast, k ∈ dims := fun k mem => List.dropLast_subset dims mem
      have rank : 1 ≤ dims.dropLast.length ∧ dims.dropLast.length ≤ 254 := by
        rw [List.length_dropLast]
        omega
      have element : 0 < dims.getLastD 0 ∧ dims.getLastD 0 < UInt32.size := by omega
      have pos : ∀ k ∈ dims.dropLast, 0 < k := fun k mem =>
        Nat.pos_of_ne_zero fun zero => proper (.inr (.inr (zero ▸ mem)))
      exact ⟨⟨rank, fun k mem => ⟨pos k mem, words k (part k mem)⟩, element, addressable⟩,
        fun one k mem => narrow one k (part k mem), stored⟩

/-- What a parsed message describes can be represented, if it is chunks. -/
def Sane (widths : FileWidths) (d : DataLayout) : Prop :=
  ∀ l, d = .chunked l → l.Representable widths

theorem ensures_dimensions (count width : Nat) :
    Ensures (DataLayout.dimensions count width) fun dims =>
      dims.length = count ∧ ∀ k ∈ dims, k < 256 ^ width := .times (.uint width) count

theorem ensures_indexParameters (flags : UInt8) (widths : FileWidths) :
    Ensures (DataLayout.indexParameters flags widths) fun index => index ≠ .treeOne ∧
      ∀ size mask, index = .single (some (size, mask)) → size < 256 ^ widths.lengthSize := by
  refine .bind_any fun type => ?_
  split
  · split
    · exact .pure ⟨nofun, nofun⟩
    · refine (Ensures.uint _).bind fun size fits => .bind_any fun mask => .pure ⟨nofun, ?_⟩
      rintro _ _ same
      cases same
      exact fits
  · exact .pure ⟨nofun, nofun⟩
  · exact .bind_any fun _ => .pure ⟨nofun, nofun⟩
  · exact .bind_any fun _ => .bind_any fun _ => .bind_any fun _ => .bind_any fun _ =>
      .bind_any fun _ => .pure ⟨nofun, nofun⟩
  · exact .bind_any fun _ => .bind_any fun _ => .bind_any fun _ => .pure ⟨nofun, nofun⟩
  · exact .throw _ _

/-- Dimensions of four bytes each make a version 1 B-tree's layout. -/
theorem ensures_narrow (version : UInt8) {rank : Nat} (few : rank < 256) {address : Nat}
    (addressable : Addressable widths address) :
    Ensures (do DataLayout.ofDimensions version 0 (← DataLayout.dimensions rank 4) .treeOne address)
      (Sane widths) := by
  refine (ensures_dimensions rank 4).bind fun dims ⟨count, narrow⟩ => .lift ?_
  rintro _ made l rfl
  have words : ∀ k ∈ dims, k ≤ maxWord := fun k mem =>
    ((narrow k mem).trans_le (by decide : 256 ^ 4 ≤ maxWord)).le
  exact representable_of_ofDimensions made (by omega) words addressable (fun _ => narrow) nofun

theorem ensures_parserOne (version : UInt8) (widths : FileWidths) :
    Ensures (DataLayout.parserOne version widths) (Sane widths) := by
  refine (Ensures.uint 1).bind fun rank few => .bind_any fun code => .bind_any fun _ => ?_
  split
  · exact .bind_any fun _ => .bind_any fun _ => .bind_any fun _ => .pure nofun
  · exact .bind_any fun _ => .bind_any fun _ => .pure nofun
  · exact (Ensures.address widths).bind fun _ addressable => ensures_narrow version few addressable
  · exact .throw _ _

theorem ensures_parserThree (widths : FileWidths) :
    Ensures (DataLayout.parserThree widths) (Sane widths) :=
  (Ensures.uint 1).bind fun _ few => (Ensures.address widths).bind fun _ addressable =>
    ensures_narrow 3 few addressable

theorem ensures_parserFour (widths : FileWidths) :
    Ensures (DataLayout.parserFour widths) (Sane widths) := by
  refine .bind_any fun flags => (Ensures.uint 1).bind fun rank few => .bind_any fun width => ?_
  refine .guard fun proper => (ensures_dimensions rank width).bind fun dims ⟨count, fits⟩ => ?_
  refine (ensures_indexParameters flags widths).bind fun index ⟨other, stored⟩ => ?_
  refine (Ensures.address widths).bind fun address addressable => .lift ?_
  rintro _ made l rfl
  have wide : 256 ^ width ≤ maxWord + 1 := Nat.pow_le_pow_right (show 0 < 256 by decide)
    (show width ≤ 8 by omega)
  refine representable_of_ofDimensions made (by omega) (fun k mem => ?_) addressable
    (fun one => absurd one other) stored
  exact Nat.le_of_lt_succ ((fits k mem).trans_le wide)

theorem ensures_whole (widths : FileWidths) : Ensures (DataLayout.parser widths) (Sane widths) := by
  refine .bind_any fun version => ?_
  split
  · exact ensures_parserOne version widths
  split
  · refine .bind_any fun code => ?_
    split
    · exact .bind_any fun _ => .bind_any fun _ => .pure nofun
    · exact .bind_any fun _ => .bind_any fun _ => .pure nofun
    · split
      · exact ensures_parserThree widths
      · exact ensures_parserFour widths
    · split
      · exact .pure nofun
      · exact .throw _ _
  · exact .throw _ _

/-- The chunks that any message describes, in any version, can be represented. -/
theorem representable_of_parse {message : Bytes}
    (parsed : DataLayout.parse message widths = .ok (.chunked l)) : l.Representable widths :=
  (ensures_whole widths).parse parsed l rfl

/-- Encoding and parsing are inverse up to the version and the flags. A layout whose fields fit is
read from its message with the version that the message is written in, with the flag of partial
chunks, and with the flag of a filtered only chunk exactly for such a layout; the version 1 B-tree
has no flags. A layout that was parsed from any message is such a layout, and what is read from its
message has the same message again. -/
theorem parse_encode (widths : FileWidths) :
    (∀ l : ChunkedLayout, l.Representable widths →
      DataLayout.parse (l.encode widths) widths = .ok (.chunked l.normalized)) ∧
    ∀ (message : Bytes) (l : ChunkedLayout),
      DataLayout.parse message widths = .ok (.chunked l) →
        DataLayout.parse (l.encode widths) widths = .ok (.chunked l.normalized) ∧
        l.normalized.encode widths = l.encode widths := by
  have written : ∀ l : ChunkedLayout, l.Representable widths →
      DataLayout.parse (l.encode widths) widths = .ok (.chunked l.normalized) := by
    intro l fits
    have read := parse_encode_append fits []
    rwa [List.append_nil] at read
  refine ⟨written, fun message l parsed => ⟨written l (representable_of_parse parsed), ?_⟩⟩
  exact l.encode_normalized widths

/-- A filtered only chunk at an address that was never given, with flags that no version has, and a
version 1 message of a B-tree, which is written in version 3. -/
theorem parse_encode_of_filtered_chunk :
    DataLayout.parse
        (encode ⟨2, 252, [3, 300], 2, .single (some (70, 5)), undefinedAddress⟩ ⟨.two, .four⟩)
        ⟨.two, .four⟩ =
      .ok (.chunked ⟨4, 2, [3, 300], 2, .single (some (70, 5)), undefinedAddress⟩) ∧
    DataLayout.parse [1, 2, 2, 0, 0, 0, 0, 0, 7, 0, 3, 0, 0, 0, 2, 0, 0, 0] ⟨.two, .four⟩ =
      .ok (.chunked ⟨1, 0, [3], 2, .treeOne, 7⟩) ∧
    DataLayout.parse (encode ⟨1, 0, [3], 2, .treeOne, 7⟩ ⟨.two, .four⟩) ⟨.two, .four⟩ =
      .ok (.chunked ⟨3, 0, [3], 2, .treeOne, 7⟩) ∧
    encode ⟨3, 0, [3], 2, .treeOne, 7⟩ ⟨.two, .four⟩ =
      encode ⟨1, 0, [3], 2, .treeOne, 7⟩ ⟨.two, .four⟩ := by
  obtain ⟨written, reparsed⟩ := parse_encode ⟨.two, .four⟩
  have fits : Representable ⟨.two, .four⟩
      ⟨2, 252, [3, 300], 2, .single (some (70, 5)), undefinedAddress⟩ := by
    refine ⟨⟨by decide, by decide, by decide, by decide⟩, nofun, ?_⟩
    rintro _ _ same
    cases same
    decide
  have parsed : DataLayout.parse [1, 2, 2, 0, 0, 0, 0, 0, 7, 0, 3, 0, 0, 0, 2, 0, 0, 0]
      ⟨.two, .four⟩ = .ok (.chunked ⟨1, 0, [3], 2, .treeOne, 7⟩) := by
    decide +kernel
  exact ⟨written _ fits, parsed, reparsed _ _ parsed⟩

end ChunkedLayout

end ChunkStore
