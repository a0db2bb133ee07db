import ChunkStore.Proofs.Message.Layout
import ChunkStore.Proofs.Message.Pipeline
import ChunkStore.Proofs.Parser.Sequential

/-!
# Messages cut off and messages continued

Both message parsers go through a message in order (`DataLayout.sequential_message`,
`Pipeline.sequential_message`), and what an encoder has written they read to the last byte, padding
included. So bytes after a message never change what is parsed, and a message of an encoder is
refused wherever it is cut off, because it ends (`parse_of_front`).
-/

namespace ChunkStore

open ChunkStore.Parser

/-! ## Data layouts -/

namespace DataLayout

theorem sequential_dimensions (count width : Nat) : Sequential (dimensions count width) :=
  .times (.uint width) count

theorem sequential_parserOne (version : UInt8) (widths : FileWidths) :
    Sequential (parserOne version widths) := by
  refine .bind (.uint 1) fun rank => .bind (.uint 1) fun code => .bind (.skip 5) fun _ => ?_
  split
  · exact .bind (.skip _) fun _ => .bind (.uint 4) fun _ => .bind (.take _) fun _ => .pure _
  · exact .bind (.address widths) fun _ => .bind (sequential_dimensions _ _) fun _ => .pure _
  · exact .bind (.address widths) fun _ => .bind (sequential_dimensions _ _) fun _ => .lift _
  · exact .throw _

theorem sequential_parserThree (widths : FileWidths) : Sequential (parserThree widths) :=
  .bind (.uint 1) fun _ => .bind (.address widths) fun _ =>
    .bind (sequential_dimensions _ _) fun _ => .lift _

theorem sequential_indexParameters (flags : UInt8) (widths : FileWidths) :
    Sequential (indexParameters flags widths) := by
  refine .bind (.uint 1) fun type => ?_
  split
  · exact .ite (.pure _) (.bind (.length widths) fun _ => .bind .word32 fun _ => .pure _)
  · exact .pure _
  · exact .bind .byte fun _ => .pure _
  · exact .bind .byte fun _ => .bind .byte fun _ => .bind .byte fun _ => .bind .byte fun _ =>
      .bind .byte fun _ => .pure _
  · exact .bind .word32 fun _ => .bind .byte fun _ => .bind .byte fun _ => .pure _
  · exact .throw _

theorem sequential_parserFour (widths : FileWidths) : Sequential (parserFour widths) := by
  refine .bind .byte fun flags => .bind (.uint 1) fun rank => .bind (.uint 1) fun width => ?_
  refine .guard (.bind (sequential_dimensions _ _) fun dims => ?_)
  exact .bind (sequential_indexParameters flags widths) fun _ => .bind (.address widths) fun _ =>
    .lift _

theorem sequential_message (widths : FileWidths) : Sequential (parser widths) := by
  refine .bind .byte fun version => .ite (sequential_parserOne version widths) (.ite ?_ (.throw _))
  refine .bind (.uint 1) fun code => ?_
  split
  · exact .bind (.uint 2) fun _ => .bind (.take _) fun _ => .pure _
  · exact .bind (.address widths) fun _ => .bind (.length widths) fun _ => .pure _
  · exact .ite (sequential_parserThree widths) (sequential_parserFour widths)
  · exact .ite (.pure _) (.throw _)

end DataLayout

/-! ## Filter pipelines -/

namespace Pipeline

theorem sequential_parseNameLength (version : UInt8) (id : UInt16) :
    Sequential (parseNameLength version id) :=
  .ite (.uint 2) (.pure 0)

theorem sequential_parseName (version : UInt8) (length : Nat) :
    Sequential (parseName version length) :=
  .ite (.pure none) (.bind (.take _) fun _ => .pure _)

theorem sequential_skipPadding (version : UInt8) (words : Nat) :
    Sequential (skipPadding version words) :=
  .ite (.skip 4) (.pure ())

theorem sequential_parseFilter (version : UInt8) : Sequential (parseFilter version) := by
  refine .bind .word16 fun id => .bind (sequential_parseNameLength version id) fun length => ?_
  refine .bind .word16 fun flags => .bind (.uint 2) fun words => ?_
  refine .bind (sequential_parseName version length) fun name => ?_
  exact .bind (.times .word32 words) fun _ => .bind (sequential_skipPadding version words) fun _ =>
    .pure _

theorem sequential_message : Sequential parser := by
  refine .bind .byte fun version => .bind .byte fun count => .guard ?_
  have filters : Sequential (do
      return (⟨version, ← times (parseFilter version) count.toNat⟩ : Pipeline)) :=
    .bind (.times (sequential_parseFilter version) _) fun _ => .pure _
  exact .ite (.bind (.skip 6) fun _ => filters) filters

/-- The counts of a pipeline and the lengths of its names have room in its message. -/
structure Encodable (p : Pipeline) : Prop where
  count : p.filters.length ≤ 255
  words : ∀ f ∈ p.filters, f.clientData.length ≤ 65535
  names : ∀ f ∈ p.filters, hasNameField (written p.version) f.id = true →
    (nameField (written p.version) f.name).length < 65536

theorem Encodable.fits {p : Pipeline} (encodable : p.Encodable) :
    ∀ f ∈ p.filters, Fits (written p.version) f :=
  fun f mem => ⟨Nat.lt_succ_of_le (encodable.words f mem), encodable.names f mem⟩

end Pipeline

namespace ChunkedLayout

/-- The fields of a layout have room in its message, the address also where its bits are those of
the undefined one. -/
structure Encodable (widths : FileWidths) (l : ChunkedLayout) : Prop where
  rank : 1 ≤ l.chunkDims.length ∧ l.chunkDims.length ≤ 254
  dims : ∀ k ∈ l.chunkDims, 0 < k ∧ k ≤ maxWord
  element : 0 < l.elementSize ∧ l.elementSize < UInt32.size
  address : l.address < 256 ^ widths.offsetSize ∨ l.address = undefinedAddress
  narrow : l.index = .treeOne → ∀ k ∈ l.chunkDims, k < UInt32.size
  stored : ∀ size mask, l.index = .single (some (size, mask)) → size < 256 ^ widths.lengthSize

variable {widths : FileWidths} {l : ChunkedLayout}

/-- The layout with the address that is read back. -/
def readdressed (widths : FileWidths) (l : ChunkedLayout) : ChunkedLayout :=
  { l with address :=
      if l.address + 1 = 256 ^ widths.offsetSize then undefinedAddress else l.address }

theorem Encodable.representable (encodable : l.Encodable widths) :
    (l.readdressed widths).Representable widths := by
  refine ⟨⟨encodable.rank, encodable.dims, encodable.element, ?_⟩, encodable.narrow,
    encodable.stored⟩
  have address := encodable.address
  unfold readdressed Addressable
  dsimp only
  split
  · exact .inr rfl
  · omega

/-- The bits of the undefined address are written for either. -/
theorem encode_readdressed (widths : FileWidths) (l : ChunkedLayout) :
    (l.readdressed widths).encode widths = l.encode widths := by
  have bits : LittleEndian.encode widths.offsetSize (l.readdressed widths).address =
      LittleEndian.encode widths.offsetSize l.address := by
    unfold readdressed
    dsimp only
    split
    next ones =>
      have undefined : undefinedAddress % 256 ^ widths.offsetSize + 1 = l.address + 1 :=
        (undefinedAddress_mod widths.offset).trans ones.symm
      rw [← LittleEndian.encode_mod, Nat.succ.inj undefined]
    next => rfl
  have three : (l.readdressed widths).encodeThree widths = l.encodeThree widths := by
    rw [encodeThree, bits]
    rfl
  have four : (l.readdressed widths).encodeFour widths = l.encodeFour widths := by
    rw [encodeFour, bits]
    rfl
  unfold encode
  rw [three, four]
  rfl

end ChunkedLayout

/-! ## Both messages -/

/-- What is parsed does not change when bytes follow the message. A message that was written for a
chunked layout or a pipeline with room for its fields is refused wherever it is cut off, with the
error that the bytes end after as many as there are. -/
theorem parse_of_front :
    (∀ message widths d, DataLayout.parse message widths = .ok d → ∀ more,
      DataLayout.parse (message ++ more) widths = .ok d) ∧
    (∀ message p, Pipeline.parse message = .ok p → ∀ more,
      Pipeline.parse (message ++ more) = .ok p) ∧
    (∀ widths (l : ChunkedLayout), l.Encodable widths →
      ∀ front, front <+: l.encode widths → front ≠ l.encode widths →
        ∃ expected,
          DataLayout.parse front widths = .error (.unexpectedEnd expected front.length)) ∧
    (∀ p : Pipeline, p.Encodable →
      ∀ front, front <+: p.serialize → front ≠ p.serialize →
        ∃ expected, Pipeline.parse front = .error (.unexpectedEnd expected front.length)) := by
  refine ⟨?_, ?_, ?_, ?_⟩
  · intro message widths d parsed more
    exact (DataLayout.sequential_message widths).parse_append parsed more
  · intro message p parsed more
    exact Pipeline.sequential_message.parse_append parsed more
  · intro widths l encodable front cut proper
    have reads := ChunkedLayout.reads_encode encodable.representable
    rw [ChunkedLayout.encode_readdressed] at reads
    exact (DataLayout.sequential_message widths).parse_front reads cut proper
  · intro p encodable front cut proper
    have reads := Pipeline.reads_serialize (Nat.lt_succ_of_le encodable.count) encodable.fits
    exact Pipeline.sequential_message.parse_front reads cut proper

/-- A message of a fixed array and one of a named filter are parsed alike when bytes follow, and
refused without their last byte; the address has the bits of the undefined one, and the last bytes
of the filter are padding. -/
theorem parse_of_front_of_last_byte :
    (DataLayout.parse [4, 2, 0, 2, 1, 5, 3, 3, 9, 255, 255] ⟨.two, .four⟩ =
        .ok (.chunked ⟨4, 0, [5], 3, .fixedArray 9, undefinedAddress⟩) ∧
      DataLayout.parse ([4, 2, 0, 2, 1, 5, 3, 3, 9, 255, 255] ++ [7]) ⟨.two, .four⟩ =
        .ok (.chunked ⟨4, 0, [5], 3, .fixedArray 9, undefinedAddress⟩)) ∧
    (Pipeline.parse [2, 1, 2, 0, 1, 0, 0, 0] = .ok ⟨2, [⟨2, none, 1, []⟩]⟩ ∧
      Pipeline.parse ([2, 1, 2, 0, 1, 0, 0, 0] ++ [7]) = .ok ⟨2, [⟨2, none, 1, []⟩]⟩) ∧
    (ChunkedLayout.encode ⟨4, 0, [5], 3, .fixedArray 9, 65535⟩ ⟨.two, .four⟩ =
        [4, 2, 0, 2, 1, 5, 3, 3, 9, 255, 255] ∧
      ∃ expected, DataLayout.parse [4, 2, 0, 2, 1, 5, 3, 3, 9, 255] ⟨.two, .four⟩ =
        .error (.unexpectedEnd expected 10)) ∧
    (Pipeline.serialize ⟨1, [⟨1, some "z", 0, [6]⟩]⟩ =
        [1, 1, 0, 0, 0, 0, 0, 0, 1, 0, 8, 0, 0, 0, 1, 0, 122, 0, 0, 0, 0, 0, 0, 0, 6, 0, 0, 0,
          0, 0, 0, 0] ∧
      ∃ expected, Pipeline.parse
        [1, 1, 0, 0, 0, 0, 0, 0, 1, 0, 8, 0, 0, 0, 1, 0, 122, 0, 0, 0, 0, 0, 0, 0, 6, 0, 0, 0,
          0, 0, 0] = .error (.unexpectedEnd expected 31)) := by
  obtain ⟨layout, pipeline, layoutFront, pipelineFront⟩ := parse_of_front
  have parsed : DataLayout.parse [4, 2, 0, 2, 1, 5, 3, 3, 9, 255, 255] ⟨.two, .four⟩ =
      .ok (.chunked ⟨4, 0, [5], 3, .fixedArray 9, undefinedAddress⟩) := by decide +kernel
  have parsed' : Pipeline.parse [2, 1, 2, 0, 1, 0, 0, 0] = .ok ⟨2, [⟨2, none, 1, []⟩]⟩ := by
    decide +kernel
  have room : ChunkedLayout.Encodable ⟨.two, .four⟩ ⟨4, 0, [5], 3, .fixedArray 9, 65535⟩ :=
    ⟨by decide, by decide, by decide, by decide, nofun, nofun⟩
  have room' : Pipeline.Encodable ⟨1, [⟨1, some "z", 0, [6]⟩]⟩ :=
    ⟨by decide, by decide, by decide +kernel⟩
  exact ⟨⟨parsed, layout _ _ _ parsed [7]⟩, ⟨parsed', pipeline _ _ parsed' [7]⟩,
    ⟨by decide +kernel, layoutFront _ _ room _ ⟨[255], by decide +kernel⟩ (by decide +kernel)⟩,
    ⟨by decide +kernel, pipelineFront _ room' _ ⟨[0], by decide +kernel⟩ (by decide +kernel)⟩⟩

end ChunkStore
