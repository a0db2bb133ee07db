import ChunkStore.Proofs.Archive.Recording
import ChunkStore.Proofs.Dataset.Holding
import ChunkStore.Proofs.Dataset.Overrun
import ChunkStore.Proofs.Message.Layout
import ChunkStore.Proofs.Message.Pipeline

/-!
# Archives read back

`Archive.read_of_written` is the round trip of a whole dataset: chunks are recorded one after
another, the array and the messages are written, the messages are read, and then every read has
every selected element as it was recorded last, or the fill value, where memory has room for a chunk
and for the elements, and nowhere else. The steps before it are what `Recording.finish` writes
(`Recording.finish_eq_ok`), which dataset is opened (`Dataset.ofLayout_fixedArray`) and what its
chunks hold (`Recording.Records.holding`). `Archive.open_of_large_chunk`,
`Archive.read_of_large_counts` and `Archive.read_of_many_words` are archives that are written
without an error and not read back.
-/

namespace ChunkStore

open Index Coordinate

/-- Extents and chunks that an archive can describe. -/
structure Shape.Writable (s : Shape) : Prop where
  rank : 1 ≤ s.dims.length ∧ s.dims.length ≤ 254
  extents : List.Forall₂ (· ≤ ·) s.dims s.maxDims
  ends : List.Forall₂ (fun n k => n + k ≤ maxWord) s.dims s.chunkDims
  element : 0 < s.elementSize ∧ s.elementSize < UInt32.size

theorem Shape.excess?_eq_none {d : Nat} {dims maxDims : List Nat}
    (below : List.Forall₂ (· ≤ ·) dims maxDims) : excess? d dims maxDims = none := by
  induction below generalizing d with
  | nil => rfl
  | cons le _ ih =>
    rw [excess?, if_neg (Nat.not_lt.2 le)]
    exact ih

theorem Shape.Writable.validate {s : Shape} (writable : s.Writable) {layout : ChunkedLayout}
    (chunkDims : layout.chunkDims = s.chunkDims)
    (elementSize : layout.elementSize = s.elementSize) :
    s.validate layout = .ok () := by
  have maxRank := writable.extents.length_eq
  have rank := writable.ends.length_eq
  rw [Shape.validate, if_neg (by rw [Shape.rank]; omega), if_neg (by simp [chunkDims, elementSize]),
    excess?_eq_none writable.extents]

/-! ## What is written last -/

/-- The layout that says where the array stands. -/
def Recording.layout (r : Recording) (shape : Shape) : ChunkedLayout :=
  ⟨4, 0, shape.chunkDims, shape.elementSize, .fixedArray r.builder.pageBits,
    r.appender.endPosition⟩

theorem Recording.not_skips (r : Recording) (shape : Shape) :
    (r.layout shape).skipsPartialChunks = false :=
  show ((0 : UInt8) &&& 1 != 0) = false by decide

/-- The array stands at the end of the file, and the messages describe it. -/
theorem Recording.finish_eq_ok {r : Recording} {widths : FileWidths} {shape : Shape}
    {archive : Archive} (done : r.finish widths shape = .ok archive) :
    ∃ array, r.builder.build r.appender.endPosition = .ok array ∧
      archive.image = r.appender.sink.content ++ array ∧
      archive.layoutMessage = (r.layout shape).encodeFour widths ∧
      archive.pipelineMessage = r.appender.pipeline.serialize := by
  unfold finish at done
  obtain ⟨array, built, done⟩ := bind_eq_ok_iff.1 done
  cases wrote : r.appender.appendRaw array with
  | mk written after =>
    rw [wrote] at done
    obtain ⟨address, rfl, done⟩ := bind_eq_ok_iff.1 done
    obtain ⟨-, rfl, content⟩ := Appender.appendRaw_eq_ok wrote
    cases done
    exact ⟨array, built, content, rfl, rfl⟩

/-! ## What is opened -/

namespace Dataset

/-- The dataset that a layout with a fixed array opens. -/
theorem ofLayout_fixedArray {widths : FileWidths} {layout : ChunkedLayout} {shape : Shape}
    {pipeline : Pipeline} {properties : AccessProperties} {registry : Registry} {g : Geometry}
    {pageBits : UInt8} (valid : shape.validate layout = .ok ())
    (made : Geometry.ofExtents shape.dims shape.maxDims shape.chunkDims shape.elementSize = .ok g)
    (filled : checkFill properties.fillValue shape.elementSize = .ok ())
    (held : checkHeld g.chunkBytes = .ok ()) (rank : layout.chunkDims.length = g.rank)
    (array : layout.index = .fixedArray pageBits) :
    ∃ d, ofLayout widths (.chunked layout) shape pipeline properties registry = .ok d ∧
      d.opening = ⟨shape, pipeline, registry,
        .fixedArray (.ofAddress ⟨widths, g, layout.chunkDims, layout.elementSize,
          !pipeline.isEmpty, properties.verifyChecksums⟩ layout.address),
        properties, layout.skipsPartialChunks⟩ ∧
      d.index = d.opening.index ∧ d.cache = .ofLimits properties.cacheLimits := by
  generalize settings : (⟨widths, g, layout.chunkDims, layout.elementSize, !pipeline.isEmpty,
    properties.verifyChecksums⟩ : Settings) = s
  have index : ChunkIndex.ofLayout layout g widths (!pipeline.isEmpty)
      properties.verifyChecksums = .ok (.fixedArray (.ofAddress s layout.address)) := by
    rw [ChunkIndex.ofLayout, if_neg (Classical.not_not.2 rank)]
    simp only [array, settings]
  refine ⟨⟨shape, pipeline, registry, .fixedArray (.ofAddress s layout.address),
    .ofLimits properties.cacheLimits, properties, layout.skipsPartialChunks, false⟩, ?_, rfl, rfl,
    rfl⟩
  simp only [ofLayout, DataLayout.asChunked, bind, Except.bind, valid, made, filled, held, index]
  rfl

/-- A chunk that memory has no room for is not opened. -/
theorem ofLayout_of_roomless {widths : FileWidths} {layout : ChunkedLayout} {shape : Shape}
    {pipeline : Pipeline} {properties : AccessProperties} {registry : Registry} {g : Geometry}
    (valid : shape.validate layout = .ok ())
    (made : Geometry.ofExtents shape.dims shape.maxDims shape.chunkDims shape.elementSize = .ok g)
    (filled : checkFill properties.fillValue shape.elementSize = .ok ())
    (roomless : UInt64.size / 2 ≤ g.chunkBytes) :
    ofLayout widths (.chunked layout) shape pipeline properties registry = .error .outOfRange := by
  have refused : checkHeld g.chunkBytes = .error .outOfRange := if_neg (Nat.not_lt.2 roomless)
  simp only [ofLayout, DataLayout.asChunked, bind, Except.bind, valid, made, filled, refused]

theorem slice_replicate {size r n : Nat} (lt : r < n) (value : UInt8) :
    slice (List.replicate (size * n) value) (r * size) size = List.replicate size value := by
  have fits : (r + 1) * size ≤ n * size := Nat.mul_le_mul_right size lt
  rw [Nat.succ_mul, Nat.mul_comm n] at fits
  rw [slice, List.drop_replicate, List.take_replicate, Nat.min_eq_left (by omega)]

theorem slice_repeatFill {fill : Bytes} {r n : Nat} (pos : 0 < fill.length) (lt : r < n) :
    slice (repeatFill fill (fill.length * n)) (r * fill.length) fill.length = fill := by
  have uniform : ∀ run ∈ List.replicate n fill, run.length = fill.length := by
    intro run mem
    rw [List.eq_of_mem_replicate mem]
  have count : (fill.length * n + fill.length - 1) / fill.length = n := by
    rw [Nat.add_sub_assoc pos, Nat.mul_add_div pos, Nat.div_eq_of_lt (by omega), Nat.add_zero]
  have all : (List.replicate n fill).flatten.length = fill.length * n := by
    rw [length_flatten_of_forall uniform, List.length_replicate, Nat.mul_comm]
  rw [repeatFill, count, ← all, List.take_length]
  have cut := takeChunks_flatten [] uniform
  rw [List.append_nil, List.length_replicate] at cut
  have item := getElem?_takeChunks fill.length n (List.replicate n fill).flatten r
  rw [cut, if_pos lt, List.getElem?_replicate, if_pos lt] at item
  exact (Option.some.inj item).symm

/-- Every element of a chunk of fill values is the fill value. -/
theorem Opening.Proper.slice_fillChunk {o : Opening} (proper : o.Proper)
    (element : 0 < o.shape.elementSize)
    (fill : ∀ fill, o.properties.fillValue = some fill → fill.length = o.shape.elementSize)
    {r : Nat} (lt : r < o.shape.chunkDims.prod) :
    slice o.fillChunk (r * o.shape.elementSize) o.shape.elementSize =
      o.properties.fillValue.getD (List.replicate o.shape.elementSize 0) := by
  unfold fillChunk
  rw [proper.chunkBytes]
  cases given : o.properties.fillValue with
  | none => exact slice_replicate lt 0
  | some value =>
    rw [← fill value given] at element ⊢
    exact slice_repeatFill element lt

end Dataset

/-! ## What its chunks hold -/

namespace Recording

variable {r : Recording} {widths : FileWidths} {pageBits : UInt8} {array : Bytes} {s : Settings}
  {chunks : List (Coordinate × Bytes)} {sets : List (Nat × Descriptor)}

/-- What the index is told of the dataset. -/
def settings (r : Recording) (widths : FileWidths) (shape : Shape) (pipeline : Pipeline)
    (properties : AccessProperties) : Settings :=
  ⟨widths, r.geometry, shape.chunkDims, shape.elementSize, !pipeline.isEmpty,
    properties.verifyChecksums⟩

/-- What the dataset over the array is opened with. -/
def opening (r : Recording) (widths : FileWidths) (shape : Shape) (pipeline : Pipeline)
    (properties : AccessProperties) : Dataset.Opening :=
  ⟨shape, pipeline, r.appender.registry,
    .fixedArray (.ofAddress (r.settings widths shape pipeline properties)
      r.appender.endPosition), properties, false⟩

/-- A chunk that is stored is delivered, under any pipeline with the same filters. -/
theorem delivers_of_stores {σ ε : Type} [ToString ε] {library : Zlib.Library σ ε}
    {o : Dataset.Opening} {chunk : Bytes} {d : Descriptor} (usual : r.appender.pipeline.Standard)
    (standard : r.appender.registry.Standard library) (lossless : library.Lossless)
    (agree : List.Forall₂ FilterEntry.Agrees r.appender.pipeline.filters o.pipeline.filters)
    (registry : o.registry = r.appender.registry)
    (element : o.shape.elementSize = r.appender.elementSize)
    (filtered : s.filtered = !o.pipeline.isEmpty) (length : chunk.length = o.chunkBytes)
    (held : o.chunkBytes < UInt64.size / 2) (somewhere : d.isAllocated = true)
    (stores : r.appender.Stores chunk d) (more : Bytes) :
    o.Delivers (r.appender.sink.content ++ more) (s.readBack d) chunk := by
  obtain ⟨data, encoded, size, placed⟩ := stores
  rw [Settings.readBack_of_isAllocated s somewhere, filtered]
  cases empty : o.pipeline.isEmpty with
  | true =>
    -- Without filters the chunk itself was stored.
    have none : r.appender.pipeline.filters = [] := by
      rw [Pipeline.isEmpty_of_agrees agree] at empty
      exact List.isEmpty_iff.1 empty
    rw [Registry.encode, none] at encoded
    obtain ⟨same, -⟩ := Encoded.mk.inj (Except.ok.inj encoded)
    subst same
    exact .plain somewhere empty (placed.grow more) length
  | false =>
    refine .filtered somewhere empty (placed.grow more) size ?_ length
    rw [registry, element, ← length]
    exact standard.decode_encode lossless usual agree (length ▸ held) encoded

namespace Records

/-- Every chunk is delivered as it was recorded last, and the others as fill values. -/
theorem holding {σ ε : Type} [ToString ε] {library : Zlib.Library σ ε} {shape : Shape}
    {pipeline : Pipeline} (properties : AccessProperties)
    (records : r.Records widths pageBits chunks sets) (usual : r.appender.pipeline.Standard)
    (standard : r.appender.registry.Standard library) (lossless : library.Lossless)
    (agree : List.Forall₂ FilterEntry.Agrees r.appender.pipeline.filters pipeline.filters)
    (element : shape.elementSize = r.appender.elementSize)
    (counted : r.geometry.scaledMaxDims.prod < 256 ^ widths.lengthSize)
    (room : r.appender.endPosition + FixedArray.headerLength widths + 1 < 256 ^ widths.offsetSize)
    (built : r.builder.build r.appender.endPosition = .ok array)
    (bound : (r.appender.sink.content ++ array).length ≤ maxWord)
    (held : r.geometry.chunkBytes < UInt64.size / 2) :
    Dataset.Holding (r.opening widths shape pipeline properties) r.builder
      (r.settings widths shape pipeline properties) r.appender.endPosition
      (r.appender.sink.content ++ array)
      fun c => (chunks.reverse.lookup c).getD
        (r.opening widths shape pipeline properties).fillChunk := by
  have laid : r.builder.Laid (r.settings widths shape pipeline properties)
      r.appender.endPosition (r.appender.sink.content ++ array) := by
    refine records.laid counted room built bound rfl ?_
    rw [← Pipeline.isEmpty_of_agrees agree]
    rfl
  refine ⟨laid, rfl, fun c rank => ?_⟩
  unfold FixedArrayBuilder.answerAt
  split
  next inside =>
    obtain ⟨found, stored, somewhere, entry⟩ :=
      records.entry counted ⟨Geometry.checkRank_eq_ok_iff.1 rank, inside⟩
    rw [show (r.settings widths shape pipeline properties).geometry = r.geometry from rfl, entry]
    cases recorded : chunks.reverse.lookup c with
    | none =>
      rw [recorded] at stored
      cases stored
      exact .free (by rw [Option.getD_none, Settings.readBack_undefined]; rfl) rfl
    | some chunk =>
      rw [recorded] at stored
      cases stored with
      | some stores =>
        have addressable : (r.opening widths shape pipeline properties).chunkBytes <
            UInt64.size / 2 := held
        exact delivers_of_stores usual standard lossless agree rfl element rfl
          (records.of_lookup recorded).2 addressable (somewhere _ rfl) stores array
  next beyond =>
    -- Nothing was recorded beyond the largest extent.
    cases recorded : chunks.reverse.lookup c with
    | none => exact .free rfl rfl
    | some chunk => exact absurd (records.of_lookup recorded).1.2 beyond

end Records

end Recording

/-! ## The round trip -/

namespace Archive

/-- The bytes of an element: those of the chunk that was recorded last for its coordinate, or else
the fill value. -/
def element (chunks : List (Coordinate × Bytes)) (shape : Shape) (properties : AccessProperties)
    (x : Coordinate) : Bytes :=
  match chunks.reverse.lookup (List.zipWith (· / ·) x shape.chunkDims) with
  | some chunk =>
    slice chunk (rowMajor (List.zipWith (· % ·) x shape.chunkDims) shape.chunkDims *
      shape.elementSize) shape.elementSize
  | none => properties.fillValue.getD (List.replicate shape.elementSize 0)

/-- In the content of its chunk every element has its bytes. -/
theorem slice_content {o : Dataset.Opening} (proper : o.Proper) (pos : 0 < o.shape.elementSize)
    (fill : ∀ fill, o.properties.fillValue = some fill → fill.length = o.shape.elementSize)
    (chunks : List (Coordinate × Bytes)) {x : Coordinate} (rank : x.length = o.shape.dims.length) :
    slice ((chunks.reverse.lookup (List.zipWith (· / ·) x o.shape.chunkDims)).getD o.fillChunk)
        (rowMajor (List.zipWith (· % ·) x o.shape.chunkDims) o.shape.chunkDims *
          o.shape.elementSize) o.shape.elementSize =
      element chunks o.shape o.properties x := by
  unfold element
  cases chunks.reverse.lookup (List.zipWith (· / ·) x o.shape.chunkDims) with
  | some chunk => rfl
  | none =>
    have within := within_mod (rank.trans proper.chunkRank.symm) proper.chunkDims
    exact proper.slice_fillChunk pos fill (rowMajor_lt within)

/-- The messages of an archive are read back: they say how to open a dataset over the array. -/
theorem open_of_finish {r₀ r : Recording} {widths : FileWidths} {shape : Shape}
    {pipeline : Pipeline} {registry : Registry} {pageBits : UInt8} {preamble : Bytes}
    {properties : AccessProperties} {archive : Archive} (writable : shape.Writable)
    (few : pipeline.filters.length < 256)
    (fits : ∀ f ∈ pipeline.filters, Pipeline.Fits (Pipeline.written pipeline.version) f)
    (started : Recording.start widths shape pipeline registry pageBits preamble = .ok r₀)
    (grown : r₀.appender.Grown r.appender)
    (room : r.appender.endPosition + FixedArray.headerLength widths + 1 < 256 ^ widths.offsetSize)
    (finished : r.finish widths shape = .ok archive) :
    ∃ p', List.Forall₂ FilterEntry.Agrees pipeline.filters p'.filters ∧
      archive.open widths shape properties registry =
        Dataset.ofLayout widths (.chunked (r.layout shape)) shape p' properties registry := by
  obtain ⟨made, appender, -⟩ := Recording.start_eq_ok started
  obtain ⟨array, -, -, layoutMessage, pipelineMessage⟩ := Recording.finish_eq_ok finished
  obtain ⟨p', parsed, agree⟩ := Pipeline.parse_serialize few fits
  have same : r.appender.pipeline = pipeline := by rw [grown.pipeline, appender]
  have rank := writable.ends.length_eq
  have chunkRank : 1 ≤ shape.chunkDims.length ∧ shape.chunkDims.length ≤ 254 :=
    rank ▸ writable.rank
  have address : r.appender.endPosition + 1 < 256 ^ widths.offsetSize := by omega
  have layoutFits : (r.layout shape).Fits widths := by
    obtain ⟨-, -, pos, -⟩ := Geometry.of_ofExtents made
    have words : ∀ k ∈ shape.chunkDims, k ≤ maxWord :=
      forall_of_forall₂ writable.ends fun n k fits => by omega
    exact ⟨chunkRank, fun k mem => ⟨Nat.pos_of_ne_zero fun zero => pos (zero ▸ mem), words k mem⟩,
      writable.element, .inl address⟩
  have layout := ChunkedLayout.parse_encodeFour layoutFits rfl
    (show (0 : UInt8) &&& 1 = 0 by decide) rfl
  refine ⟨p', agree, ?_⟩
  rw [Archive.open, layoutMessage, layout, pipelineMessage, same, parsed]
  rfl

/-- A fill value of one element is accepted. -/
theorem checkFill_eq_ok {shape : Shape} {properties : AccessProperties}
    (element : 0 < shape.elementSize)
    (fill : ∀ fill, properties.fillValue = some fill → fill.length = shape.elementSize) :
    Dataset.checkFill properties.fillValue shape.elementSize = .ok () := by
  unfold Dataset.checkFill
  cases given : properties.fillValue with
  | none => rfl
  | some value => exact if_pos ⟨fill value given, element⟩

/-- The archive is what recording the chunks one after another and finishing gives; addresses and
the count of entries fit into their fields. -/
inductive Written (widths : FileWidths) (shape : Shape) (pipeline : Pipeline) (registry : Registry)
    (pageBits : UInt8) (preamble : Bytes) (chunks : List (Coordinate × Bytes))
    (archive : Archive) : Prop where
  | intro {r₀ r : Recording} {results : List (Except Error Descriptor)}
      (started : Recording.start widths shape pipeline registry pageBits preamble = .ok r₀)
      (whole : ∀ p ∈ chunks, r₀.geometry.Holds p.1 ∧ p.2.length = r₀.geometry.chunkBytes)
      (added : r₀.addAll chunks = (results, r))
      (addressed : ∀ result ∈ results,
        ∃ d, result = .ok d ∧ d.address + 1 < 256 ^ widths.offsetSize)
      (room : r.appender.endPosition + FixedArray.headerLength widths + 1 <
        256 ^ widths.offsetSize)
      (counted : r₀.builder.entries.length < 256 ^ widths.lengthSize)
      (finished : r.finish widths shape = .ok archive)

/-- Memory has no room for the selected elements: 64 bits do not hold a product of the first counts,
or the elements take half of the address space or more. -/
def Roomless (s : Hyperslab) (elementSize : Nat) : Prop :=
  s.numElements = .error .outOfRange ∨ ∃ n, s.numElements = .ok n ∧
    UInt64.size / 2 ≤ n * elementSize ∧ n * elementSize ≤ maxWord

theorem Roomless.refused {s : Hyperslab} {elementSize : Nat} (roomless : Roomless s elementSize) :
    (Dataset.selectedBytes s elementSize >>= Dataset.checkHeld) = .error .outOfRange := by
  rcases roomless with overflow | ⟨n, counted, large, word⟩
  · simp only [Dataset.selectedBytes, overflow, bind, Except.bind]
  · have selected : Dataset.selectedBytes s elementSize = .ok (n * elementSize) := by
      simp only [Dataset.selectedBytes, counted, bind, Except.bind, checked, if_pos word]
      rfl
    rw [selected]
    exact if_neg (Nat.not_lt.2 large)

/-- What was recorded is read, in every state of the dataset that the archive opens: chunks through
any of the filters, elements that lie in partial chunks, and elements of chunks that were recorded
more than once or never. Memory has to have room for a chunk, or else nothing is opened, and for the
selected elements, or else nothing is read. -/
theorem read_of_written {σ ε : Type} [ToString ε] {library : Zlib.Library σ ε}
    {widths : FileWidths} {shape : Shape} {pipeline : Pipeline} {registry : Registry}
    {pageBits : UInt8} {preamble : Bytes} {properties : AccessProperties} {archive : Archive}
    {chunks : List (Coordinate × Bytes)} (writable : shape.Writable) (usual : pipeline.Standard)
    (standard : registry.Standard library) (lossless : library.Lossless)
    -- The message has fields for a count of client data words and for a name of some lengths.
    (fits : ∀ f ∈ pipeline.filters, Pipeline.Fits (Pipeline.written pipeline.version) f)
    (written : Written widths shape pipeline registry pageBits preamble chunks archive)
    (bound : archive.image.length ≤ maxWord)
    (fill : ∀ fill, properties.fillValue = some fill → fill.length = shape.elementSize) :
    (UInt64.size / 2 ≤ shape.elementSize * shape.chunkDims.prod →
      archive.open widths shape properties registry = .error .outOfRange) ∧
    (shape.elementSize * shape.chunkDims.prod < UInt64.size / 2 →
      ∃ d, archive.open widths shape properties registry = .ok d ∧
        ∀ d', Dataset.Later archive.image d d' → d'.isCancelled = false →
          ∀ s : Hyperslab, s.validate shape.dims = .ok () →
            (Roomless s shape.elementSize →
              ((Dataset.readHyperslab s).runOn archive.image d').1 = .error .outOfRange) ∧
            ∀ n, s.numElements = .ok n → n * shape.elementSize < UInt64.size / 2 →
              ∃ out d'', (Dataset.readHyperslab s).runOn archive.image d' = (.ok out, d'') ∧
                out.length = n * shape.elementSize ∧
                ∀ x, s.Selects x →
                  slice out (rowMajor (List.zipWith (· - ·) x s.start) s.count * shape.elementSize)
                    shape.elementSize = element chunks shape properties x) := by
  obtain @⟨r₀, r, results, started, whole, added, addressed, room, counted, finished⟩ := written
  obtain ⟨made, appender, empty⟩ := Recording.start_eq_ok started
  obtain ⟨grown, grid, sets, records⟩ := empty.addAll whole added addressed
  obtain ⟨array, built, image, -, -⟩ := Recording.finish_eq_ok finished
  have few := usual.few
  have chunkBytes : r₀.geometry.chunkBytes = shape.elementSize * shape.chunkDims.prod := by
    obtain ⟨-, -, -, product, -, -⟩ := Geometry.of_ofExtents made
    exact checkedProduct_eq product
  obtain ⟨p', agree, opens⟩ := @open_of_finish _ _ _ _ _ _ _ _ properties _ writable (by omega) fits
    started grown room finished
  have valid : shape.validate (r.layout shape) = .ok () := writable.validate rfl rfl
  have filled := checkFill_eq_ok writable.element.1 fill
  rw [opens]
  refine ⟨fun roomless => Dataset.ofLayout_of_roomless valid made filled (chunkBytes ▸ roomless),
    fun held => ?_⟩
  rw [← chunkBytes] at held
  have gridRank := (Geometry.ranks_of_ofExtents made).1
  obtain ⟨d, opened, opening, index, cache⟩ := @Dataset.ofLayout_fixedArray widths (r.layout shape)
    shape p' properties registry _ _ valid made filled (if_pos held) gridRank.symm rfl
  have same : r.appender.pipeline = pipeline := by rw [grown.pipeline, appender]
  have codecs : r.appender.registry = registry := by rw [grown.registry, appender]
  have size : shape.elementSize = r.appender.elementSize := by rw [grown.elementSize, appender]
  have entries : r.geometry.scaledMaxDims.prod < 256 ^ widths.lengthSize := by
    rwa [grid, ← empty.length_entries]
  have openedWith : d.opening = r.opening widths shape p' properties := by
    rw [opening, Recording.opening, Recording.settings, codecs, grid, Recording.not_skips]
    rfl
  rw [← same] at agree usual
  rw [← codecs] at standard
  rw [image] at bound
  have holding := records.holding properties usual standard lossless agree size entries room built
    bound (grid ▸ held)
  rw [← image] at holding
  refine ⟨d, opened, fun d' later going s valid => ?_⟩
  have tracks := holding.sound_later later ⟨openedWith, ⟨_, index.trans (by rw [openedWith]; rfl),
    FixedArrayBuilder.consistent_ofAddress ..⟩, cache ▸ Cache.holds_ofLimits _⟩
  have shapes : d'.shape = shape := congrArg Dataset.Opening.shape tracks.opening
  refine ⟨fun roomless => ?_, fun n count fitsHeld => ?_⟩
  · exact Dataset.runOn_readHyperslab_of_error (shapes ▸ valid) (shapes ▸ roomless.refused)
  obtain ⟨proper, uniform⟩ := Dataset.Reachable.sound (.intro opened later)
  rw [tracks.opening] at proper uniform
  have readFits := Dataset.readFits_of_ends proper writable.element.1 writable.ends valid count
    fitsHeld
  have rank : r.geometry.rank = shape.dims.length := by
    rw [grid, gridRank, writable.ends.length_eq]
  obtain ⟨out, d'', ran, ⟨m, counted', length⟩, elements⟩ :=
    holding.read proper rank uniform tracks going valid readFits
  rw [count] at counted'
  cases counted'
  refine ⟨out, d'', ran, length, fun x selected => (elements x selected).trans ?_⟩
  have ranks := Hyperslab.ranks_of_validate valid
  have xRank := selected.length_eq
  rw [List.length_zip] at xRank
  exact slice_content proper writable.element.1 fill chunks
    (show x.length = shape.dims.length by omega)

/-- A filtered dataset of which the first chunk was recorded twice and the second one never. Level 0
stores the bytes that are to be compressed. -/
theorem read_of_three_records : ∃ archive d out d'',
    Written ⟨.two, .two⟩ ⟨[3], [5], [2], 2⟩
      (.ofFilters [⟨shuffleId, none, 1, []⟩, ⟨deflateId, none, 1, [0]⟩, ⟨fletcherId, none, 0, []⟩])
      .builtin 0 [0] [([0], [1, 2, 3, 4]), ([2], [9, 9, 9, 9]), ([0], [8, 7, 6, 5])] archive ∧
    archive.open ⟨.two, .two⟩ ⟨[3], [5], [2], 2⟩ .default .builtin = .ok d ∧
    (Dataset.readHyperslab (.all [3])).runOn archive.image d = (.ok out, d'') ∧
    slice out 2 2 = [6, 5] ∧ slice out 4 2 = [0, 0] := by
  generalize filters : Pipeline.ofFilters [⟨shuffleId, none, 1, []⟩, ⟨deflateId, none, 1, [0]⟩,
    ⟨fletcherId, none, 0, []⟩] = pipeline
  generalize pairs : [(([0] : Coordinate), ([1, 2, 3, 4] : Bytes)), ([2], [9, 9, 9, 9]),
    ([0], [8, 7, 6, 5])] = chunks
  have known : pipeline.Standard := by
    subst filters
    exact ⟨by decide, by decide⟩
  have fits : ∀ f ∈ pipeline.filters, Pipeline.Fits (Pipeline.written pipeline.version) f := by
    subst filters
    have short : ∀ f ∈ (Pipeline.ofFilters [⟨shuffleId, none, 1, []⟩, ⟨deflateId, none, 1, [0]⟩,
        ⟨fletcherId, none, 0, []⟩]).filters,
        f.clientData.length < 256 ^ 2 ∧ Pipeline.hasNameField 2 f.id = false := by decide
    exact fun f mem => ⟨(short f mem).1, fun named => by cases (short f mem).2.symm.trans named⟩
  have written : Written ⟨.two, .two⟩ ⟨[3], [5], [2], 2⟩ pipeline .builtin 0 [0] chunks
      ⟨[0, 120, 1, 1, 4, 0, 251, 255, 1, 3, 2, 4, 0, 25, 0, 11, 4, 164, 28, 29, 120, 1, 1, 4, 0,
        251, 255, 9, 9, 9, 9, 0, 94, 0, 37, 20, 14, 96, 232, 120, 1, 1, 4, 0, 251, 255, 8, 6, 7, 5,
        0, 73, 0, 27, 16, 232, 83, 156, 70, 65, 72, 68, 0, 1, 8, 0, 3, 0, 74, 0, 36, 166, 255, 243,
        70, 65, 68, 66, 0, 1, 58, 0, 160, 51, 42, 63, 168, 39, 0, 19, 0, 0, 0, 0, 0, 73, 69, 225,
        30, 255, 255, 0, 0, 0, 0, 0, 0, 242, 175, 38, 123, 20, 0, 19, 0, 0, 0, 0, 0, 203, 64, 194,
        15], [4, 2, 0, 2, 1, 2, 2, 3, 0, 58, 0], [2, 3, 2, 0, 1, 0, 0, 0, 1, 0, 1, 0, 1, 0, 0, 0,
        0, 0, 3, 0, 0, 0, 0, 0]⟩ := by
    subst filters pairs
    refine @Written.intro _ _ _ _ _ _ _ _ ⟨⟨[2], [3], 4⟩, ⟨⟨[0], true⟩, _, .builtin, 2⟩,
      ⟨⟨.two, .two⟩, 0, some 2, [.undefined, .undefined, .undefined]⟩⟩ _
      [.ok ⟨1, 19, 0⟩, .ok ⟨20, 19, 0⟩, .ok ⟨39, 19, 0⟩] rfl (by decide)
      (Prod.ext (by decide +kernel) rfl) ?_ (by decide +kernel) (by decide) (by decide +kernel)
    simp
    decide
  obtain ⟨d, opened, reads⟩ := (@read_of_written _ _ _ Zlib.storing ⟨.two, .two⟩
    ⟨[3], [5], [2], 2⟩ pipeline .builtin 0 [0] .default _ chunks
    ⟨by decide, .cons (by decide) .nil, .cons (by decide) .nil, by decide⟩ known
    Registry.standard_builtin Zlib.lossless_storing fits written (by decide +kernel)
    (fun _ given => by cases given)).2 (by decide)
  have going : d.isCancelled = false :=
    Except.ok.inj ((congrArg (Except.map Dataset.isCancelled) opened).symm.trans rfl)
  obtain ⟨out, d'', read, -, elements⟩ := (reads d .here going (.all [3]) rfl).2 3 rfl (by decide)
  subst pairs
  refine ⟨_, d, out, d'', written, opened, read, ?_, ?_⟩
  · exact elements [1] (.cons (by decide) .nil)
  · exact elements [2] (.cons (by decide) .nil)

/-- A chunk of `2 ^ 63` bytes is described in an archive, which is not opened. -/
theorem open_of_large_chunk : ∃ shape archive,
    shape = ⟨[2 ^ 32, 2 ^ 31], [2 ^ 32, 2 ^ 31], [2 ^ 32, 2 ^ 31], 1⟩ ∧ Shape.Writable shape ∧
    Written .default shape .empty .builtin 0 [] [] archive ∧
    archive.open .default shape .default .builtin = .error .outOfRange := by
  refine ⟨_, _, rfl, ⟨by decide, ?_, ?_, by decide⟩, @Written.intro _ _ _ _ _ _ _ _
    ⟨⟨[1, 1], [1, 1], 2 ^ 63⟩, ⟨⟨[], true⟩, .empty, .builtin, 1⟩, ⟨.default, 0, none, [.undefined]⟩⟩
    _ _ rfl (by simp) rfl (by simp) (by decide) (by decide) rfl, ?_⟩
  · exact .cons (by decide) (.cons (by decide) .nil)
  · exact .cons (by decide) (.cons (by decide) .nil)
  · rfl

/-- A dataset without elements, of which 64 bits do not hold the product of the first two extents,
is opened, and reading all of it fails. -/
theorem read_of_large_counts : ∃ shape archive d,
    shape = ⟨[2 ^ 33, 2 ^ 33, 0], [2 ^ 33, 2 ^ 33, 0], [1024, 1024, 1], 1⟩ ∧ Shape.Writable shape ∧
    Written .default shape .empty .builtin 0 [] [] archive ∧
    archive.open .default shape .default .builtin = .ok d ∧
    (Hyperslab.all [2 ^ 33, 2 ^ 33, 0]).validate shape.dims = .ok () ∧
    ((Dataset.readHyperslab (.all [2 ^ 33, 2 ^ 33, 0])).runOn archive.image d).1 =
      .error .outOfRange := by
  refine ⟨_, _, _, rfl, ⟨by decide, ?_, ?_, by decide⟩, @Written.intro _ _ _ _ _ _ _ _
    ⟨⟨[2 ^ 23, 2 ^ 23, 0], [2 ^ 23, 2 ^ 23, 0], 2 ^ 20⟩, ⟨⟨[], true⟩, .empty, .builtin, 1⟩,
      ⟨.default, 0, none, []⟩⟩ _ _ rfl (by simp) rfl (by simp) (by decide) (by decide) rfl,
    rfl, rfl, ?_⟩
  · exact .cons (by decide) (.cons (by decide) (.cons (by decide) .nil))
  · exact .cons (by decide) (.cons (by decide) (.cons (by decide) .nil))
  · rfl

/-- The file that is written for one chunk of two elements shuffled as elements of one byte, and
what is read from it when the shuffle is taken to be one of elements of two bytes. -/
theorem exists_array_of_one_chunk : ∃ array,
    (FixedArrayBuilder.mk .default 0 (some 2) [⟨0, 4, 0⟩]).build 4 = .ok array ∧
    ((Dataset.readHyperslab (.all [2])).runOn ([1, 2, 3, 4] ++ array) ⟨⟨[2], [2], [2], 2⟩,
      .ofFilters [⟨shuffleId, none, 0, []⟩], .builtin, .fixedArray (.ofAddress
        ⟨.default, ⟨[1], [1], 4⟩, [2], 2, true, true⟩ 4), .ofLimits .default, .default, false,
      false⟩).1 = .ok [1, 3, 2, 4] := by
  refine ⟨[70, 65, 72, 68, 0, 1, 14, 0, 1, 0, 0, 0, 0, 0, 0, 0, 32, 0, 0, 0, 0, 0, 0, 0, 49, 183,
    47, 223, 70, 65, 68, 66, 0, 1, 4, 0, 0, 0, 0, 0, 0, 0, 0, 0, 0, 0, 0, 0, 0, 0, 4, 0, 0, 0, 0,
    0, 90, 242, 127, 153], by decide +kernel, by decide +kernel⟩

/-- With more client data words than its message can count, a shuffle of single bytes is undone as
one of whole elements, and the bytes come back in another order. -/
theorem read_of_many_words : ∃ pipeline archive d,
    pipeline = .ofFilters [⟨shuffleId, none, 0, List.replicate (2 ^ 16) 1⟩] ∧
    Shape.Writable ⟨[2], [2], [2], 2⟩ ∧ Pipeline.Standard pipeline ∧
    Written .default ⟨[2], [2], [2], 2⟩ pipeline .builtin 0 [] [([0], [1, 2, 3, 4])] archive ∧
    archive.open .default ⟨[2], [2], [2], 2⟩ .default .builtin = .ok d ∧
    ((Dataset.readHyperslab (.all [2])).runOn archive.image d).1 = .ok [1, 3, 2, 4] := by
  have parsed := @Pipeline.parse_serialize_of_many_words
    ⟨shuffleId, none, 0, List.replicate (2 ^ 16) 1⟩ (by decide) List.length_replicate
  -- Only the first word of the client data is ever looked at.
  generalize given : List.replicate (2 ^ 16) (1 : UInt32) = words at parsed
  obtain ⟨tail, rfl⟩ : ∃ tail, words = 1 :: tail :=
    ⟨List.replicate 65535 1, given.symm.trans List.replicate_succ⟩
  obtain ⟨array, built, reads⟩ := exists_array_of_one_chunk
  have layout : DataLayout.parse (ChunkedLayout.encodeFour ⟨4, 0, [2], 2, .fixedArray 0, 4⟩
      .default) .default = .ok (.chunked ⟨4, 0, [2], 2, .fixedArray 0, 4⟩) := by decide +kernel
  have written : Written .default ⟨[2], [2], [2], 2⟩ (.ofFilters [⟨shuffleId, none, 0, 1 :: tail⟩])
      .builtin 0 [] [([0], [1, 2, 3, 4])] ⟨[1, 2, 3, 4] ++ array,
        ChunkedLayout.encodeFour ⟨4, 0, [2], 2, .fixedArray 0, 4⟩ .default,
        (Pipeline.ofFilters [⟨shuffleId, none, 0, 1 :: tail⟩]).serialize⟩ := by
    refine @Written.intro _ _ _ _ _ _ _ _
      ⟨⟨[1], [1], 4⟩, ⟨⟨[], true⟩, .ofFilters [⟨shuffleId, none, 0, 1 :: tail⟩], .builtin, 2⟩,
        ⟨.default, 0, some 2, [.undefined]⟩⟩
      ⟨⟨[1], [1], 4⟩, ⟨⟨[1, 2, 3, 4], true⟩, .ofFilters [⟨shuffleId, none, 0, 1 :: tail⟩],
        .builtin, 2⟩, ⟨.default, 0, some 2, [⟨0, 4, 0⟩]⟩⟩
      [.ok ⟨0, 4, 0⟩] rfl ?_ rfl ?_ (show 4 + 28 + 1 < 256 ^ 8 by decide)
      (show 1 < 256 ^ 8 by decide) ?_
    · simp [Geometry.Holds, Geometry.rank, Geometry.withinMax]
    · simp
      decide
    · unfold Recording.finish
      rw [show Appender.endPosition _ = 4 from rfl, built]
      rfl
  refine ⟨_, _, _, rfl, ⟨by decide, .cons (by decide) .nil, .cons (by decide) .nil, by decide⟩,
    ⟨show 1 ≤ 32 by decide, ?_⟩, written, ?_, reads⟩
  · intro f mem
    rw [List.mem_singleton.1 mem]
    exact .inl rfl
  · rw [Archive.open, layout, parsed]
    rfl

end Archive

end ChunkStore
