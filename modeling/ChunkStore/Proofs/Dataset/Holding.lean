import ChunkStore.Proofs.Dataset.Pointwise
import ChunkStore.Proofs.FixedArray.Lookup

/-!
# Datasets over an array that was built

`Holding` says of every coordinate which content its chunk has: what stands in the file where the
array says, with the filters undone, and fill values where the array has nothing. A dataset that
was opened on the array delivers this content in every state (`Holding.answers_requests`,
`Holding.sound_later`), so a read has every selected element from the content of its chunk
(`Holding.read`).
-/

namespace ChunkStore

open Index Session Coordinate

/-- What a lookup answers at a coordinate of the right rank. -/
def FixedArrayBuilder.answerAt (b : FixedArrayBuilder) (s : Settings) (c : Coordinate) :
    Descriptor :=
  if s.geometry.withinMax c then
    s.readBack (b.entries.getD (linearIndex c s.geometry.downMaxCounts) .undefined)
  else .undefined

namespace FixedArrayBuilder.Laid

variable {b : FixedArrayBuilder} {s : Settings} {address : Nat} {file : Image}

theorem meets_lookup (laid : b.Laid s address file) (c : Coordinate) :
    Meets file (b.Serves s address) (ChunkIndex.lookup c) fun _ => True := by
  refine ⟨fun ix serves => ?_⟩
  obtain ⟨ix', run, serves'⟩ := laid.runOn_lookup serves c
  rw [run]
  exact ⟨serves', fun _ _ => trivial⟩

/-- A coordinate of another rank has no answer. -/
theorem meets_lookup_rank (laid : b.Laid s address file) {c : Coordinate} {e : Error}
    (wrong : s.geometry.checkRank c = .error e) :
    Meets file (b.Serves s address) (ChunkIndex.lookup c) fun _ => False := by
  refine ⟨fun ix serves => ?_⟩
  obtain ⟨ix', run, serves'⟩ := laid.runOn_lookup serves c
  rw [run, wrong]
  exact ⟨serves', fun _ answer => by cases answer⟩

end FixedArrayBuilder.Laid

namespace Dataset

/-- A chunk of fill values. -/
def Opening.fillChunk (o : Opening) : Bytes :=
  match o.properties.fillValue with
  | none => List.replicate o.chunkBytes 0
  | some fill => repeatFill fill o.chunkBytes

theorem fillChunk_eq (d : Dataset) : d.fillChunk = d.opening.fillChunk := by
  rw [fillChunk, Opening.fillChunk, ← chunkBytes_eq]
  rfl

/-- The descriptor leads to the content: to the bytes themselves or to what the filters give back,
and without an allocation to fill values. -/
inductive Opening.Delivers (o : Opening) (image : Image) (d : Descriptor) (content : Bytes) :
    Prop where
  | free (nowhere : d.isAllocated = false) (fill : content = o.fillChunk)
  | plain (somewhere : d.isAllocated = true) (plain : o.pipeline.isEmpty = true)
      (placed : Placed image d.address content) (length : content.length = o.chunkBytes)
  | filtered {stored : Bytes} (somewhere : d.isAllocated = true)
      (filters : o.pipeline.isEmpty = false) (placed : Placed image d.address stored)
      (size : stored.length = d.storedSize)
      (undone : o.registry.decode o.pipeline d.filterMask stored o.shape.elementSize
        o.chunkBytes = .ok content)
      (length : content.length = o.chunkBytes)

/-- The array stands in the file, and for every coordinate it leads to the content. -/
structure Holding (o : Opening) (b : FixedArrayBuilder) (s : Settings) (address : Nat)
    (image : Image) (content : Coordinate → Bytes) : Prop where
  laid : b.Laid s address image
  whole : o.skipsPartialChunks = false
  delivers : ∀ c, s.geometry.checkRank c = .ok () → o.Delivers image (b.answerAt s c) (content c)

/-- The dataset is as it was opened or was used since, and nothing but content is in its cache. -/
abbrev Tracks (o : Opening) (b : FixedArrayBuilder) (s : Settings) (address : Nat)
    (content : Coordinate → Bytes) : Dataset → Prop :=
  Sound o (b.Serves s address) fun c buffer => buffer = content c

/-- Cancelling was asked for, or it was not. -/
def Asked (asked : Bool) (inv : Dataset → Prop) (d : Dataset) : Prop := inv d ∧ d.cancelled = asked

namespace Holding

variable {o : Opening} {b : FixedArrayBuilder} {s : Settings} {address : Nat} {image : Image}
  {content : Coordinate → Bytes} {asked : Bool}

theorem answers_lookup (holding : Holding o b s address image content) {c : Coordinate}
    (rank : s.geometry.checkRank c = .ok ()) :
    Answers image (Asked asked (Tracks o b s address content)) (lookup c) (b.answerAt s c) := by
  refine ⟨fun d ⟨tracks, flag⟩ => ?_⟩
  obtain ⟨ix', run, -⟩ := holding.laid.runOn_lookup tracks.index c
  have tracks' := ((meets_lookup (holding.laid.meets_lookup c)).run d tracks).1
  rw [lookup, runOn_zoom, run, rank] at tracks' ⊢
  exact ⟨_, rfl, tracks', flag⟩

theorem answers_readChunk (holding : Holding o b s address image content) {c : Coordinate}
    (rank : s.geometry.checkRank c = .ok ()) :
    Answers image (Asked asked (Tracks o b s address content)) (readChunk c) (content c) := by
  apply Answers.get_bind
  rintro d ⟨tracks, -⟩
  apply Answers.bind (holding.answers_lookup rank)
  have opened := tracks.opening
  have bytes : d.chunkBytes = o.chunkBytes := by rw [chunkBytes_eq, opened]
  have unfiltered : d.isUnfiltered c = o.pipeline.isEmpty := by
    have whole := holding.whole
    rw [← opened] at whole ⊢
    rw [isUnfiltered, show d.skipsPartialChunks = false from whole, Bool.false_and, Bool.or_false]
    rfl
  cases holding.delivers c rank with
  | free nowhere fill =>
    rw [fill, ← opened, ← fillChunk_eq]
    exact .ite_pos (by rw [nowhere]; rfl) (.pure _)
  | plain somewhere plain placed length =>
    refine .ite_neg (by rw [somewhere]; decide) (.ite_pos (by rw [unfiltered, plain]) ?_)
    exact .fetch (placed.read (bytes.trans length.symm))
  | @filtered stored somewhere filters placed size undone length =>
    refine .ite_neg (by rw [somewhere]; decide) (.ite_neg (by rw [unfiltered, filters]; decide) ?_)
    refine .bind (.fetch (placed.read size.symm)) (.ofExcept ?_)
    have decoded : d.registry.decode d.pipeline (b.answerAt s c).filterMask stored
        d.shape.elementSize d.chunkBytes = .ok (content c) := by
      rw [bytes]
      rw [← opened] at undone ⊢
      exact undone
    rw [undoFilters, decoded]
    exact if_neg (by rw [length, bytes]; exact fun differ => differ rfl)

/-- Chunks that are read have the content of their coordinate, in every state. -/
theorem meets_readChunk (holding : Holding o b s address image content) (c : Coordinate) :
    Meets image (Tracks o b s address content) (readChunk c) fun buffer => buffer = content c := by
  cases rank : s.geometry.checkRank c with
  | error e =>
    apply Meets.get_bind
    intro d _
    exact .bind (meets_lookup (holding.laid.meets_lookup_rank rank)) fun _ none => none.elim
  | ok =>
    refine ⟨fun d tracks => ?_⟩
    have answers : Answers image (Asked d.cancelled _) (readChunk c) (content c) :=
      holding.answers_readChunk rank
    obtain ⟨d', run, tracks', -⟩ := answers.run d ⟨tracks, rfl⟩
    rw [run]
    refine ⟨tracks', fun buffer answer => ?_⟩
    cases answer
    rfl

/-- The chunks have their content in every state that follows. -/
theorem sound_later (holding : Holding o b s address image content) {d d' : Dataset}
    (later : Later image d d') (tracks : Tracks o b s address content d) :
    Tracks o b s address content d' :=
  Sound.later holding.laid.meets_lookup holding.meets_readChunk later tracks

/-- A chunk is delivered from the cache or from the file, unless the read was cancelled. -/
theorem answers_decodedChunk (holding : Holding o b s address image content)
    (going : (o.properties.cancellable && asked) = false) {c : Coordinate}
    (rank : s.geometry.checkRank c = .ok ()) :
    Answers image (Asked asked (Tracks o b s address content)) (decodedChunk c) (content c) := by
  apply Answers.get_bind
  rintro d ⟨tracks, flag⟩
  refine .ite_neg ?_ ?_
  · rw [← tracks.opening, ← flag] at going
    rw [isCancelled, show (d.properties.cancellable && d.cancelled) = false from going]
    decide
  obtain ⟨kept, answers⟩ := tracks.cache.request c
  cases request : d.cache.request c with
  | mk cached cache =>
    rw [request] at kept answers
    apply Answers.bind (.set ⟨⟨tracks.opening, tracks.index, kept⟩, flag⟩)
    cases cached with
    | some buffer =>
      rw [← answers buffer rfl]
      exact .pure buffer
    | none =>
      apply Answers.bind (holding.answers_readChunk rank)
      refine .bind (.modify ?_) (.pure _)
      rintro d ⟨tracks, flag⟩
      exact ⟨⟨tracks.opening, tracks.index, tracks.cache.retain rfl⟩, flag⟩

theorem answers_requests (holding : Holding o b s address image content)
    (going : (o.properties.cancellable && asked) = false) {cs : List Coordinate}
    (ranks : ∀ c ∈ cs, s.geometry.checkRank c = .ok ()) :
    Answers image (Asked asked (Tracks o b s address content)) (requests cs) (cs.map content) := by
  induction cs with
  | nil => exact .pure []
  | cons c cs ih =>
    have others := ih fun c mem => ranks c (List.mem_cons_of_mem _ mem)
    exact .bind (holding.answers_decodedChunk going (ranks c List.mem_cons_self))
      (.bind others (.pure _))

/-- A read that is not cancelled has every selected element from the content of its chunk. -/
theorem read (holding : Holding o b s address image content) (proper : o.Proper)
    (rank : s.geometry.rank = o.shape.dims.length) {d : Dataset} (uniform : Uniform o d)
    (tracks : Tracks o b s address content d) (going : d.isCancelled = false) {sel : Hyperslab}
    (valid : sel.validate o.shape.dims = .ok ()) (fits : ReadFits o.shape sel) :
    ∃ out d', (readHyperslab sel).runOn image d = (.ok out, d') ∧
      (∃ n, sel.numElements = .ok n ∧ out.length = n * o.shape.elementSize) ∧
      ∀ x, sel.Selects x →
        slice out (rowMajor (List.zipWith (· - ·) x sel.start) sel.count * o.shape.elementSize)
            o.shape.elementSize =
          slice (content (List.zipWith (· / ·) x o.shape.chunkDims))
            (rowMajor (List.zipWith (· % ·) x o.shape.chunkDims) o.shape.chunkDims *
              o.shape.elementSize)
            o.shape.elementSize := by
  have opened := tracks.opening
  have ranks : ∀ c ∈ sel.chunks o.shape.chunkDims, s.geometry.checkRank c = .ok () := by
    intro c mem
    obtain ⟨x, selected, rfl⟩ := (mem_chunks_iff proper valid fits).1 mem
    have ranks := Hyperslab.ranks_of_validate valid
    have length := selected.length_eq
    have chunkRank := proper.chunkRank
    rw [List.length_zip] at length
    refine if_pos ?_
    rw [List.length_zipWith]
    omega
  have asked : (o.properties.cancellable && d.cancelled) = false := by
    rw [← opened]
    exact going
  obtain ⟨d', got, -⟩ := (holding.answers_requests asked ranks).run d ⟨tracks, rfl⟩
  rw [← opened] at proper uniform valid fits got ⊢
  rcases uniform.read proper valid fits image with
    ⟨e, d'', failed, -⟩ | ⟨B, out, d'', requested, ran, length, elements⟩
  · cases (Prod.ext_iff.1 (failed.symm.trans got)).1
  · obtain ⟨same, -⟩ := Prod.ext_iff.1 (requested.symm.trans got)
    have buffers := List.map_inj_left.1 (Except.ok.inj same)
    refine ⟨out, d'', ran, length, fun x selected => ?_⟩
    have own := (mem_chunks_iff proper valid fits).2 ⟨x, selected, rfl⟩
    rw [← buffers _ own]
    exact elements x selected

end Holding

end Dataset

end ChunkStore
