import ChunkStore.Proofs.Dataset.Assembly

/-!
# Selections, element by element

`readHyperslab_pointwise` is what a read means, in every state that an open dataset can be in: it
requests the chunks of the selected elements, each once and in row-major order, fails as the first
request that fails, and else gives for every selected element the bytes that the element has in
its chunk.
-/

namespace ChunkStore.Dataset

open Session Coordinate

variable {image : Image} {s : Hyperslab}

theorem runOn_readHyperslab (image : Image) (d : Dataset) (valid : s.validate d.shape.dims = .ok ())
    {n : Nat} (counted : s.numElements = .ok n)
    (held : n * d.shape.elementSize < UInt64.size / 2) {span : Option Box}
    (spanned : s.chunkSpan d.shape.chunkDims = .ok span) :
    (readHyperslab s).runOn image d =
      ((s.chunks d.shape.chunkDims).foldlM (addChunk s)
        (List.replicate (n * d.shape.elementSize) 0)).runOn image d := by
  have bytes : selectedBytes s d.shape.elementSize = .ok (n * d.shape.elementSize) := by
    have half : UInt64.size / 2 ≤ maxWord := by decide
    have word : checked (n * d.shape.elementSize) = some (n * d.shape.elementSize) :=
      if_pos (by omega)
    simp only [selectedBytes, counted, bind, Except.bind, word]
    rfl
  have room : checkHeld (n * d.shape.elementSize) = .ok () := if_pos held
  rw [readHyperslab, runOn_get_bind]
  dsimp only
  rw [valid, bytes]
  rw [runOn_bind_ok image (runOn_ofExcept image d _),
    runOn_bind_ok image (runOn_ofExcept image d _), room,
    runOn_bind_ok image (runOn_ofExcept image d _), spanned,
    runOn_bind_ok image (runOn_ofExcept image d _), Hyperslab.chunks, spanned]
  cases span with
  | none => rfl
  | some span =>
    dsimp only
    rw [Box.visitAll_eq]

/-- The copies of a selection that is not empty. -/
theorem Plan.runOn_copies {o : Opening} {axes : List Axis} (proper : o.Proper)
    (plan : Plan o.shape s axes) (image : Image) {d : Dataset} (sound : Uniform o d) :
    (∃ e d', (requests (s.chunks o.shape.chunkDims)).runOn image d = (.error e, d') ∧
      ((s.chunks o.shape.chunkDims).foldlM (addChunk s)
        (List.replicate (s.count.prod * o.shape.elementSize) 0)).runOn image d =
          (.error e, d')) ∨
    ∃ B out d',
      (requests (s.chunks o.shape.chunkDims)).runOn image d =
        (.ok ((s.chunks o.shape.chunkDims).map B), d') ∧
      ((s.chunks o.shape.chunkDims).foldlM (addChunk s)
        (List.replicate (s.count.prod * o.shape.elementSize) 0)).runOn image d =
          (.ok out, d') ∧
      out.length = s.count.prod * o.shape.elementSize ∧
      ∀ x, s.Selects x →
        slice out (rowMajor (List.zipWith (· - ·) x s.start) s.count * o.shape.elementSize)
            o.shape.elementSize =
          slice (B (List.zipWith (· / ·) x o.shape.chunkDims))
            (rowMajor (List.zipWith (· % ·) x o.shape.chunkDims) o.shape.chunkDims *
              o.shape.elementSize)
            o.shape.elementSize := by
  have chunkBytes : o.chunkBytes = o.shape.elementSize * (axes.map Axis.chunk).prod := by
    rw [← plan.chunkDims]
    exact proper.chunkBytes
  have blank : (List.replicate (s.count.prod * o.shape.elementSize) 0 : Bytes).length =
      (axes.map Axis.count).prod * o.shape.elementSize := by
    rw [List.length_replicate, plan.count]
  have copies : ∀ c ∈ s.chunks o.shape.chunkDims, ∀ chunk out : Bytes,
      chunk.length = o.chunkBytes →
      out.length = (axes.map Axis.count).prod * o.shape.elementSize →
        copyRegion chunk c o.shape.chunkDims s o.shape.elementSize out =
            .ok (place o.shape s out c chunk) ∧
          (place o.shape s out c chunk).length =
            (axes.map Axis.count).prod * o.shape.elementSize :=
    fun c mem chunk out chunkLength => plan.copies mem (chunkLength.trans chunkBytes)
  rcases runOn_foldlM_addChunk image proper copies sound blank with
    failed | ⟨buffers, d', got, count, lengths, folded⟩
  · exact .inl failed
  obtain ⟨B, rfl⟩ := exists_map_of_nodup (Hyperslab.nodup_chunks _ _) count
  have lengths' : ∀ c ∈ s.chunks o.shape.chunkDims,
      (B c).length = o.shape.elementSize * (axes.map Axis.chunk).prod := fun c mem =>
    (lengths (B c) (List.mem_map_of_mem mem)).trans chunkBytes
  have pairs : (s.chunks o.shape.chunkDims).zip ((s.chunks o.shape.chunkDims).map B) =
      (s.chunks o.shape.chunkDims).map fun c => (c, B c) := by
    have both := List.zip_map' (f := id) (g := B) (l := s.chunks o.shape.chunkDims)
    rwa [List.map_id] at both
  rw [pairs, List.foldl_map] at folded
  refine .inr ⟨B, _, d', got, folded, ?_, fun x selected => ?_⟩
  · have length := plan.length_assemble (fun c mem => mem) lengths' blank
    rwa [← plan.count] at length
  · have along := plan.selects_iff.1 selected
    have own := plan.mem_chunks_iff_exists.2 ⟨x, selected, rfl⟩
    have element := plan.slice_assemble (fun c mem => mem) lengths' blank along
    rwa [← plan.chunkDims, if_pos own, placeInResult, placeInChunk, ← plan.start, ← plan.count,
      ← plan.chunkDims] at element

/-! ## Selections of any kind -/

variable {o : Opening}

/-- The chunks that a read asks for are those of the selected elements. -/
theorem mem_chunks_iff (proper : o.Proper) (valid : s.validate o.shape.dims = .ok ())
    (fits : ReadFits o.shape s) {c : Coordinate} :
    c ∈ s.chunks o.shape.chunkDims ↔
      ∃ x, s.Selects x ∧ List.zipWith (· / ·) x o.shape.chunkDims = c := by
  by_cases empty : 0 ∈ s.count
  · have ranks := Hyperslab.ranks_of_validate valid
    rw [(Hyperslab.chunks_of_empty empty o.shape.chunkDims).2]
    refine ⟨fun mem => absurd mem List.not_mem_nil, ?_⟩
    rintro ⟨x, selected, -⟩
    exact absurd selected (Hyperslab.not_selects_of_empty empty ranks.1.symm x)
  · obtain ⟨axes, plan⟩ := exists_plan proper valid fits empty
    exact plan.mem_chunks_iff_exists

/-- Every byte of the result is filled from one chunk, and the others spare it. -/
theorem exists_fills (proper : o.Proper) (valid : s.validate o.shape.dims = .ok ())
    (fits : ReadFits o.shape s) {i : Nat} (lt : i < s.count.prod * o.shape.elementSize) :
    ∃ c ∈ s.chunks o.shape.chunkDims, (∃ j, Fills o.shape s c i j) ∧
      ∀ c' ∈ s.chunks o.shape.chunkDims, c' ≠ c → Spares o.shape s c' i := by
  by_cases empty : 0 ∈ s.count
  · have zero : s.count.prod = 0 := List.prod_eq_zero_iff_exists_zero_nat.2 ⟨0, empty, rfl⟩
    rw [zero, Nat.zero_mul] at lt
    exact absurd lt (Nat.not_lt_zero i)
  · obtain ⟨axes, plan⟩ := exists_plan proper valid fits empty
    exact plan.exists_fills lt

/-- A read fails with the first request that fails, and else has every selected element from its
chunk. -/
theorem Uniform.read {d : Dataset} (proper : d.opening.Proper) (sound : Uniform d.opening d)
    (valid : s.validate d.shape.dims = .ok ()) (fits : ReadFits d.shape s) (image : Image) :
    (∃ e d', (requests (s.chunks d.shape.chunkDims)).runOn image d = (.error e, d') ∧
      (readHyperslab s).runOn image d = (.error e, d')) ∨
    ∃ B out d',
      (requests (s.chunks d.shape.chunkDims)).runOn image d =
        (.ok ((s.chunks d.shape.chunkDims).map B), d') ∧
      (readHyperslab s).runOn image d = (.ok out, d') ∧
      (∃ n, s.numElements = .ok n ∧ out.length = n * d.shape.elementSize) ∧
      ∀ x, s.Selects x →
        slice out (rowMajor (List.zipWith (· - ·) x s.start) s.count * d.shape.elementSize)
            d.shape.elementSize =
          slice (B (List.zipWith (· / ·) x d.shape.chunkDims))
            (rowMajor (List.zipWith (· % ·) x d.shape.chunkDims) d.shape.chunkDims *
              d.shape.elementSize)
            d.shape.elementSize := by
  obtain ⟨n, counted, held⟩ := fits.result
  by_cases empty : 0 ∈ s.count
  · obtain ⟨spanned, none⟩ := Hyperslab.chunks_of_empty empty d.shape.chunkDims
    have ranks := Hyperslab.ranks_of_validate valid
    have read := runOn_readHyperslab image d valid counted held spanned
    rw [none] at read ⊢
    refine .inr ⟨fun _ => [], _, d, rfl, read, ⟨n, counted, List.length_replicate⟩, ?_⟩
    intro x selected
    exact absurd selected (Hyperslab.not_selects_of_empty empty ranks.1.symm x)
  · obtain ⟨axes, plan⟩ := exists_plan proper valid fits empty
    obtain ⟨product, -⟩ := Hyperslab.numElements_eq counted
    have spanned : s.chunkSpan d.shape.chunkDims = .ok (axes.map Axis.span) := by
      rw [plan.selection, show d.shape.chunkDims = _ from plan.chunkDims]
      exact (Hyperslab.chunks_axes plan.fits).1
    have read := runOn_readHyperslab image d valid counted held spanned
    rw [product] at read
    rcases plan.runOn_copies proper image sound with
      ⟨e, d', failed, folded⟩ | ⟨B, out, d', got, folded, length, elements⟩
    · exact .inl ⟨e, d', failed, read.trans folded⟩
    · refine .inr ⟨B, out, d', got, read.trans folded, ⟨n, counted, ?_⟩, elements⟩
      rw [product]
      exact length

/-- A selection is read element by element: from the chunk of the element, at its place there. -/
theorem readHyperslab_pointwise {d : Dataset} (reached : Reachable image d)
    (valid : s.validate d.shape.dims = .ok ()) (fits : ReadFits d.shape s) :
    -- The chunks that are requested are those of the selected elements, in row-major order.
    ((s.chunks d.shape.chunkDims).Pairwise (fun c c' => lexCompare c c' = .lt) ∧
      ∀ c, c ∈ s.chunks d.shape.chunkDims ↔
        ∃ x, s.Selects x ∧ List.zipWith (· / ·) x d.shape.chunkDims = c) ∧
    -- The first request that fails ends the read; else every selected element has its bytes.
    ((∃ e d', (requests (s.chunks d.shape.chunkDims)).runOn image d = (.error e, d') ∧
        (readHyperslab s).runOn image d = (.error e, d')) ∨
      ∃ B out d',
        (requests (s.chunks d.shape.chunkDims)).runOn image d =
          (.ok ((s.chunks d.shape.chunkDims).map B), d') ∧
        (readHyperslab s).runOn image d = (.ok out, d') ∧
        (∃ n, s.numElements = .ok n ∧ out.length = n * d.shape.elementSize) ∧
        ∀ x, s.Selects x →
          slice out (rowMajor (List.zipWith (· - ·) x s.start) s.count * d.shape.elementSize)
              d.shape.elementSize =
            slice (B (List.zipWith (· / ·) x d.shape.chunkDims))
              (rowMajor (List.zipWith (· % ·) x d.shape.chunkDims) d.shape.chunkDims *
                d.shape.elementSize)
              d.shape.elementSize) ∧
    -- Every byte of the result is written by one chunk only.
    ∀ i < s.count.prod * d.shape.elementSize,
      ∃ c ∈ s.chunks d.shape.chunkDims, (∃ j, Fills d.shape s c i j) ∧
        ∀ c' ∈ s.chunks d.shape.chunkDims, c' ≠ c → Spares d.shape s c' i := by
  obtain ⟨proper, sound⟩ := reached.sound
  refine ⟨⟨Hyperslab.pairwise_chunks s _, fun c => mem_chunks_iff proper valid fits⟩, ?_, ?_⟩
  · exact sound.read proper valid fits image
  · exact fun i lt => exists_fills proper valid fits lt

/-- One element of each of four chunks, after the last of them was requested. -/
theorem readHyperslab_corners : ∃ d,
    ofLayout .default (.chunked ⟨4, 0, [2, 2], 1, .implicit, 0⟩) ⟨[3, 3], [3, 3], [2, 2], 1⟩ .empty
      .default .empty = .ok d ∧
    ∃ out d', (readHyperslab ⟨[1, 1], [2, 2]⟩).runOn
        [0, 1, 2, 3, 4, 5, 6, 7, 8, 9, 10, 11, 12, 13, 14, 15]
        ((decodedChunk [1, 1]).runOn
          [0, 1, 2, 3, 4, 5, 6, 7, 8, 9, 10, 11, 12, 13, 14, 15] d).2 = (.ok out, d') ∧
      slice out 3 1 = [12] := by
  have fits : ReadFits ⟨[3, 3], [3, 3], [2, 2], 1⟩ ⟨[1, 1], [2, 2]⟩ :=
    ⟨by decide, ⟨4, rfl, by decide⟩, by decide, by decide⟩
  have fourth : ∀ (image : Image) d, Reachable image d → d.shape = ⟨[3, 3], [3, 3], [2, 2], 1⟩ →
      ((requests [[0, 0], [0, 1], [1, 0], [1, 1]]).runOn image d).1 =
        .ok [[0, 1, 2, 3], [4, 5, 6, 7], [8, 9, 10, 11], [12, 13, 14, 15]] →
      ∃ out d', (readHyperslab ⟨[1, 1], [2, 2]⟩).runOn image d = (.ok out, d') ∧
        slice out 3 1 = [12] := by
    intro image d reached shape requested
    have pointwise := @readHyperslab_pointwise image ⟨[1, 1], [2, 2]⟩ d reached
    rw [shape] at pointwise
    obtain ⟨-, answer, -⟩ := pointwise rfl fits
    have chunks : Hyperslab.chunks ⟨[1, 1], [2, 2]⟩ [2, 2] =
        [[0, 0], [0, 1], [1, 0], [1, 1]] := by decide
    rw [chunks] at answer
    rcases answer with ⟨e, d', failed, -⟩ | ⟨B, out, d', got, read, -, elements⟩
    · rw [failed] at requested
      cases requested
    · rw [got] at requested
      obtain ⟨-, -, -, buffer⟩ := by simpa using requested
      have element := elements [2, 2]
        (.cons ⟨by decide, by decide⟩ (.cons ⟨by decide, by decide⟩ .nil))
      refine ⟨out, d', read, element.trans ?_⟩
      show slice (B [1, 1]) 0 1 = [12]
      rw [buffer]
      rfl
  have opened : ofLayout .default (.chunked ⟨4, 0, [2, 2], 1, .implicit, 0⟩)
      ⟨[3, 3], [3, 3], [2, 2], 1⟩ .empty .default .empty =
      .ok ⟨⟨[3, 3], [3, 3], [2, 2], 1⟩, .empty, .empty,
        .implicit ⟨.default, ⟨[2, 2], [2, 2], 4⟩, [2, 2], 1, false, true⟩ 0,
        .ofLimits .default, .default, false, false⟩ := rfl
  exact ⟨_, opened, fourth _ _ (.intro opened (.requested .here [1, 1])) (by decide +kernel)
    (by decide +kernel)⟩

end ChunkStore.Dataset
