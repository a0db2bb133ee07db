import ChunkStore.Proofs.Dataset.Pointwise

/-!
# Slices of chunks

Copying relies on the lengths of its buffers. `slices_inside` says that it may: whatever the file
holds and whatever was done before, every chunk that a dataset keeps or delivers has the bytes of
one chunk, the runs that a selection takes of it lie inside the chunk and inside the result, and
so a read fails only where a request for a chunk fails.
-/

namespace ChunkStore.Dataset

open Session

variable {image : Image}

/-- Chunks that are kept or delivered are as long as a chunk. Of a selection whose numbers have 64
bits, every run that is copied from a touched chunk lies inside both buffers, copying the part of a
chunk is copying these runs, and it succeeds; a read then fails with the error of a request. -/
theorem slices_inside {d : Dataset} (reached : Reachable image d) :
    (∀ e ∈ d.cache.entries, e.buffer.length = d.chunkBytes) ∧
    (∀ c buffer, ((decodedChunk c).runOn image d).1 = .ok buffer →
      buffer.length = d.chunkBytes) ∧
    ∀ (s : Hyperslab) (n : Nat), (∀ m ∈ d.shape.dims, m ≤ maxWord) →
      s.validate d.shape.dims = .ok () → s.numElements = .ok n →
      n * d.shape.elementSize < UInt64.size / 2 →
      (∀ c ∈ s.chunks d.shape.chunkDims, CopyFits d.shape s c →
        (∀ r ∈ regionRuns c d.shape.chunkDims s,
          r.source * d.shape.elementSize + r.length * d.shape.elementSize ≤ d.chunkBytes ∧
          r.target * d.shape.elementSize + r.length * d.shape.elementSize ≤
            n * d.shape.elementSize) ∧
        ∀ chunk out : Bytes, chunk.length = d.chunkBytes →
          out.length = n * d.shape.elementSize →
            copyRegion chunk c d.shape.chunkDims s d.shape.elementSize out =
              (regionRuns c d.shape.chunkDims s).foldlM (fun out r =>
                copyRun chunk (r.source * d.shape.elementSize) (r.length * d.shape.elementSize) out
                  (r.target * d.shape.elementSize)) out ∧
            ∃ out', copyRegion chunk c d.shape.chunkDims s d.shape.elementSize out = .ok out' ∧
              out'.length = n * d.shape.elementSize) ∧
      ((∀ c ∈ s.chunks d.shape.chunkDims, CopyFits d.shape s c) →
        ∀ e, ((readHyperslab s).runOn image d).1 = .error e →
          ((requests (s.chunks d.shape.chunkDims)).runOn image d).1 = .error e) := by
  obtain ⟨proper, sound⟩ := reached.sound
  have bytes := d.chunkBytes_eq
  have chunkBytes : d.opening.chunkBytes = d.shape.elementSize * d.shape.chunkDims.prod :=
    proper.chunkBytes
  refine ⟨?_, ?_, fun s n words valid counted held => ⟨?_, ?_⟩⟩
  · rw [bytes]
    exact sound.cache.buffers
  · rw [bytes]
    exact fun c => ((meets_decodedChunk (proper.meets_readChunk c)).run d sound).2
  · intro c mem fits
    have some : 0 ∉ s.count := by
      intro empty
      rw [(Hyperslab.chunks_of_empty empty _).2] at mem
      cases mem
    obtain ⟨axes, cut⟩ := exists_cut proper valid words counted held some
    have elements : n = (axes.map Axis.count).prod := by
      rw [(Hyperslab.numElements_eq counted).1, cut.count]
    have own : d.chunkBytes = d.shape.elementSize * (axes.map Axis.chunk).prod := by
      rw [bytes, chunkBytes, show d.shape.chunkDims = _ from cut.chunkDims]
    rw [own, elements]
    refine ⟨cut.inside_bytes mem fits, fun chunk out chunkLength outLength => ?_⟩
    exact ⟨cut.copyRegion_eq mem fits chunk out, _, cut.copies mem fits chunkLength outLength⟩
  · intro fits e failed
    have whole : ReadFits d.shape s :=
      ⟨words, ⟨n, counted, held⟩, fun c mem => (fits c mem).ends,
        fun empty c mem => (fits c mem).places empty⟩
    rcases sound.read proper valid whole image with
      ⟨e', d', asked, read⟩ | ⟨B, out, d', asked, read, -⟩
    · rw [read] at failed
      cases failed
      rw [asked]
    · rw [read] at failed
      cases failed

/-- A chunk with a checksum after it: it is cached without the checksum, and two of its elements are
copied. -/
theorem slices_inside_of_checked_chunk : ∃ d,
    ofLayout .default (.chunked ⟨4, 2, [4], 1, .single (some (8, 0)), 0⟩) ⟨[3], [3], [4], 1⟩
      (.ofFilters [⟨3, none, 0, []⟩]) .default .builtin = .ok d ∧
    ((decodedChunk [0]).runOn [1, 2, 3, 4, 6, 4, 8, 5] d).1 = .ok [1, 2, 3, 4] ∧
    ((decodedChunk [0]).runOn [1, 2, 3, 4, 6, 4, 8, 5] d).2.cache.entries.length = 1 ∧
    (∀ e ∈ ((decodedChunk [0]).runOn [1, 2, 3, 4, 6, 4, 8, 5] d).2.cache.entries,
      e.buffer.length = 4) ∧
    ∃ out, copyRegion [1, 2, 3, 4] [0] [4] ⟨[1], [2]⟩ 1 [0, 0] = .ok out ∧ out.length = 2 := by
  have whole : ∀ (image : Image) d, Reachable image d → d.shape = ⟨[3], [3], [4], 1⟩ →
      d.chunkBytes = 4 → (∀ e ∈ d.cache.entries, e.buffer.length = 4) ∧
        ∃ out, copyRegion [1, 2, 3, 4] [0] [4] ⟨[1], [2]⟩ 1 [0, 0] = .ok out ∧
          out.length = 2 := by
    intro image d reached shape bytes
    obtain ⟨cached, -, reads⟩ := slices_inside reached
    rw [shape, bytes] at reads
    obtain ⟨copied, -⟩ := reads ⟨[1], [2]⟩ 2 (by decide) rfl rfl (by decide)
    have fits : CopyFits ⟨[3], [3], [4], 1⟩ ⟨[1], [2]⟩ [0] :=
      ⟨.cons (by decide) .nil, fun empty => by cases empty⟩
    obtain ⟨-, buffers⟩ := copied [0] (by decide) fits
    exact ⟨bytes ▸ cached, (buffers [1, 2, 3, 4] [0, 0] rfl rfl).2⟩
  have opened : ofLayout .default (.chunked ⟨4, 2, [4], 1, .single (some (8, 0)), 0⟩)
      ⟨[3], [3], [4], 1⟩ (.ofFilters [⟨3, none, 0, []⟩]) .default .builtin =
      .ok ⟨⟨[3], [3], [4], 1⟩, .ofFilters [⟨3, none, 0, []⟩], .builtin,
        .single ⟨.default, ⟨[1], [1], 4⟩, [4], 1, true, true⟩ ⟨0, 8, 0⟩, .ofLimits .default,
        .default, false, false⟩ := rfl
  exact ⟨_, opened, by decide +kernel, by decide +kernel,
    whole _ _ (.intro opened (.requested .here [0])) (by decide +kernel) (by decide +kernel)⟩

end ChunkStore.Dataset
