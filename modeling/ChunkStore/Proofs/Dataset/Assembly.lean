import ChunkStore.Proofs.Dataset.Reachable
import ChunkStore.Proofs.Dataset.Region

/-!
# A selection put together from chunks

Reading a selection requests the touched chunks one after another (`requests`) and copies from
each one what the selection takes of it. `runOn_foldlM_addChunk` separates the two;
`slice_assemble` follows one element through the copies.
-/

namespace ChunkStore.Dataset

open Session Coordinate

/-- Requests one after another, until one fails. -/
def requests : List Coordinate → Session Dataset (List Bytes)
  | [] => return []
  | c :: cs => do return (← decodedChunk c) :: (← requests cs)

/-- No number that a read computes leaves 64 bits, and memory can hold its result. -/
structure ReadFits (shape : Shape) (s : Hyperslab) : Prop where
  /-- Extents are 64-bit numbers. -/
  words : ∀ n ∈ shape.dims, n ≤ maxWord
  /-- The elements can be counted, and so can their bytes. -/
  result : ∃ n, s.numElements = .ok n ∧ n * shape.elementSize < UInt64.size / 2
  /-- The touched chunks end at 64-bit numbers. -/
  ends : ∀ c ∈ s.chunks shape.chunkDims,
    List.Forall₂ (fun c k => c * k + k ≤ maxWord) c shape.chunkDims
  /-- Places are 64-bit numbers; of elements that have bytes they always are. -/
  places : shape.elementSize = 0 → ∀ c ∈ s.chunks shape.chunkDims,
    ∀ r ∈ regionRuns c shape.chunkDims s, r.source ≤ maxWord ∧ r.target ≤ maxWord

/-- No number that copying from the chunk at `c` computes leaves 64 bits. -/
structure CopyFits (shape : Shape) (s : Hyperslab) (c : Coordinate) : Prop where
  /-- The chunk ends at 64-bit numbers. -/
  ends : List.Forall₂ (fun c k => c * k + k ≤ maxWord) c shape.chunkDims
  /-- Places are 64-bit numbers; of elements that have bytes they always are. -/
  places : shape.elementSize = 0 →
    ∀ r ∈ regionRuns c shape.chunkDims s, r.source ≤ maxWord ∧ r.target ≤ maxWord

/-- The result after the part of one chunk was copied. -/
def place (shape : Shape) (s : Hyperslab) (out : Bytes) (c : Coordinate) (chunk : Bytes) : Bytes :=
  (regionRuns c shape.chunkDims s).foldl (Run.copy shape.elementSize chunk) out

/-- Copying the part of the chunk at `c` puts byte `j` of the chunk at byte `i` of the result. -/
def Fills (shape : Shape) (s : Hyperslab) (c : Coordinate) (i j : Nat) : Prop :=
  ∀ chunk out : Bytes, chunk.length = shape.elementSize * shape.chunkDims.prod →
    out.length = s.count.prod * shape.elementSize →
      ∃ out', copyRegion chunk c shape.chunkDims s shape.elementSize out = .ok out' ∧
        out'[i]? = chunk[j]?

/-- Copying the part of the chunk at `c` leaves byte `i` of the result as it is. -/
def Spares (shape : Shape) (s : Hyperslab) (c : Coordinate) (i : Nat) : Prop :=
  ∀ chunk out : Bytes, chunk.length = shape.elementSize * shape.chunkDims.prod →
    out.length = s.count.prod * shape.elementSize →
      ∃ out', copyRegion chunk c shape.chunkDims s shape.elementSize out = .ok out' ∧
        out'[i]? = out[i]?

/-! ## Requests and copies -/

variable {o : Opening} {s : Hyperslab}

/-- Requests answer together exactly when the first and then the others do. -/
theorem delivered_cons_iff {image : Image} {c : Coordinate} {cs : List Coordinate}
    {d d₁ : Dataset} {chunk : Bytes} (run : (decodedChunk c).runOn image d = (.ok chunk, d₁)) :
    (∃ buffers, ((requests (c :: cs)).runOn image d).1 = .ok buffers) ↔
      ∃ buffers, ((requests cs).runOn image d₁).1 = .ok buffers := by
  rw [requests, runOn_bind_ok image run, runOn_bind]
  rcases (requests cs).runOn image d₁ with ⟨_ | buffers, d₂⟩
  · exact iff_of_false nofun nofun
  · exact iff_of_true ⟨_, rfl⟩ ⟨buffers, rfl⟩

/-- A chunk that was delivered is copied with the shape that the dataset has. -/
theorem runOn_addChunk {image : Image} {c : Coordinate} {d d₁ : Dataset} {chunk : Bytes}
    (run : (decodedChunk c).runOn image d = (.ok chunk, d₁)) (opening : d₁.opening = o)
    (out : Bytes) :
    (addChunk s out c).runOn image d =
      (copyRegion chunk c o.shape.chunkDims s o.shape.elementSize out, d₁) := by
  have shape : d₁.shape = o.shape := congrArg Opening.shape opening
  rw [addChunk, runOn_bind_ok image run, runOn_get_bind, runOn_liftM, shape]

/-- A read fails with the first request that fails, and else copies what was requested. -/
theorem runOn_foldlM_addChunk (image : Image) (proper : o.Proper) {length : Nat}
    {coordinates : List Coordinate}
    (copies : ∀ c ∈ coordinates, ∀ chunk out : Bytes, chunk.length = o.chunkBytes →
      out.length = length →
        copyRegion chunk c o.shape.chunkDims s o.shape.elementSize out =
          .ok (place o.shape s out c chunk) ∧ (place o.shape s out c chunk).length = length)
    {d : Dataset} (sound : Uniform o d) {out : Bytes} (outLength : out.length = length) :
    (∃ e d', (requests coordinates).runOn image d = (.error e, d') ∧
      (coordinates.foldlM (addChunk s) out).runOn image d = (.error e, d')) ∨
    (∃ buffers d', (requests coordinates).runOn image d = (.ok buffers, d') ∧
      buffers.length = coordinates.length ∧ (∀ b ∈ buffers, b.length = o.chunkBytes) ∧
      (coordinates.foldlM (addChunk s) out).runOn image d =
        (.ok ((coordinates.zip buffers).foldl (fun out p => place o.shape s out p.1 p.2) out),
          d')) := by
  induction coordinates generalizing d out with
  | nil =>
    refine .inr ⟨[], d, rfl, rfl, ?_, rfl⟩
    intro b mem
    cases mem
  | cons c cs ih =>
    obtain ⟨kept, answers⟩ := (meets_decodedChunk (proper.meets_readChunk c)).run d sound
    rw [requests, List.foldlM_cons]
    cases run : (decodedChunk c).runOn image d with
    | mk result d₁ =>
      rw [run] at kept answers
      cases result with
      | error e =>
        refine .inl ⟨e, d₁, runOn_bind_error image run, ?_⟩
        exact runOn_bind_error image (runOn_bind_error image run)
      | ok chunk =>
        have chunkLength := answers chunk rfl
        obtain ⟨copied, outLength'⟩ := copies c List.mem_cons_self chunk out chunkLength outLength
        have added := runOn_addChunk (s := s) run kept.opening out
        rw [copied] at added
        rw [runOn_bind_ok image run, runOn_bind_ok image added]
        rcases ih (fun c' mem => copies c' (List.mem_cons_of_mem c mem)) kept outLength' with
          ⟨e, d', failed, read⟩ | ⟨buffers, d', got, count, lengths, read⟩
        · exact .inl ⟨e, d', runOn_bind_error image failed, read⟩
        · refine .inr ⟨chunk :: buffers, d', ?_, congrArg Nat.succ count, ?_, read⟩
          · rw [runOn_bind_ok image got]
            rfl
          · intro b mem
            rcases List.mem_cons.1 mem with rfl | later
            · exact chunkLength
            · exact lengths b later

/-- Buffers for coordinates that differ are the values of a function. -/
theorem exists_map_of_nodup {coordinates : List Coordinate} {buffers : List Bytes}
    (nodup : coordinates.Nodup) (length : buffers.length = coordinates.length) :
    ∃ B : Coordinate → Bytes, buffers = coordinates.map B := by
  induction coordinates generalizing buffers with
  | nil => exact ⟨fun _ => [], List.length_eq_zero_iff.1 length⟩
  | cons c cs ih =>
    obtain _ | ⟨b, bs⟩ := buffers
    · cases length
    obtain ⟨fresh, rest⟩ := List.nodup_cons.1 nodup
    obtain ⟨B, rfl⟩ := ih rest (Nat.succ.inj length)
    refine ⟨fun c' => if c' = c then b else B c', ?_⟩
    rw [List.map_cons, if_pos rfl]
    congr 1
    refine List.map_congr_left fun c' mem => ?_
    have other : c' ≠ c := fun same => fresh (same ▸ mem)
    rw [if_neg other]

/-- The runs of a touched chunk. -/
theorem regionRuns_axes {axes : List Axis} {c : Coordinate} (fits : ∀ a ∈ axes, a.Fits)
    (touched : List.Forall₂ (fun c a => (Axis.common c a).1 ≤ (Axis.common c a).2) c axes)
    (ends : List.Forall₂ (fun c (a : Axis) => c * a.chunk + a.chunk ≤ maxWord) c axes) :
    regionRuns c (axes.map Axis.chunk) ⟨axes.map Axis.start, axes.map Axis.count⟩ =
      runsOf c (axes.map Axis.chunk) ⟨axes.map Axis.start, axes.map Axis.count⟩
        (List.zipWith Axis.common c axes) := by
  rw [regionRuns, overlap_axes fits touched ends]

/-! ## Selections that are not empty -/

/-- A selection that is not empty, cut into chunks along one axis for each dimension, of which the
elements and the bytes can be counted. -/
structure Cut (shape : Shape) (s : Hyperslab) (axes : List Axis) : Prop where
  start : s.start = axes.map Axis.start
  count : s.count = axes.map Axis.count
  chunkDims : shape.chunkDims = axes.map Axis.chunk
  fits : ∀ a ∈ axes, a.Fits
  total : (axes.map Axis.count).prod * shape.elementSize < UInt64.size / 2
  counted : (axes.map Axis.count).prod ≤ maxWord
  held : shape.elementSize * (axes.map Axis.chunk).prod ≤ maxWord

namespace Cut

variable {shape : Shape} {axes : List Axis}

theorem selection (cut : Cut shape s axes) :
    s = ⟨axes.map Axis.start, axes.map Axis.count⟩ := by
  rw [← cut.start, ← cut.count]

theorem mem_chunks_iff (cut : Cut shape s axes) {c : Coordinate} :
    c ∈ s.chunks shape.chunkDims ↔
      List.Forall₂ (fun c a => (Axis.common c a).1 ≤ (Axis.common c a).2) c axes := by
  rw [cut.selection, cut.chunkDims, (Hyperslab.chunks_axes cut.fits).2,
    Hyperslab.mem_chunks_axes cut.fits]

theorem words (cut : Cut shape s axes) : (axes.map Axis.count).prod ≤ UInt64.size ∧
    (0 < shape.elementSize → (axes.map Axis.chunk).prod ≤ UInt64.size) := by
  have counted := cut.counted
  have held := cut.held
  have word : maxWord + 1 = UInt64.size := by decide
  refine ⟨by omega, fun pos => ?_⟩
  have fewer := Nat.le_mul_of_pos_left (axes.map Axis.chunk).prod pos
  omega

/-- What the ends of a chunk are along the axes. -/
theorem ends (cut : Cut shape s axes) {c : Coordinate} (fits : CopyFits shape s c) :
    List.Forall₂ (fun c (a : Axis) => c * a.chunk + a.chunk ≤ maxWord) c axes := by
  have ends := fits.ends
  rwa [cut.chunkDims, List.forall₂_map_right_iff] at ends

theorem runs_eq (cut : Cut shape s axes) {c : Coordinate} (mem : c ∈ s.chunks shape.chunkDims)
    (fits : CopyFits shape s c) : regionRuns c shape.chunkDims s =
      runsOf c (axes.map Axis.chunk) ⟨axes.map Axis.start, axes.map Axis.count⟩
        (List.zipWith Axis.common c axes) := by
  have ends := cut.ends fits
  have touched := cut.mem_chunks_iff.1 mem
  rw [cut.selection, cut.chunkDims]
  exact regionRuns_axes cut.fits touched ends

/-- The runs of a touched chunk lie inside the chunk and the result. -/
theorem inside (cut : Cut shape s axes) (pos : 0 < shape.elementSize) {c : Coordinate}
    (mem : c ∈ s.chunks shape.chunkDims) (fits : CopyFits shape s c) :
    ∀ r ∈ regionRuns c shape.chunkDims s,
      r.Inside (axes.map Axis.chunk).prod (axes.map Axis.count).prod := by
  rw [cut.runs_eq mem fits]
  exact inside_runsOf cut.fits (cut.mem_chunks_iff.1 mem) (cut.words.2 pos) cut.words.1

/-- The runs of a touched chunk lie inside the chunk and the result, counted in elements. Where
elements have no bytes, buffers of any length will do. -/
theorem exists_inside (cut : Cut shape s axes) {c : Coordinate}
    (mem : c ∈ s.chunks shape.chunkDims) (fits : CopyFits shape s c) :
    ∃ held total, shape.elementSize * (axes.map Axis.chunk).prod = held * shape.elementSize ∧
      (axes.map Axis.count).prod * shape.elementSize = total * shape.elementSize ∧
      ∀ r ∈ regionRuns c shape.chunkDims s,
        r.Inside held total ∧ r.source ≤ maxWord ∧ r.target ≤ maxWord := by
  rcases Nat.eq_zero_or_pos shape.elementSize with empty | pos
  · refine ⟨maxWord + maxWord, maxWord + maxWord, ?_, ?_, fun r run => ?_⟩
    · rw [empty, Nat.zero_mul, Nat.mul_zero]
    · rw [empty, Nat.mul_zero, Nat.mul_zero]
    · obtain ⟨source, target⟩ := fits.places empty r run
      rw [cut.runs_eq mem fits] at run
      have length := length_runsOf_le cut.fits (cut.mem_chunks_iff.1 mem) r run
      exact ⟨⟨by omega, by omega⟩, source, target⟩
  · refine ⟨_, _, Nat.mul_comm .., rfl, fun r run => ?_⟩
    have lies := cut.inside pos mem fits r run
    have heldWord := (Nat.le_mul_of_pos_left (axes.map Axis.chunk).prod pos).trans cut.held
    have counted := cut.counted
    have source := lies.1
    have target := lies.2
    exact ⟨lies, by omega, by omega⟩

/-- In bytes, the runs of a touched chunk lie inside the chunk and the result. -/
theorem inside_bytes (cut : Cut shape s axes) {c : Coordinate}
    (mem : c ∈ s.chunks shape.chunkDims) (fits : CopyFits shape s c) :
    ∀ r ∈ regionRuns c shape.chunkDims s,
      r.source * shape.elementSize + r.length * shape.elementSize ≤
          shape.elementSize * (axes.map Axis.chunk).prod ∧
        r.target * shape.elementSize + r.length * shape.elementSize ≤
          (axes.map Axis.count).prod * shape.elementSize := by
  obtain ⟨held, total, chunkBytes, outBytes, inside⟩ := cut.exists_inside mem fits
  rw [chunkBytes, outBytes]
  exact fun r run => (inside r run).1.bytes shape.elementSize

/-- Copying the part of a touched chunk is copying its runs. -/
theorem copyRegion_eq (cut : Cut shape s axes) {c : Coordinate}
    (mem : c ∈ s.chunks shape.chunkDims) (fits : CopyFits shape s c) (chunk out : Bytes) :
    copyRegion chunk c shape.chunkDims s shape.elementSize out =
      (regionRuns c shape.chunkDims s).foldlM (fun out r =>
        copyRun chunk (r.source * shape.elementSize) (r.length * shape.elementSize) out
          (r.target * shape.elementSize)) out := by
  have touched := cut.mem_chunks_iff.1 mem
  have total := cut.total
  have held := cut.held
  have half : UInt64.size / 2 ≤ maxWord := by decide
  obtain ⟨_, _, _, _, inside⟩ := cut.exists_inside mem fits
  have bytes := cut.inside_bytes mem fits
  obtain ⟨low, high, last, proper, r, run, length⟩ := exists_run cut.fits touched
    (axes.map Axis.chunk) ⟨axes.map Axis.start, axes.map Axis.count⟩
  have found : overlap c shape.chunkDims s.start s.count =
      .ok (List.zipWith Axis.common c axes) := by
    rw [cut.chunkDims, cut.start, cut.count]
    exact overlap_axes cut.fits touched (cut.ends fits)
  have runs : runsOf c shape.chunkDims s (List.zipWith Axis.common c axes) =
      regionRuns c shape.chunkDims s := by
    rw [regionRuns, found]
  rw [← cut.selection, ← cut.chunkDims, runs] at run
  refine copyRegion_eq_foldlM found last proper ?_ ?_ ?_ chunk out
  · have lies := (bytes r run).1
    rw [length] at lies
    omega
  · rw [runs]
    exact fun r run => (inside r run).2
  · rw [runs]
    intro r run
    have lies := bytes r run
    exact ⟨by omega, by omega⟩

/-- The part of a touched chunk is copied, run by run. -/
theorem copies (cut : Cut shape s axes) {c : Coordinate} (mem : c ∈ s.chunks shape.chunkDims)
    (fits : CopyFits shape s c) {chunk out : Bytes}
    (chunkLength : chunk.length = shape.elementSize * (axes.map Axis.chunk).prod)
    (outLength : out.length = (axes.map Axis.count).prod * shape.elementSize) :
    copyRegion chunk c shape.chunkDims s shape.elementSize out = .ok (place shape s out c chunk) ∧
      (place shape s out c chunk).length = (axes.map Axis.count).prod * shape.elementSize := by
  obtain ⟨held, total, chunkBytes, outBytes, inside⟩ := cut.exists_inside mem fits
  have within := fun r run => (inside r run).1
  rw [← outLength, cut.copyRegion_eq mem fits]
  rw [chunkBytes] at chunkLength
  rw [outBytes] at outLength
  exact ⟨foldlM_copyRun within chunkLength outLength,
    Run.length_foldl_copy within chunkLength outLength⟩

end Cut

/-- A selection that is not empty, with its chunks: one axis for each dimension, and no number of
the read beyond 64 bits. -/
structure Plan (shape : Shape) (s : Hyperslab) (axes : List Axis) : Prop where
  start : s.start = axes.map Axis.start
  count : s.count = axes.map Axis.count
  chunkDims : shape.chunkDims = axes.map Axis.chunk
  fits : ∀ a ∈ axes, a.Fits
  total : (axes.map Axis.count).prod * shape.elementSize < UInt64.size / 2
  counted : (axes.map Axis.count).prod ≤ maxWord
  held : shape.elementSize * (axes.map Axis.chunk).prod ≤ maxWord
  ends : ∀ c ∈ s.chunks shape.chunkDims,
    List.Forall₂ (fun c (a : Axis) => c * a.chunk + a.chunk ≤ maxWord) c axes
  places : shape.elementSize = 0 → ∀ c ∈ s.chunks shape.chunkDims,
    ∀ r ∈ regionRuns c shape.chunkDims s, r.source ≤ maxWord ∧ r.target ≤ maxWord

namespace Plan

variable {shape : Shape} {axes : List Axis}

theorem cut (plan : Plan shape s axes) : Cut shape s axes :=
  ⟨plan.start, plan.count, plan.chunkDims, plan.fits, plan.total, plan.counted, plan.held⟩

theorem copyFits (plan : Plan shape s axes) {c : Coordinate}
    (mem : c ∈ s.chunks shape.chunkDims) : CopyFits shape s c := by
  refine ⟨?_, fun empty => plan.places empty c mem⟩
  rw [plan.chunkDims, List.forall₂_map_right_iff]
  exact plan.ends c mem

theorem selection (plan : Plan shape s axes) :
    s = ⟨axes.map Axis.start, axes.map Axis.count⟩ := plan.cut.selection

theorem selects_iff (plan : Plan shape s axes) {x : Coordinate} :
    s.Selects x ↔ List.Forall₂ (fun x (a : Axis) => a.Selects x) x axes := by
  rw [plan.selection, Hyperslab.selects_axes]

/-- The chunks asked for are those of the selected elements. -/
theorem mem_chunks_iff_exists (plan : Plan shape s axes) {c : Coordinate} :
    c ∈ s.chunks shape.chunkDims ↔
      ∃ x, s.Selects x ∧ List.zipWith (· / ·) x shape.chunkDims = c := by
  rw [plan.cut.mem_chunks_iff, plan.chunkDims]
  simp only [plan.selects_iff]
  constructor
  · exact Hyperslab.exists_selected plan.fits
  · rintro ⟨x, selected, chunk⟩
    exact Hyperslab.touched_of_selected plan.fits selected chunk

theorem copies (plan : Plan shape s axes) {c : Coordinate} (mem : c ∈ s.chunks shape.chunkDims)
    {chunk out : Bytes}
    (chunkLength : chunk.length = shape.elementSize * (axes.map Axis.chunk).prod)
    (outLength : out.length = (axes.map Axis.count).prod * shape.elementSize) :
    copyRegion chunk c shape.chunkDims s shape.elementSize out = .ok (place shape s out c chunk) ∧
      (place shape s out c chunk).length = (axes.map Axis.count).prod * shape.elementSize :=
  plan.cut.copies mem (plan.copyFits mem) chunkLength outLength

/-- A selected element comes from its own chunk, and every other chunk leaves it as it is. -/
theorem slice_place (plan : Plan shape s axes) {c x : Coordinate}
    (mem : c ∈ s.chunks shape.chunkDims) {chunk out : Bytes}
    (chunkLength : chunk.length = shape.elementSize * (axes.map Axis.chunk).prod)
    (outLength : out.length = (axes.map Axis.count).prod * shape.elementSize)
    (selected : List.Forall₂ (fun x (a : Axis) => a.Selects x) x axes) :
    slice (place shape s out c chunk) (placeInResult axes x * shape.elementSize)
        shape.elementSize =
      if List.zipWith (· / ·) x (axes.map Axis.chunk) = c then
        slice chunk (placeInChunk axes x * shape.elementSize) shape.elementSize
      else slice out (placeInResult axes x * shape.elementSize) shape.elementSize := by
  rcases Nat.eq_zero_or_pos shape.elementSize with empty | pos
  · rw [empty]
    simp only [slice, List.take_zero, ite_self]
  · rw [Nat.mul_comm] at chunkLength
    have inside := plan.cut.inside pos mem (plan.copyFits mem)
    obtain ⟨covered, source⟩ := covers_runsOf plan.fits (plan.cut.mem_chunks_iff.1 mem)
      (plan.cut.words.2 pos) plan.cut.words.1 selected
    rw [← plan.cut.runs_eq mem (plan.copyFits mem)] at covered source
    rw [place]
    split
    · next own =>
        exact Run.slice_foldl_copy_of_covers inside chunkLength outLength source (covered.2 own)
    · next other =>
        exact Run.slice_foldl_copy_of_not_covers inside chunkLength outLength
          fun r run covers => other (covered.1 ⟨r, run, covers⟩)

theorem length_assemble (plan : Plan shape s axes) {B : Coordinate → Bytes}
    {coordinates : List Coordinate} (touched : ∀ c ∈ coordinates, c ∈ s.chunks shape.chunkDims)
    (lengths : ∀ c ∈ coordinates,
      (B c).length = shape.elementSize * (axes.map Axis.chunk).prod) {out : Bytes}
    (outLength : out.length = (axes.map Axis.count).prod * shape.elementSize) :
    (coordinates.foldl (fun out c => place shape s out c (B c)) out).length =
      (axes.map Axis.count).prod * shape.elementSize := by
  induction coordinates generalizing out with
  | nil => exact outLength
  | cons c cs ih =>
    have one := plan.copies (touched c List.mem_cons_self) (lengths c List.mem_cons_self) outLength
    exact ih (fun c' h => touched c' (List.mem_cons_of_mem c h))
      (fun c' h => lengths c' (List.mem_cons_of_mem c h)) one.2

/-- After the copies of several chunks, a selected element comes from its chunk if that is one of
them. -/
theorem slice_assemble (plan : Plan shape s axes) {B : Coordinate → Bytes}
    {coordinates : List Coordinate} (touched : ∀ c ∈ coordinates, c ∈ s.chunks shape.chunkDims)
    (lengths : ∀ c ∈ coordinates,
      (B c).length = shape.elementSize * (axes.map Axis.chunk).prod) {out : Bytes}
    (outLength : out.length = (axes.map Axis.count).prod * shape.elementSize) {x : Coordinate}
    (selected : List.Forall₂ (fun x (a : Axis) => a.Selects x) x axes) :
    slice (coordinates.foldl (fun out c => place shape s out c (B c)) out)
        (placeInResult axes x * shape.elementSize) shape.elementSize =
      if List.zipWith (· / ·) x (axes.map Axis.chunk) ∈ coordinates then
        slice (B (List.zipWith (· / ·) x (axes.map Axis.chunk)))
          (placeInChunk axes x * shape.elementSize) shape.elementSize
      else slice out (placeInResult axes x * shape.elementSize) shape.elementSize := by
  induction coordinates generalizing out with
  | nil => rfl
  | cons c cs ih =>
    have mem := touched c List.mem_cons_self
    have length := lengths c List.mem_cons_self
    have others := ih (fun c' h => touched c' (List.mem_cons_of_mem c h))
      (fun c' h => lengths c' (List.mem_cons_of_mem c h)) (plan.copies mem length outLength).2
    rw [List.foldl_cons, others, plan.slice_place mem length outLength selected]
    by_cases later : List.zipWith (· / ·) x (axes.map Axis.chunk) ∈ cs
    · rw [if_pos later, if_pos (List.mem_cons_of_mem c later)]
    · rw [if_neg later]
      by_cases own : List.zipWith (· / ·) x (axes.map Axis.chunk) = c
      · rw [if_pos own, if_pos (own ▸ List.mem_cons_self), own]
      · rw [if_neg own, if_neg fun h => (List.mem_cons.1 h).elim own later]

/-- Every byte of the result is filled from one chunk, and the others spare it. -/
theorem exists_fills (plan : Plan shape s axes) {i : Nat}
    (lt : i < s.count.prod * shape.elementSize) :
    ∃ c ∈ s.chunks shape.chunkDims, (∃ j, Fills shape s c i j) ∧
      ∀ c' ∈ s.chunks shape.chunkDims, c' ≠ c → Spares shape s c' i := by
  rw [plan.count] at lt
  have pos : 0 < shape.elementSize := Nat.pos_of_mul_pos_left (Nat.zero_lt_of_lt lt)
  have quotient := Nat.div_add_mod' i shape.elementSize
  have remainder := Nat.mod_lt i pos
  obtain ⟨x, selected, here⟩ :=
    exists_placeInResult ((Nat.div_lt_iff_lt_mul pos).2 lt)
  have byte : placeInResult axes x * shape.elementSize + i % shape.elementSize = i := by
    rw [here, quotient]
  -- Byte `i` of a buffer is a byte of the slice for its element.
  have ofSlice : ∀ (bytes : Bytes) (q : Nat),
      (slice bytes (q * shape.elementSize) shape.elementSize)[i % shape.elementSize]? =
        bytes[q * shape.elementSize + i % shape.elementSize]? := by
    intro bytes q
    rw [getElem?_slice, if_pos remainder]
  have own := plan.mem_chunks_iff_exists.2 ⟨x, plan.selects_iff.2 selected, rfl⟩
  refine ⟨_, own, ⟨placeInChunk axes x * shape.elementSize + i % shape.elementSize, ?_⟩, ?_⟩
  · intro chunk out chunkLength outLength
    rw [plan.chunkDims] at chunkLength
    rw [plan.count] at outLength
    have taken := plan.slice_place own chunkLength outLength selected
    rw [plan.chunkDims, if_pos rfl] at taken
    refine ⟨_, (plan.copies own chunkLength outLength).1, ?_⟩
    rw [← ofSlice, plan.chunkDims, ← taken, ofSlice, byte]
  · intro c' mem other chunk out chunkLength outLength
    rw [plan.chunkDims] at chunkLength other
    rw [plan.count] at outLength
    have left := plan.slice_place mem chunkLength outLength selected
    rw [if_neg (Ne.symm other)] at left
    refine ⟨_, (plan.copies mem chunkLength outLength).1, ?_⟩
    rw [← byte, ← ofSlice, left, ofSlice]

end Plan

/-- A selection that is not empty is cut into chunks, when it lies inside the extents. -/
theorem exists_cut {o : Opening} (proper : o.Proper) (valid : s.validate o.shape.dims = .ok ())
    (words : ∀ n ∈ o.shape.dims, n ≤ maxWord) {n : Nat} (counted : s.numElements = .ok n)
    (held : n * o.shape.elementSize < UInt64.size / 2) (some : 0 ∉ s.count) :
    ∃ axes, Cut o.shape s axes := by
  obtain ⟨axes, ⟨start, count, chunkDims⟩, each, -⟩ :=
    Hyperslab.exists_axes_of_validate valid proper.chunkRank proper.chunkDims words some
  obtain ⟨product, word⟩ := Hyperslab.numElements_eq counted
  rw [count] at product
  have chunk := proper.chunkBytes
  have addressable := proper.addressable
  have half : UInt64.size / 2 ≤ maxWord := by decide
  refine ⟨axes, start, count, chunkDims, each, ?_, ?_, ?_⟩
  · rwa [← product]
  · rwa [← product]
  · rw [← chunkDims]
    omega

/-- A selection that is not empty has a plan, when it lies inside the extents. -/
theorem exists_plan {o : Opening} (proper : o.Proper) (valid : s.validate o.shape.dims = .ok ())
    (fits : ReadFits o.shape s) (some : 0 ∉ s.count) : ∃ axes, Plan o.shape s axes := by
  obtain ⟨n, counted, held⟩ := fits.result
  obtain ⟨axes, cut⟩ := exists_cut proper valid fits.words counted held some
  refine ⟨axes, cut.start, cut.count, cut.chunkDims, cut.fits, cut.total, cut.counted, cut.held,
    fun c mem => ?_, fits.places⟩
  have ends := fits.ends c mem
  rwa [cut.chunkDims, List.forall₂_map_right_iff] at ends

/-- Elements with bytes are read within 64 bits when the chunks at the ends of the extents are. -/
theorem readFits_of_ends {o : Opening} (proper : o.Proper) (element : 0 < o.shape.elementSize)
    (ends : List.Forall₂ (fun n k => n + k ≤ maxWord) o.shape.dims o.shape.chunkDims)
    (valid : s.validate o.shape.dims = .ok ()) {n : Nat} (counted : s.numElements = .ok n)
    (held : n * o.shape.elementSize < UInt64.size / 2) : ReadFits o.shape s := by
  have words : ∀ n ∈ o.shape.dims, n ≤ maxWord :=
    forall_of_forall₂ ends.flip fun k n fits => by omega
  refine ⟨words, ⟨n, counted, held⟩, fun c mem => ?_, fun zero => absurd zero (by omega)⟩
  by_cases empty : 0 ∈ s.count
  · rw [(Hyperslab.chunks_of_empty empty _).2] at mem
    cases mem
  · obtain ⟨axes, ⟨start, count, chunkDims⟩, each, stops⟩ :=
      Hyperslab.exists_axes_of_validate valid proper.chunkRank proper.chunkDims words empty
    rw [show s = ⟨axes.map Axis.start, axes.map Axis.count⟩ by rw [← start, ← count], chunkDims,
      (Hyperslab.chunks_axes each).2, Hyperslab.mem_chunks_axes each] at mem
    rw [chunkDims, List.forall₂_map_right_iff] at ends ⊢
    exact Hyperslab.ends_of_touched each mem stops ends

end ChunkStore.Dataset
