import ChunkStore.Proofs.Dataset.InRange
import ChunkStore.Proofs.Dataset.Pointwise

/-!
# Reads that leave 64 bits

A selection inside the extents may still take a read out of 64 bits, and `Overruns` lists how: the
counts are multiplied before their product is compared with the memory, a result of half the
address space has no memory, and a chunk at the end of the extents may end beyond 64 bits although
the selection does not. `readHyperslab_outOfRange_iff` says that there is no other way, whatever
the file holds; extents that leave room for one more chunk have none (`not_overruns_of_ends`).
Copying from one chunk has a result exactly when its numbers fit (`Cut.copyRegion_outOfRange_iff`),
and the copies of a read are followed chunk by chunk (`foldlM_addChunk_outOfRange_iff`).
-/

namespace ChunkStore.Dataset

open Session

variable {image : Image} {s : Hyperslab}

/-- How a read of a selection inside the extents leaves 64 bits. -/
inductive Overruns (image : Image) (d : Dataset) (s : Hyperslab) : Prop where
  /-- A product of the first counts is too large, even if a later count is zero. -/
  | counts (i : Nat) (beyond : maxWord < (s.count.take i).prod)
  /-- The bytes can be counted, but no memory has room for them. -/
  | room (large : UInt64.size / 2 ≤ s.count.prod * d.shape.elementSize)
      (counted : s.count.prod * d.shape.elementSize ≤ maxWord)
  /-- The touched chunks up to one are delivered, and copying from that one does not fit. -/
  | copy (held : s.count.prod * d.shape.elementSize < UInt64.size / 2) {before : List Coordinate}
      {c : Coordinate} (next : before ++ [c] <+: s.chunks d.shape.chunkDims)
      (delivered : ∃ buffers, ((requests (before ++ [c])).runOn image d).1 = .ok buffers)
      (beyond : ¬ CopyFits d.shape s c)

/-! ## Copying from one chunk -/

theorem arithmetic_overlapAlong (c k s n : Nat) : Arithmetic (overlapAlong c k s n) :=
  (Arithmetic.within _).bind fun _ => (Arithmetic.within _).bind fun _ =>
    (Arithmetic.within _).bind fun _ => (Arithmetic.sub _ _).bind fun _ => .ok _

theorem arithmetic_overlap (c k s n : List Nat) : Arithmetic (overlap c k s n) := by
  fun_induction overlap c k s n with
  | case1 c coordinate k chunkDims s start n count ih =>
    exact (arithmetic_overlapAlong c k s n).bind fun _ => ih.bind fun _ => .ok _
  | case2 => exact .ok []

theorem arithmetic_byteOffset (element origin down : List Nat) (size : Nat) :
    Arithmetic (byteOffset element origin down size) :=
  (Arithmetic.within _).bind fun _ => .within _

theorem arithmetic_copyRun (chunk : Bytes) (source length : Nat) (out : Bytes) (target : Nat) :
    Arithmetic (copyRun chunk source length out target) := by
  refine (Arithmetic.run _ _ _).bind fun run => ?_
  split
  · exact .ok _
  · exact .outOfRange

/-- Copying is arithmetic: either all its numbers fit, or it is out of range. -/
theorem arithmetic_copyRegion (chunk : Bytes) (c chunkDims : List Nat) (s : Hyperslab)
    (size : Nat) (out : Bytes) : Arithmetic (copyRegion chunk c chunkDims s size out) := by
  refine (arithmetic_overlap _ _ _ _).bind fun common => ?_
  refine (Arithmetic.sub _ _).bind fun _ => (Arithmetic.within _).bind fun _ => ?_
  dsimp only
  rw [Box.visitAll_eq]
  refine .foldlM ?_ out
  intro out outer
  exact (arithmetic_byteOffset _ _ _ _).bind fun _ =>
    (arithmetic_byteOffset _ _ _ _).bind fun _ => arithmetic_copyRun _ _ _ _ _

/-- An overlap is found only when the chunk ends at 64-bit numbers. -/
theorem ends_of_overlap {axes : List Axis} {c : Coordinate} {common : Box}
    (rank : c.length = axes.length)
    (found : overlap c (axes.map Axis.chunk) (axes.map Axis.start) (axes.map Axis.count) =
      .ok common) :
    List.Forall₂ (fun c (a : Axis) => c * a.chunk + a.chunk ≤ maxWord) c axes := by
  induction axes generalizing c common with
  | nil =>
    rw [List.length_eq_zero_iff.1 rank]
    exact .nil
  | cons a axes ih =>
    obtain _ | ⟨c, cs⟩ := c
    · cases rank
    obtain ⟨_, along, found⟩ := bind_eq_ok_iff.1 found
    obtain ⟨_, others, -⟩ := bind_eq_ok_iff.1 found
    obtain ⟨origin, first, along⟩ := bind_eq_ok_iff.1 along
    obtain ⟨chunkEnd, last, -⟩ := bind_eq_ok_iff.1 along
    obtain ⟨-, rfl⟩ := Bounds.within_eq_ok_iff.1 first
    exact .cons (Bounds.within_eq_ok_iff.1 last).1 (ih (Nat.succ.inj rank) others)

theorem position_le_of_byteOffset {element origin down : List Nat} {size n : Nat}
    (done : byteOffset element origin down size = .ok n) :
    positionIn element origin down ≤ maxWord := by
  obtain ⟨_, position, -⟩ := bind_eq_ok_iff.1 done
  exact (Bounds.within_eq_ok_iff.1 position).1

/-- A copy that succeeds computed no place beyond 64 bits. -/
theorem places_of_copyRegion {chunk out out' : Bytes} {c chunkDims : List Nat} {size : Nat}
    (done : copyRegion chunk c chunkDims s size out = .ok out') :
    ∀ r ∈ regionRuns c chunkDims s, r.source ≤ maxWord ∧ r.target ≤ maxWord := by
  obtain ⟨common, found, done⟩ := bind_eq_ok_iff.1 done
  obtain ⟨_, -, done⟩ := bind_eq_ok_iff.1 done
  obtain ⟨_, -, done⟩ := bind_eq_ok_iff.1 done
  dsimp only at done
  rw [Box.visitAll_eq] at done
  have steps := exists_step_of_foldlM done
  rw [regionRuns, found]
  intro r mem
  obtain ⟨outer, inside, rfl⟩ := List.mem_map.1 mem
  obtain ⟨_, _, step⟩ := steps _ inside
  obtain ⟨_, source, step⟩ := bind_eq_ok_iff.1 step
  obtain ⟨_, target, -⟩ := bind_eq_ok_iff.1 step
  exact ⟨position_le_of_byteOffset source, position_le_of_byteOffset target⟩

/-- Copying the part of a touched chunk is out of range exactly when a number of it does not
fit. -/
theorem Cut.copyRegion_outOfRange_iff {shape : Shape} {axes : List Axis}
    (cut : Cut shape s axes) {c : Coordinate} (mem : c ∈ s.chunks shape.chunkDims)
    {chunk out : Bytes}
    (chunkLength : chunk.length = shape.elementSize * (axes.map Axis.chunk).prod)
    (outLength : out.length = (axes.map Axis.count).prod * shape.elementSize) :
    copyRegion chunk c shape.chunkDims s shape.elementSize out = .error .outOfRange ↔
      ¬ CopyFits shape s c := by
  rw [(arithmetic_copyRegion chunk c _ s _ out).eq_outOfRange_iff, not_iff_not]
  constructor
  · rintro ⟨out', done⟩
    refine ⟨?_, fun _ => places_of_copyRegion done⟩
    obtain ⟨common, found, -⟩ := bind_eq_ok_iff.1 done
    have rank := (cut.mem_chunks_iff.1 mem).length_eq
    rw [cut.chunkDims, cut.start, cut.count] at found
    rw [cut.chunkDims, List.forall₂_map_right_iff]
    exact ends_of_overlap rank found
  · exact fun fits => ⟨_, (cut.copies mem fits chunkLength outLength).1⟩

/-! ## Copying from chunk after chunk -/

/-- Copying from the touched chunks one after another is out of range exactly when the chunks up to
one are delivered whose part cannot be copied. -/
theorem foldlM_addChunk_outOfRange_iff {o : Opening} {good : ChunkIndex → Prop}
    (proper : o.Proper) (codecs : o.registry.InRange) (answering : Answering image good)
    {axes : List Axis} (cut : Cut o.shape s axes) {coordinates : List Coordinate}
    (touched : ∀ c ∈ coordinates, c ∈ s.chunks o.shape.chunkDims) {d : Dataset}
    (sound : Sound o good (fun _ buffer => buffer.length = o.chunkBytes) d) {out : Bytes}
    (outLength : out.length = (axes.map Axis.count).prod * o.shape.elementSize) :
    ((coordinates.foldlM (addChunk s) out).runOn image d).1 = .error .outOfRange ↔
      ∃ before c, before ++ [c] <+: coordinates ∧
        (∃ buffers, ((requests (before ++ [c])).runOn image d).1 = .ok buffers) ∧
        ¬ CopyFits o.shape s c := by
  induction coordinates generalizing d out with
  | nil =>
    refine iff_of_false nofun ?_
    rintro ⟨before, c, short, -⟩
    simpa using short.length_le
  | cons c cs ih =>
    have mem := touched c List.mem_cons_self
    obtain ⟨kept, answers⟩ :=
      (meets_decodedChunk (proper.meets_readChunk_of_lookup (answering.meets c))).run d sound
    have within := (inRange_decodedChunk codecs proper.addressable answering c).run d sound
    rw [List.foldlM_cons]
    cases run : (decodedChunk c).runOn image d with
    | mk result d₁ =>
      rw [run] at kept answers within
      cases result with
      | error e =>
        -- The request fails, with an error of its own, and nothing after it is done.
        have failed : (addChunk s out c).runOn image d = (.error e, d₁) :=
          runOn_bind_error image run
        rw [runOn_bind_error image failed]
        refine iff_of_false within ?_
        rintro ⟨before, c', next, ⟨buffers, delivered⟩, -⟩
        obtain ⟨rest, first⟩ : ∃ rest, before ++ [c'] = c :: rest := by
          obtain _ | ⟨b, before⟩ := before
          · exact ⟨[], by rw [(List.cons_prefix_cons.1 next).1]; rfl⟩
          · exact ⟨before ++ [c'], by rw [← (List.cons_prefix_cons.1 next).1]; rfl⟩
        rw [first, requests, runOn_bind_error image run] at delivered
        cases delivered
      | ok chunk =>
        have chunkLength : chunk.length = o.shape.elementSize * (axes.map Axis.chunk).prod := by
          rw [← cut.chunkDims, ← proper.chunkBytes]
          exact answers chunk rfl
        have added := runOn_addChunk (s := s) run kept.opening out
        -- A delivered chunk is copied, and the others decide, or it is the one that cannot be.
        by_cases fits : CopyFits o.shape s c
        · obtain ⟨copied, outLength'⟩ := cut.copies mem fits chunkLength outLength
          rw [copied] at added
          rw [runOn_bind_ok image added,
            ih (fun c' later => touched c' (List.mem_cons_of_mem c later)) kept outLength']
          constructor
          · rintro ⟨before, c', next, delivered, beyond⟩
            exact ⟨c :: before, c', List.cons_prefix_cons.2 ⟨rfl, next⟩,
              (delivered_cons_iff run).2 delivered, beyond⟩
          · rintro ⟨before, c', next, delivered, beyond⟩
            obtain _ | ⟨b, before⟩ := before
            · obtain ⟨rfl, -⟩ := List.cons_prefix_cons.1 next
              exact absurd fits beyond
            · obtain ⟨rfl, later⟩ := List.cons_prefix_cons.1 next
              exact ⟨before, c', later, (delivered_cons_iff run).1 delivered, beyond⟩
        · rw [(cut.copyRegion_outOfRange_iff mem chunkLength outLength).2 fits] at added
          rw [runOn_bind_error image added]
          exact iff_of_true rfl ⟨[], c, List.cons_prefix_cons.2 ⟨rfl, List.nil_prefix⟩,
            (delivered_cons_iff run).2 ⟨[], rfl⟩, fits⟩

/-! ## Reads -/

/-- A read whose result has no place in memory ends before anything is requested. -/
theorem runOn_readHyperslab_of_error {d : Dataset} (valid : s.validate d.shape.dims = .ok ())
    {e : Error} (refused : (selectedBytes s d.shape.elementSize >>= checkHeld) = .error e) :
    ((readHyperslab s).runOn image d).1 = .error e := by
  rw [readHyperslab, runOn_get_bind]
  dsimp only
  rw [valid, runOn_bind_ok image (runOn_ofExcept image d _)]
  cases selected : selectedBytes s d.shape.elementSize with
  | error e' =>
    rw [selected] at refused
    have same : e' = e := Except.error.inj refused
    rw [runOn_bind_error image (runOn_ofExcept image d _), same]
  | ok bytes =>
    rw [selected] at refused
    have held : checkHeld bytes = .error e := refused
    rw [runOn_bind_ok image (runOn_ofExcept image d _), held,
      runOn_bind_error image (runOn_ofExcept image d _)]

/-- The counts of a result that memory holds are multiplied within 64 bits, and so are its bytes. -/
theorem selectedBytes_eq (counted : ∀ i, (s.count.take i).prod ≤ maxWord) (size : Nat) :
    selectedBytes s size = if s.count.prod * size ≤ maxWord then .ok (s.count.prod * size)
      else .error (Error.invalidSelection .tooLarge) := by
  have elements : s.numElements = .ok s.count.prod :=
    Bounds.product_eq_ok_iff.2 ⟨rfl, counted⟩
  simp only [selectedBytes, elements, bind, Except.bind, checked]
  by_cases word : s.count.prod * size ≤ maxWord
  · rw [if_pos word, if_pos word]
    rfl
  · rw [if_neg word, if_neg word]
    rfl

/-- Where counts overflow, so does the read. -/
theorem selectedBytes_eq_outOfRange {i : Nat} (beyond : maxWord < (s.count.take i).prod)
    (size : Nat) : selectedBytes s size = .error .outOfRange := by
  have elements : s.numElements = .error .outOfRange := by
    refine (Arithmetic.product s.count).eq_outOfRange_iff.2 ?_
    rintro ⟨n, counted⟩
    have fits := (Bounds.product_eq_ok_iff.1 counted).2 i
    omega
  simp only [selectedBytes, elements, bind, Except.bind]

theorem misfit?_replicate (d : Nat) (dims : List Nat) :
    Hyperslab.misfit? d (List.replicate dims.length 0) dims dims = none := by
  induction dims generalizing d with
  | nil => rfl
  | cons n dims ih =>
    rw [List.length_cons, List.replicate_succ, Hyperslab.misfit?, if_pos (Nat.zero_add n).le]
    exact ih (d + 1)

/-- All elements are inside the extents. -/
theorem validate_all (dims : List Nat) : (Hyperslab.all dims).validate dims = .ok () := by
  have ranks : ¬ ((Hyperslab.all dims).start.length ≠ (Hyperslab.all dims).count.length ∨
      (Hyperslab.all dims).start.length ≠ dims.length) := by
    simp [Hyperslab.all]
  rw [Hyperslab.validate, if_neg ranks, Hyperslab.all, misfit?_replicate]

/-- The copies of a selection, which is empty or cut into chunks. -/
theorem copies_outOfRange_iff {d : Dataset} {good : ChunkIndex → Prop}
    (proper : d.opening.Proper) (codecs : d.registry.InRange) (answering : Answering image good)
    (sound : Sound d.opening good (fun _ buffer => buffer.length = d.opening.chunkBytes) d)
    (words : ∀ n ∈ d.shape.dims, n ≤ maxWord) (valid : s.validate d.shape.dims = .ok ())
    (counted : s.numElements = .ok s.count.prod)
    (held : s.count.prod * d.shape.elementSize < UInt64.size / 2) :
    ((readHyperslab s).runOn image d).1 = .error .outOfRange ↔
      ∃ before c, before ++ [c] <+: s.chunks d.shape.chunkDims ∧
        (∃ buffers, ((requests (before ++ [c])).runOn image d).1 = .ok buffers) ∧
        ¬ CopyFits d.shape s c := by
  by_cases empty : 0 ∈ s.count
  · obtain ⟨spanned, none⟩ := Hyperslab.chunks_of_empty empty d.shape.chunkDims
    rw [runOn_readHyperslab image d valid counted held spanned, none]
    refine iff_of_false nofun ?_
    rintro ⟨before, c, short, -⟩
    simpa using short.length_le
  · obtain ⟨axes, cut⟩ := exists_cut proper valid words counted held empty
    have spanned : s.chunkSpan d.shape.chunkDims = .ok (some (axes.map Axis.span)) := by
      rw [cut.selection, show d.shape.chunkDims = _ from cut.chunkDims]
      exact (Hyperslab.chunks_axes cut.fits).1
    rw [runOn_readHyperslab image d valid counted held spanned]
    refine foldlM_addChunk_outOfRange_iff proper codecs answering cut (fun c mem => mem) sound ?_
    rw [List.length_replicate, cut.count]
    rfl

/-- A read of a selection inside the extents is out of range exactly when it overruns. -/
theorem outOfRange_iff_overruns {d : Dataset} (reached : Reachable image d)
    (bound : image.length + 4 ≤ maxWord) (rank : 8 * d.shape.chunkDims.length < 2 ^ 47)
    (codecs : d.registry.InRange) (words : ∀ n ∈ d.shape.dims, n ≤ maxWord)
    (valid : s.validate d.shape.dims = .ok ()) :
    ((readHyperslab s).runOn image d).1 = .error .outOfRange ↔ Overruns image d s := by
  by_cases large : ∃ i, maxWord < (s.count.take i).prod
  · obtain ⟨i, beyond⟩ := large
    have refused : (selectedBytes s d.shape.elementSize >>= checkHeld) = .error .outOfRange := by
      rw [selectedBytes_eq_outOfRange beyond]
      rfl
    exact iff_of_true (runOn_readHyperslab_of_error valid refused) (.counts i beyond)
  have fits : ∀ i, (s.count.take i).prod ≤ maxWord := fun i =>
    Nat.le_of_not_lt fun beyond => large ⟨i, beyond⟩
  have bytes := selectedBytes_eq fits d.shape.elementSize
  have half : UInt64.size / 2 ≤ maxWord := by decide
  rcases Nat.lt_or_ge (s.count.prod * d.shape.elementSize) (UInt64.size / 2) with held | roomless
  · obtain ⟨good, answering, sound⟩ := reached.answering bound rank
    rw [copies_outOfRange_iff reached.sound.1 codecs answering sound words valid
      (Bounds.product_eq_ok_iff.2 ⟨rfl, fits⟩) held]
    constructor
    · rintro ⟨before, c, next, delivered, beyond⟩
      exact .copy held next delivered beyond
    · rintro (⟨i, beyond⟩ | ⟨roomless, -⟩ | ⟨-, next, delivered, beyond⟩)
      · exact absurd ⟨i, beyond⟩ large
      · omega
      · exact ⟨_, _, next, delivered, beyond⟩
  by_cases counted : s.count.prod * d.shape.elementSize ≤ maxWord
  · have refused : (selectedBytes s d.shape.elementSize >>= checkHeld) = .error .outOfRange := by
      rw [bytes, if_pos counted]
      show checkHeld _ = _
      rw [checkHeld, if_neg (Nat.not_lt.2 roomless)]
    exact iff_of_true (runOn_readHyperslab_of_error valid refused) (.room roomless counted)
  · have refused : (selectedBytes s d.shape.elementSize >>= checkHeld) =
        .error (.invalidSelection .tooLarge) := by
      rw [bytes, if_neg counted]
      rfl
    rw [runOn_readHyperslab_of_error valid refused]
    refine iff_of_false nofun ?_
    rintro (⟨i, beyond⟩ | ⟨-, few⟩ | ⟨held⟩)
    · exact large ⟨i, beyond⟩
    · exact counted few
    · omega

/-- Elements with bytes are read within 64 bits when the chunks at the ends of the extents are, and
when memory has room for the result. -/
theorem not_overruns_of_ends {d : Dataset} (reached : Reachable image d)
    (element : 0 < d.shape.elementSize)
    (ends : List.Forall₂ (fun n k => n + k ≤ maxWord) d.shape.dims d.shape.chunkDims)
    (valid : s.validate d.shape.dims = .ok ()) {n : Nat} (counted : s.numElements = .ok n)
    (held : n * d.shape.elementSize < UInt64.size / 2) : ¬ Overruns image d s := by
  have fits := readFits_of_ends reached.sound.1 element ends valid counted held
  obtain ⟨elements, few⟩ := Bounds.product_eq_ok_iff.1 counted
  rintro (⟨i, beyond⟩ | ⟨roomless, -⟩ | ⟨-, next, -, beyond⟩)
  · exact absurd (few i) (Nat.not_le.2 beyond)
  · rw [elements] at held
    exact absurd held (Nat.not_lt.2 roomless)
  · have mem := next.subset List.mem_concat_self
    exact beyond ⟨fits.ends _ mem, fun empty => absurd empty element.ne'⟩

/-- Whatever a file holds and whatever was done before, a read of a selection inside the extents
answers with bytes or with an error of the format, unless one of its numbers leaves 64 bits or its
result has no place in memory (`Overruns`). A file has fewer than `2 ^ 64 - 4` bytes, and the shape
of a chunk, eight bytes to a dimension, fits into a memory with addresses of 47 bits. -/
theorem readHyperslab_outOfRange_iff {d : Dataset} (reached : Reachable image d)
    (bound : image.length + 4 ≤ maxWord) (rank : 8 * d.shape.chunkDims.length < 2 ^ 47)
    (codecs : d.registry.InRange) (words : ∀ n ∈ d.shape.dims, n ≤ maxWord) :
    (∀ s : Hyperslab, s.validate d.shape.dims = .ok () →
      (((readHyperslab s).runOn image d).1 = .error .outOfRange ↔ Overruns image d s)) ∧
    ((readAll.runOn image d).1 = .error .outOfRange ↔
      Overruns image d (.all d.shape.dims)) := by
  refine ⟨fun s valid => outOfRange_iff_overruns reached bound rank codecs words valid, ?_⟩
  rw [readAll, runOn_get_bind]
  exact outOfRange_iff_overruns reached bound rank codecs words (validate_all _)

/-- Chunks of four elements, none of them stored, that end two elements beyond the extent and one
beyond 64 bits: reading the last element overruns, reading all of them does because there are so
many, and reading the end of the chunk before is zeros. -/
theorem readHyperslab_outOfRange_of_last_chunk : ∃ d,
    ofLayout .default (.chunked ⟨3, 0, [4], 1, .treeOne, undefinedAddress⟩)
      ⟨[2 ^ 64 - 2], [2 ^ 64 - 2], [4], 1⟩ .empty .default .builtin = .ok d ∧
    Overruns [] d ⟨[2 ^ 64 - 3], [1]⟩ ∧ Overruns [] d (.all [2 ^ 64 - 2]) ∧
    ((readHyperslab ⟨[2 ^ 64 - 6], [2]⟩).runOn [] d).1 = .ok [0, 0] ∧
    ¬ Overruns [] d ⟨[2 ^ 64 - 6], [2]⟩ := by
  have opened : ofLayout .default (.chunked ⟨3, 0, [4], 1, .treeOne, undefinedAddress⟩)
      ⟨[2 ^ 64 - 2], [2 ^ 64 - 2], [4], 1⟩ .empty .default .builtin =
      .ok ⟨⟨[2 ^ 64 - 2], [2 ^ 64 - 2], [4], 1⟩, .empty, .builtin,
        .treeOne (.ofRoot ⟨.default, ⟨[2 ^ 62], [2 ^ 62], 4⟩, [4], 1, false, true⟩
          undefinedAddress), .ofLimits .default, .default, false, false⟩ := rfl
  obtain ⟨reads, all⟩ := readHyperslab_outOfRange_iff (.intro opened .here : Reachable [] _)
    (by decide) (by decide) Registry.inRange_builtin (by decide)
  have answered : ∀ {x : Except Error Bytes} {overruns : Prop} {bytes : Bytes},
      (x = .error .outOfRange ↔ overruns) → x = .ok bytes → x = .ok bytes ∧ ¬ overruns := by
    rintro x overruns bytes only rfl
    exact ⟨rfl, fun beyond => by cases only.2 beyond⟩
  exact ⟨_, opened, (reads _ rfl).1 (by decide +kernel), all.1 (by decide +kernel),
    answered (reads ⟨[2 ^ 64 - 6], [2]⟩ rfl) (by decide +kernel)⟩

end ChunkStore.Dataset
