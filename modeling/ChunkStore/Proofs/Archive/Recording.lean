import ChunkStore.Archive
import ChunkStore.Proofs.ByteWidths
import ChunkStore.Proofs.FixedArray.Lookup
import ChunkStore.Proofs.Results
import ChunkStore.Proofs.Runs

/-!
# What was recorded

`Appender.Stores` says that a descriptor leads to what the filters made of a chunk. Appending makes
it true of the new chunk (`Appender.append_eq_ok`) and a file that grows keeps it
(`Appender.Stores.grow`). `Recording.addAll_eq_ok` is a whole recording: the builder was set, chunk
after chunk, at the number of the coordinate, with a descriptor that leads to the chunk. Of a
recording that has chunks (`Recording.Records`) the array can be laid down behind them
(`Records.laid`), and its entries are those of the chunks recorded last (`Records.entry`).
-/

namespace ChunkStore

open Index Coordinate ChunkStore.Parser

namespace Appender

/-- Where the descriptor says, the file has what the filters make of a chunk. -/
def Stores (a : Appender) (chunk : Bytes) (d : Descriptor) : Prop :=
  ∃ data, a.registry.encode a.pipeline chunk a.elementSize = .ok ⟨data, d.filterMask⟩ ∧
    data.length = d.storedSize ∧ Placed a.sink.content d.address data

/-- The second appender is the first one after more bytes. -/
structure Grown (a a' : Appender) : Prop where
  content : ∃ more, a'.sink.content = a.sink.content ++ more
  pipeline : a'.pipeline = a.pipeline
  registry : a'.registry = a.registry
  elementSize : a'.elementSize = a.elementSize

variable {a a' a'' : Appender}

theorem Grown.refl (a : Appender) : a.Grown a :=
  ⟨⟨[], (List.append_nil _).symm⟩, rfl, rfl, rfl⟩

theorem Grown.trans (first : a.Grown a') (second : a'.Grown a'') : a.Grown a'' := by
  obtain ⟨more, content⟩ := first.content
  obtain ⟨more', content'⟩ := second.content
  refine ⟨⟨more ++ more', ?_⟩, ?_, ?_, ?_⟩
  · rw [content', content, List.append_assoc]
  · rw [second.pipeline, first.pipeline]
  · rw [second.registry, first.registry]
  · rw [second.elementSize, first.elementSize]

theorem Stores.grow {chunk : Bytes} {d : Descriptor} (stores : a.Stores chunk d)
    (grown : a.Grown a') : a'.Stores chunk d := by
  obtain ⟨data, encoded, size, placed⟩ := stores
  obtain ⟨more, content⟩ := grown.content
  refine ⟨data, ?_, size, ?_⟩
  · rw [grown.registry, grown.pipeline, grown.elementSize]
    exact encoded
  · rw [content]
    exact placed.grow more

theorem appendRaw_eq_ok {bytes : Bytes} {address : Nat}
    (done : a.appendRaw bytes = (.ok address, a')) :
    a.Grown a' ∧ address = a.endPosition ∧ a'.sink.content = a.sink.content ++ bytes := by
  unfold appendRaw at done
  cases room : a.sink.append bytes with
  | error e =>
    rw [room] at done
    cases done
  | ok sink =>
    rw [room] at done
    cases done
    have content : sink.content = a.sink.content ++ bytes := by
      unfold Sink.append at room
      split at room
      · cases room
        rfl
      · cases room
    exact ⟨⟨⟨bytes, content⟩, rfl, rfl, rfl⟩, rfl, content⟩

/-- A chunk that was appended is stored, and the file has only grown. -/
theorem append_eq_ok {chunk : Bytes} {d : Descriptor} (done : a.append chunk = (.ok d, a')) :
    a.Grown a' ∧ a'.Stores chunk d := by
  unfold append at done
  cases encoded : a.registry.encode a.pipeline chunk a.elementSize with
  | error e =>
    rw [encoded] at done
    cases done
  | ok stored =>
    rw [encoded] at done
    cases wrote : a.appendRaw stored.data with
    | mk result after =>
      simp only [wrote, Prod.mk.injEq] at done
      obtain ⟨described, rfl⟩ := done
      obtain ⟨address, rfl, rfl⟩ := map_eq_ok_iff.1 described
      obtain ⟨grown, rfl, content⟩ := appendRaw_eq_ok wrote
      refine ⟨grown, stored.data, ?_, rfl, ?_⟩
      · rw [grown.registry, grown.pipeline, grown.elementSize]
        exact encoded
      · rw [content]
        exact .atEnd _ _

end Appender

namespace Recording

variable {r r' : Recording}

/-- One step: the chunk is stored, and the builder has its descriptor at its number. -/
theorem add_eq_ok {c : Coordinate} {chunk : Bytes} {d : Descriptor}
    (done : r.add c chunk = (.ok d, r')) :
    r.appender.Grown r'.appender ∧ r'.appender.Stores chunk d ∧ r'.geometry = r.geometry ∧
      r'.builder = r.builder.set (linearIndex c r.geometry.downMaxCounts) d := by
  unfold add at done
  cases wrote : r.appender.append chunk with
  | mk result after =>
    cases result with
    | error e => simp [wrote] at done
    | ok d' =>
      simp only [wrote, Prod.mk.injEq, Except.ok.injEq] at done
      obtain ⟨rfl, rfl⟩ := done
      obtain ⟨grown, stores⟩ := Appender.append_eq_ok wrote
      exact ⟨grown, stores, rfl, rfl⟩

/-- A whole recording: every chunk is stored, and its descriptor was set at its number. -/
theorem addAll_eq_ok {chunks : List (Coordinate × Bytes)} {results : List (Except Error Descriptor)}
    (done : r.addAll chunks = (results, r')) (written : ∀ result ∈ results, ∃ d, result = .ok d) :
    ∃ sets : List (Nat × Descriptor), results = sets.map (fun q => .ok q.2) ∧
      r.appender.Grown r'.appender ∧ r'.geometry = r.geometry ∧
      r'.builder = r.builder.setAll sets ∧
      List.Forall₂ (fun p q => q.1 = linearIndex p.1 r.geometry.downMaxCounts ∧
        r'.appender.Stores p.2 q.2) chunks sets := by
  induction chunks generalizing r results with
  | nil =>
    cases done
    exact ⟨[], rfl, .refl _, rfl, rfl, .nil⟩
  | cons p chunks ih =>
    obtain ⟨c, chunk⟩ := p
    rw [addAll] at done
    cases first : r.add c chunk with
    | mk result middle =>
      cases rest : middle.addAll chunks with
      | mk others last =>
        simp only [first, rest, Prod.mk.injEq] at done
        obtain ⟨rfl, rfl⟩ := done
        obtain ⟨d, rfl⟩ := written result List.mem_cons_self
        obtain ⟨grown, stores, grid, built⟩ := add_eq_ok first
        obtain ⟨sets, rfl, grown', grid', built', stored⟩ :=
          ih rest fun result mem => written result (List.mem_cons_of_mem _ mem)
        rw [grid] at stored
        refine ⟨(linearIndex c r.geometry.downMaxCounts, d) :: sets, rfl,
          grown.trans grown', grid'.trans grid, ?_, .cons ⟨rfl, stores.grow grown'⟩ stored⟩
        rw [built', built]
        rfl

/-! ## The array of the chunks -/

/-- The recording has the chunks: each is stored, and its descriptor was set at its number. -/
structure Records (r : Recording) (widths : FileWidths) (pageBits : UInt8)
    (chunks : List (Coordinate × Bytes)) (sets : List (Nat × Descriptor)) : Prop where
  ranks : r.geometry.scaledMaxDims.length = r.geometry.rank
  builder : r.builder = (FixedArrayBuilder.ofCount widths r.geometry.scaledMaxDims.prod pageBits
    (if r.appender.pipeline.isEmpty then none
      else some (chunkSizeLength r.geometry.chunkBytes))).setAll sets
  whole : ∀ p ∈ chunks, r.geometry.Holds p.1 ∧ p.2.length = r.geometry.chunkBytes
  stored : List.Forall₂ (fun p q => q.1 = linearIndex p.1 r.geometry.downMaxCounts ∧
    r.appender.Stores p.2 q.2) chunks sets
  addresses : ∀ q ∈ sets, q.2.address + 1 < 256 ^ widths.offsetSize

variable {r₀ : Recording} {widths : FileWidths} {pageBits : UInt8} {array : Bytes} {s : Settings}
  {chunks : List (Coordinate × Bytes)} {sets : List (Nat × Descriptor)}

/-- An empty recording is that of the shape. -/
theorem start_eq_ok {shape : Shape} {pipeline : Pipeline} {registry : Registry} {preamble : Bytes}
    (started : start widths shape pipeline registry pageBits preamble = .ok r₀) :
    Geometry.ofExtents shape.dims shape.maxDims shape.chunkDims shape.elementSize =
        .ok r₀.geometry ∧
      r₀.appender = ⟨⟨preamble, true⟩, pipeline, registry, shape.elementSize⟩ ∧
      r₀.Records widths pageBits [] [] := by
  unfold start at started
  obtain ⟨g, made, started⟩ := bind_eq_ok_iff.1 started
  obtain ⟨b, build, started⟩ := bind_eq_ok_iff.1 started
  cases started
  refine ⟨made, rfl, ⟨(Geometry.ranks_of_ofExtents made).2, ?_, ?_, .nil, ?_⟩⟩
  · obtain ⟨count, product, rfl⟩ := FixedArrayBuilder.ofGeometry_eq_ok build
    rw [checkedProduct_eq product, Nat.one_mul]
    cases pipeline.isEmpty <;> rfl
  · exact fun p mem => absurd mem List.not_mem_nil
  · exact fun q mem => absurd mem List.not_mem_nil

/-- Chunks are recorded one after another. -/
theorem Records.addAll (records : r₀.Records widths pageBits [] [])
    {results : List (Except Error Descriptor)}
    (whole : ∀ p ∈ chunks, r₀.geometry.Holds p.1 ∧ p.2.length = r₀.geometry.chunkBytes)
    (added : r₀.addAll chunks = (results, r))
    (addressed : ∀ result ∈ results,
      ∃ d, result = .ok d ∧ d.address + 1 < 256 ^ widths.offsetSize) :
    r₀.appender.Grown r.appender ∧ r.geometry = r₀.geometry ∧
      ∃ sets, r.Records widths pageBits chunks sets := by
  obtain ⟨sets, rfl, grown, grid, built, stored⟩ := addAll_eq_ok added fun result mem =>
    (addressed result mem).imp fun _ ok => ok.1
  refine ⟨grown, grid, sets, ⟨grid ▸ records.ranks, ?_, grid ▸ whole, grid ▸ stored, ?_⟩⟩
  · rw [built, records.builder, grid, grown.pipeline]
    rfl
  · intro q mem
    obtain ⟨d, same, fits⟩ := addressed _ (List.mem_map_of_mem mem)
    cases same
    exact fits

namespace Records

theorem length_entries (records : r.Records widths pageBits chunks sets) :
    r.builder.entries.length = r.geometry.scaledMaxDims.prod := by
  rw [records.builder, (FixedArrayBuilder.setAll_frame _ _).2.2.2]
  exact List.length_replicate

/-- The array is laid down behind the chunks. -/
theorem laid (records : r.Records widths pageBits chunks sets)
    (counted : r.geometry.scaledMaxDims.prod < 256 ^ widths.lengthSize)
    (room : r.appender.endPosition + FixedArray.headerLength widths + 1 < 256 ^ widths.offsetSize)
    (built : r.builder.build r.appender.endPosition = .ok array)
    (bound : (r.appender.sink.content ++ array).length ≤ maxWord) (sameWidths : s.widths = widths)
    (filtered : s.filtered = !r.appender.pipeline.isEmpty) :
    r.builder.Laid s r.appender.endPosition (r.appender.sink.content ++ array) := by
  rw [records.builder] at built ⊢
  refine FixedArrayBuilder.laid_of_build counted ?_ (fun q mem => .inl (records.addresses q mem))
    ?_ built (.atEnd _ _) room bound sameWidths ?_
  · intro n given
    split at given
    · cases given
    · cases given
      exact chunkSizeLength_le _
  · refine forall_of_forall₂ records.stored fun p q stored => ?_
    obtain ⟨-, data, -, size, placed⟩ := stored
    have inside := placed.le
    rw [List.length_append] at bound
    omega
  · rw [filtered]
    cases r.appender.pipeline.isEmpty <;> rfl

/-- What is recorded is a whole chunk within the largest extent. -/
theorem of_lookup (records : r.Records widths pageBits chunks sets) {c : Coordinate} {chunk : Bytes}
    (found : chunks.reverse.lookup c = some chunk) :
    r.geometry.Holds c ∧ chunk.length = r.geometry.chunkBytes := by
  obtain ⟨before, after, split, -⟩ := List.lookup_eq_some_iff.1 found
  refine records.whole (c, chunk) (List.mem_reverse.1 ?_)
  rw [split]
  exact List.mem_append_right before List.mem_cons_self

theorem isAllocated (records : r.Records widths pageBits chunks sets) {q : Nat × Descriptor}
    (mem : q ∈ sets) : q.2.isAllocated = true := by
  exact decide_eq_true (ne_undefinedAddress (records.addresses q mem))

/-- The entry at a number is that of the chunk recorded last for the coordinate. -/
theorem entry (records : r.Records widths pageBits chunks sets)
    (counted : r.geometry.scaledMaxDims.prod < 256 ^ widths.lengthSize) {c : Coordinate}
    (holds : r.geometry.Holds c) :
    ∃ found : Option Descriptor, Option.Rel r.appender.Stores (chunks.reverse.lookup c) found ∧
      (∀ d, found = some d → d.isAllocated = true) ∧
      r.builder.entries.getD (linearIndex c r.geometry.downMaxCounts) .undefined =
        found.getD .undefined := by
  have words := counted.le.trans (pow_lengthSize_le widths)
  have number := holds.linearIndex_lt records.ranks words
  refine ⟨sets.reverse.lookup (linearIndex c r.geometry.downMaxCounts), ?_, ?_, ?_⟩
  · refine rel_lookup (fun c => linearIndex c r.geometry.downMaxCounts)
      (List.forall₂_reverse_iff.2 records.stored) fun p mem same => ?_
    obtain ⟨held, -⟩ := records.whole p (List.mem_reverse.1 mem)
    rw [Geometry.holds_iff_within records.ranks] at held holds
    exact linearIndex_injective_iff.2 words _ _ held holds same
  · intro d found
    obtain ⟨before, after, split, -⟩ := List.lookup_eq_some_iff.1 found
    have mem : (linearIndex c r.geometry.downMaxCounts, d) ∈ sets.reverse := by
      rw [split]
      exact List.mem_append_right before List.mem_cons_self
    exact records.isAllocated (List.mem_reverse.1 mem)
  · rw [records.builder, FixedArrayBuilder.entries_ofCount_setAll sets number]
    rfl

end Records

end Recording

end ChunkStore
