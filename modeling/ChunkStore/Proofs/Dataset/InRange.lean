import ChunkStore.Proofs.Dataset.Reachable
import ChunkStore.Proofs.Index.InRange
import ChunkStore.Proofs.ScaleOffset.Unpacking
import ChunkStore.Proofs.Zlib.Pieces

/-!
# Requests for chunks stay in range

A request for a chunk looks the chunk up, reads its bytes and undoes its filters, and nothing of
this leaves 64 bits, whatever the file holds (`inRange_decodedChunk`). The invariant is that the
index is the one which was opened, after some lookups (`LookedUp`); of the codecs it is asked that
they fail with errors of their own (`Registry.InRange`), as the builtin ones do where memory has
room for a chunk, which it has for every dataset that was opened.
-/

namespace ChunkStore

open Session

/-! ## Filters -/

/-- Every codec of the registry undoes its filter or fails with an error of its own, where memory
has room for as many bytes as are hinted at. -/
def Registry.InRange (r : Registry) : Prop :=
  ∀ entry ∈ r.codecs, ∀ ctx data, ctx.outputHint < UInt64.size / 2 →
    ChunkStore.InRange (entry.2.decode ctx data)

namespace Codec

variable (ctx : FilterContext) (data : Bytes)

theorem inRange_shuffle : InRange (shuffle.decode ctx data) := by
  show InRange (if shuffleWidth ctx ≤ 1 then .ok data
    else (Element.unshuffle data (shuffleWidth ctx)).mapError Error.ofElement)
  split
  · exact .ok data
  · cases done : Element.unshuffle data (shuffleWidth ctx) with
    | ok out => exact .ok out
    | error e =>
      cases e with
      | outOfBounds => exact absurd done (Element.Transform.whole_ne_outOfBounds .unshuffle _ _)
      | zeroWidth | lengthNotMultiple _ _ | outputLength _ _ | unitUnavailable _ => exact nofun

theorem inRange_fletcher : InRange (fletcher.decode ctx data) := by
  show InRange (checkFletcher data)
  unfold checkFletcher
  split
  · exact nofun
  · dsimp only
    split
    · exact .ok _
    · exact nofun

theorem inRange_deflateBy {σ ε : Type} [ToString ε] (library : Zlib.Library σ ε)
    (held : ctx.outputHint < UInt64.size / 2) :
    InRange ((deflateBy library).decode ctx data) := by
  show InRange ((library.decompress data ctx.outputHint).mapError inflateError)
  cases result : library.decompress data ctx.outputHint with
  | ok data => exact .ok data
  | error e =>
    cases e with
    | fault _ | beyondHint _ => exact nofun
    | noRoom n =>
      rw [Zlib.Library.decompress, Zlib.Reader.decompress_eq_outcome] at result
      exact absurd result (Zlib.outcome_ne_noRoom _ _ held n)

end Codec

/-- A check before the rest of a result. -/
theorem InRange.guard {α : Type} {c : Prop} [Decidable c] {e : Error} {f : PUnit → Except Error α}
    (other : e ≠ .outOfRange) (h : InRange (f ⟨⟩)) :
    InRange (if c then throw e >>= f else f ⟨⟩) := by
  split
  · exact fun same => other (by cases same; rfl)
  · exact h

namespace ScaleOffset

theorem Parameters.inRange_ofClientData (words : List UInt32) : InRange (ofClientData words) := by
  unfold ofClientData
  split
  · split
    · exact nofun
    · exact .ok _
  · exact nofun

end ScaleOffset

theorem Codec.inRange_scaleOffset (ctx : FilterContext) (data : Bytes) :
    InRange (scaleOffset.decode ctx data) := by
  refine (ScaleOffset.Parameters.inRange_ofClientData _).bind fun p _ => ?_
  exact .guard nofun (ScaleOffset.decode_ne_outOfRange data p)

namespace Registry

variable {r : Registry}

theorem inRange_empty : empty.InRange := nofun

theorem InRange.insert (others : r.InRange) (id : UInt16) {codec : Codec}
    (own : ∀ ctx data, ctx.outputHint < UInt64.size / 2 →
      ChunkStore.InRange (codec.decode ctx data)) : (r.insert id codec).InRange := by
  intro entry mem
  rcases List.mem_append.1 mem with below | rest
  · exact others entry (List.mem_of_mem_filter below)
  rcases List.mem_cons.1 rest with rfl | above
  · exact own
  · exact others entry (List.mem_of_mem_filter above)

theorem inRange_builtin : builtin.InRange :=
  (((inRange_empty.insert shuffleId fun ctx data _ => Codec.inRange_shuffle ctx data).insert
    fletcherId fun ctx data _ => Codec.inRange_fletcher ctx data).insert
    scaleOffsetId fun ctx data _ => Codec.inRange_scaleOffset ctx data).insert
    deflateId fun ctx data => Codec.inRange_deflateBy ctx data Zlib.storing

/-- Filters are undone one after another, if memory has room for a chunk. -/
theorem InRange.decode (within : r.InRange) (p : Pipeline) (mask : UInt32) (data : Bytes)
    (elementSize : Nat) {chunkBytes : Nat} (held : chunkBytes < UInt64.size / 2) :
    ChunkStore.InRange (r.decode p mask data elementSize chunkBytes) := by
  refine .foldlM (fun data (entry, position) => ?_) data
  rw [decodeStep]
  split
  · exact .ok data
  · cases found : r.get? entry.id with
    | none =>
      rw [codecOf, found]
      exact nofun
    | some codec =>
      obtain ⟨_, _, split, -⟩ := List.lookup_eq_some_iff.1 found
      have mem : (entry.id, codec) ∈ r.codecs := split ▸ List.mem_append_cons_self
      rw [codecOf, found]
      exact within _ mem _ data (Nat.lt_of_le_of_lt (outputHint_le ..) held)

end Registry

/-! ## The index -/

/-- The index is `ix` after some lookups. -/
def ChunkIndex.LookedUp (image : Image) (ix later : ChunkIndex) : Prop :=
  ∃ earlier, later = ix.after image earlier

namespace Dataset

variable {image : Image} {o : Opening} {good : ChunkIndex → Prop}
  {right : Coordinate → Bytes → Prop}

theorem meets_lookup_lookedUp {ix : ChunkIndex} (c : Coordinate) :
    Meets image (ix.LookedUp image) (ChunkIndex.lookup c) fun _ => True := by
  refine ⟨fun later lookedUp => ⟨?_, fun _ _ => trivial⟩⟩
  obtain ⟨earlier, rfl⟩ := lookedUp
  exact ⟨earlier ++ [c], by rw [ChunkIndex.after, ChunkIndex.after, List.foldl_append]; rfl⟩

/-- What is asked of an index: lookups keep it as it should be, and they stay in range. -/
structure Answering (image : Image) (good : ChunkIndex → Prop) : Prop where
  meets : ∀ c, Meets image good (ChunkIndex.lookup c) fun _ => True
  inRange : ∀ c, Session.InRange image good (ChunkIndex.lookup c)

/-! ## Chunks -/

theorem inRange_lookup (answering : Answering image good) (c : Coordinate) :
    Session.InRange image (Sound o good right) (lookup c) := by
  refine ⟨fun d sound => ?_⟩
  rw [lookup, runOn_zoom]
  exact (answering.inRange c).run d.index sound.index

theorem inRange_undoFilters {d : Dataset} (codecs : d.registry.InRange)
    (held : d.chunkBytes < UInt64.size / 2) (c : Coordinate) (mask : UInt32) (stored : Bytes) :
    InRange (d.undoFilters c mask stored) :=
  (codecs.decode _ _ _ _ held).bind fun decoded _ => .guard nofun (.ok decoded)

theorem inRange_readChunk (codecs : o.registry.InRange) (held : o.chunkBytes < UInt64.size / 2)
    (answering : Answering image good) (c : Coordinate) :
    Session.InRange image (Sound o good right) (readChunk c) := by
  refine .get_bind fun d sound => ?_
  refine (inRange_lookup answering c).bind (meets_lookup (answering.meets c)) fun descriptor _ => ?_
  refine .ite (fun _ => .pure _) fun _ => .ite (fun _ => .fetch _ _) fun _ => ?_
  have own : d.registry.InRange := by
    rw [← sound.opening] at codecs
    exact codecs
  rw [← sound.opening, ← chunkBytes_eq] at held
  exact .bind_fetch fun stored _ _ => .ofExcept (inRange_undoFilters own held _ _ _)

/-- A request for a chunk stays in range. -/
theorem inRange_decodedChunk (codecs : o.registry.InRange) (held : o.chunkBytes < UInt64.size / 2)
    (answering : Answering image good) (c : Coordinate) :
    Session.InRange image (Sound o good right) (decodedChunk c) := by
  refine .get_bind fun d sound => .guard nofun fun _ => ?_
  have kept := (sound.cache.request c).1
  cases asked : d.cache.request c with
  | mk cached cache =>
    rw [asked] at kept
    refine (Session.InRange.set _).bind (.set ⟨sound.opening, sound.index, kept⟩) fun _ _ => ?_
    cases cached with
    | some buffer => exact .pure buffer
    | none => exact inRange_keep (inRange_readChunk codecs held answering c)

/-- The index of a dataset is opened from the layout's chunks. -/
theorem index_of_ofLayout {widths : FileWidths} {layout : DataLayout} {shape : Shape}
    {pipeline : Pipeline} {properties : AccessProperties} {registry : Registry} {d : Dataset}
    (opened : ofLayout widths layout shape pipeline properties registry = .ok d) :
    ∃ chunked g filtered verify,
      ChunkIndex.ofLayout chunked g widths filtered verify = .ok d.index ∧
        chunked.chunkDims = d.shape.chunkDims := by
  unfold ofLayout at opened
  obtain ⟨chunked, -, opened⟩ := bind_eq_ok_iff.1 opened
  obtain ⟨_, valid, opened⟩ := bind_eq_ok_iff.1 opened
  obtain ⟨g, -, opened⟩ := bind_eq_ok_iff.1 opened
  obtain ⟨_, -, opened⟩ := bind_eq_ok_iff.1 opened
  obtain ⟨_, -, opened⟩ := bind_eq_ok_iff.1 opened
  obtain ⟨index, indexed, opened⟩ := bind_eq_ok_iff.1 opened
  cases opened
  refine ⟨chunked, g, _, _, indexed, ?_⟩
  unfold Shape.validate at valid
  split at valid
  · cases valid
  split at valid
  · cases valid
  next same => exact Classical.not_not.1 fun other => same (.inl other)

/-- In every state that a dataset can be in, its index answers in range and the chunks that it
keeps have the right length. -/
theorem Reachable.answering {d : Dataset} (reached : Reachable image d)
    (bound : image.length + 4 ≤ maxWord) (rank : 8 * d.shape.chunkDims.length < 2 ^ 47) :
    ∃ good, Answering image good ∧
      Sound d.opening good (fun _ buffer => buffer.length = d.opening.chunkBytes) d := by
  obtain @⟨_, _, _, _, _, _, first, opened, later⟩ := reached
  obtain ⟨proper, sound⟩ := proper_of_ofLayout opened
  obtain ⟨chunked, g, filtered, verify, indexed, chunkDims⟩ := index_of_ofLayout opened
  have start : Sound first.opening (first.index.LookedUp image)
      (fun _ buffer => buffer.length = first.opening.chunkBytes) first :=
    ⟨rfl, ⟨[], rfl⟩, sound.cache⟩
  have after := start.later meets_lookup_lookedUp
    (fun c => proper.meets_readChunk_of_lookup (meets_lookup_lookedUp c)) later
  have same : d.shape.chunkDims = chunked.chunkDims :=
    (congrArg (fun o => o.shape.chunkDims) after.opening).trans chunkDims.symm
  refine ⟨_, ⟨meets_lookup_lookedUp, fun c => ⟨fun ix lookedUp => ?_⟩⟩, after.opening ▸ after⟩
  obtain ⟨earlier, rfl⟩ := lookedUp
  refine ChunkIndex.inRange_answerAfter bound (same ▸ rank) (fun zero => ?_) indexed earlier c
  exact (proper.chunkDims 0 (chunkDims ▸ zero)).false

end Dataset

end ChunkStore
