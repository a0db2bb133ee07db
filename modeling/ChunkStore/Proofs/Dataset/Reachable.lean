import ChunkStore.Dataset
import ChunkStore.Proofs.Cache
import ChunkStore.Proofs.Grid.Odometer
import ChunkStore.Proofs.Grid.RowMajor
import ChunkStore.Proofs.Index.Handle
import ChunkStore.Proofs.Results

/-!
# Open datasets in every state

`Dataset.Later` leads from an open dataset to every state that lookups, reads, clearing and
cancelling bring it to, and `Dataset.Reachable` are the states of all datasets. What a dataset was
opened with never changes (`Dataset.opening`). `Dataset.Sound` is an invariant of all operations
when one step has it, the reading of a chunk from the file (`Sound.later`); the first instance is
that all chunks have the length of a chunk (`Reachable.sound`).
-/

namespace ChunkStore.Dataset

open Session

/-- The states that operations on an open dataset lead to. -/
inductive Later (image : Image) (d : Dataset) : Dataset → Prop where
  | here : Later image d d
  | looked {d' : Dataset} (before : Later image d d') (c : Coordinate) :
      Later image d ((lookup c).runOn image d').2
  | requested {d' : Dataset} (before : Later image d d') (c : Coordinate) :
      Later image d ((decodedChunk c).runOn image d').2
  | read {d' : Dataset} (before : Later image d d') (s : Hyperslab) :
      Later image d ((readHyperslab s).runOn image d').2
  | readAll {d' : Dataset} (before : Later image d d') :
      Later image d (readAll.runOn image d').2
  | cleared {d' : Dataset} (before : Later image d d') : Later image d d'.clearCache
  | cancelled {d' : Dataset} (before : Later image d d') : Later image d d'.cancel

/-- The datasets that can be met over an image. -/
inductive Reachable (image : Image) (d' : Dataset) : Prop where
  | intro {widths : FileWidths} {layout : DataLayout} {shape : Shape} {pipeline : Pipeline}
      {properties : AccessProperties} {registry : Registry} {d : Dataset}
      (opened : ofLayout widths layout shape pipeline properties registry = .ok d)
      (later : Later image d d')

/-- What a dataset was opened with. -/
structure Opening where
  shape : Shape
  pipeline : Pipeline
  registry : Registry
  /-- The index with nothing decoded. -/
  index : ChunkIndex
  properties : AccessProperties
  skipsPartialChunks : Bool

/-- What a dataset was opened with. -/
def opening (d : Dataset) : Opening :=
  ⟨d.shape, d.pipeline, d.registry, d.index.fresh, d.properties, d.skipsPartialChunks⟩

/-- Bytes of a decoded chunk. -/
def Opening.chunkBytes (o : Opening) : Nat := o.index.geometry.chunkBytes

theorem chunkBytes_eq (d : Dataset) : d.chunkBytes = d.opening.chunkBytes := by
  rw [chunkBytes, Opening.chunkBytes, opening, ChunkIndex.geometry, ChunkIndex.geometry,
    ChunkIndex.settings_fresh]

/-- Chunks have elements of every dimension, and a chunk and its fill values are of one length. -/
structure Opening.Proper (o : Opening) : Prop where
  chunkRank : o.shape.chunkDims.length = o.shape.dims.length
  chunkDims : ∀ k ∈ o.shape.chunkDims, 0 < k
  chunkBytes : o.chunkBytes = o.shape.elementSize * o.shape.chunkDims.prod
  addressable : o.chunkBytes < UInt64.size / 2
  fill : ∀ fill, o.properties.fillValue = some fill → 0 < fill.length

/-- The dataset was opened with `o`, its index is as it should be, and so is every chunk that its
cache holds. -/
structure Sound (o : Opening) (proper : ChunkIndex → Prop) (right : Coordinate → Bytes → Prop)
    (d : Dataset) : Prop where
  opening : d.opening = o
  index : proper d.index
  cache : d.cache.Holds right

/-- Any index will do, and chunks of the right length. -/
abbrev Uniform (o : Opening) : Dataset → Prop :=
  Sound o (fun _ => True) fun _ buffer => buffer.length = o.chunkBytes

/-! ## Opening -/

theorem proper_of_ofLayout {widths : FileWidths} {layout : DataLayout} {shape : Shape}
    {pipeline : Pipeline} {properties : AccessProperties} {registry : Registry} {d : Dataset}
    (opened : ofLayout widths layout shape pipeline properties registry = .ok d) :
    d.opening.Proper ∧ Uniform d.opening d := by
  unfold ofLayout at opened
  obtain ⟨chunked, -, opened⟩ := bind_eq_ok_iff.1 opened
  obtain ⟨_, -, opened⟩ := bind_eq_ok_iff.1 opened
  obtain ⟨g, made, opened⟩ := bind_eq_ok_iff.1 opened
  obtain ⟨_, filled, opened⟩ := bind_eq_ok_iff.1 opened
  obtain ⟨_, held, opened⟩ := bind_eq_ok_iff.1 opened
  obtain ⟨index, indexed, opened⟩ := bind_eq_ok_iff.1 opened
  cases opened
  obtain ⟨-, -, settings⟩ := ChunkIndex.fresh_of_ofLayout indexed
  obtain ⟨rank, -, pos, product, -, -⟩ := Geometry.of_ofExtents made
  have grid : index.fresh.geometry = g := by
    rw [ChunkIndex.geometry, ChunkIndex.settings_fresh, settings]
  refine ⟨⟨rank.symm, ?_, ?_, ?_, ?_⟩, rfl, trivial, Cache.holds_ofLimits _⟩
  · exact fun k mem => Nat.pos_of_ne_zero fun zero => pos (zero ▸ mem)
  · show index.fresh.geometry.chunkBytes = _
    rw [grid]
    exact checkedProduct_eq product
  · show index.fresh.geometry.chunkBytes < _
    rw [grid]
    unfold checkHeld at held
    split at held
    · assumption
    · cases held
  · intro fill given
    unfold checkFill at filled
    rw [show properties.fillValue = some fill from given] at filled
    dsimp only at filled
    split at filled
    · next pattern => omega
    · cases filled

/-! ## Operations -/

variable {o : Opening} {image : Image} {proper : ChunkIndex → Prop}
  {right : Coordinate → Bytes → Prop}

theorem meets_lookup {c : Coordinate} {post : Descriptor → Prop}
    (h : Meets image proper (ChunkIndex.lookup c) post) :
    Meets image (Sound o proper right) (lookup c) post := by
  refine ⟨fun d sound => ?_⟩
  rw [lookup, runOn_zoom]
  have kept := (ChunkIndex.keeps_lookup c).same image d.index
  obtain ⟨still, answers⟩ := h.run d.index sound.index
  refine ⟨⟨?_, still, sound.cache⟩, answers⟩
  rw [← sound.opening, opening, opening]
  dsimp only
  rw [kept]

/-- A chunk that is delivered is as it should be when those are that come from the file. -/
theorem meets_decodedChunk {c : Coordinate}
    (h : Meets image (Sound o proper right) (readChunk c) (right c)) :
    Meets image (Sound o proper right) (decodedChunk c) (right c) := by
  apply Meets.get_bind
  intro d sound
  apply Meets.ite (.bind (.throw _ fun _ => False) fun _ never => never.elim)
  obtain ⟨kept, answers⟩ := sound.cache.request c
  cases asked : d.cache.request c with
  | mk cached cache =>
    rw [asked] at kept answers
    apply Meets.bind (.set ⟨sound.opening, sound.index, kept⟩)
    intro _ _
    cases cached with
    | some buffer => exact .pure (answers buffer rfl)
    | none =>
      apply Meets.bind h
      intro buffer good
      have retained : ∀ d : Dataset, d.Sound o proper right →
          Dataset.Sound o proper right { d with cache := d.cache.retain c buffer } :=
        fun d sound => ⟨sound.opening, sound.index, sound.cache.retain good⟩
      exact .bind (.modify retained) fun _ _ => .pure good

theorem meets_readHyperslab {inv : Dataset → Prop} {post : Coordinate → Bytes → Prop}
    (h : ∀ c, Meets image inv (decodedChunk c) (post c)) (s : Hyperslab) :
    Meets image inv (readHyperslab s) fun _ => True := by
  apply Meets.get_bind
  intro d _
  apply Meets.bind (.ofExcept fun _ _ => trivial)
  intro _ _
  apply Meets.bind (.ofExcept fun _ _ => trivial)
  intro bytes _
  apply Meets.bind (.ofExcept fun _ _ => trivial)
  intro _ _
  apply Meets.bind (.ofExcept fun _ _ => trivial)
  intro span _
  cases span with
  | none => exact .pure trivial
  | some span =>
    dsimp only
    rw [Box.visitAll_eq]
    generalize (List.replicate bytes 0 : Bytes) = out
    induction span.coordinates generalizing out with
    | nil => exact .pure trivial
    | cons c cs ih =>
      have added : Meets image inv (addChunk s out c) fun _ => True :=
        .bind (h c) fun _ _ => .get_bind fun _ _ => .liftM fun _ _ => trivial
      exact .bind added fun out _ => ih out

/-- A dataset stays sound, whatever is done with it. -/
theorem Sound.later {d d' : Dataset} {post : Descriptor → Prop}
    (looked : ∀ c, Meets image proper (ChunkIndex.lookup c) post)
    (read : ∀ c, Meets image (Sound o proper right) (readChunk c) (right c))
    (later : Later image d d') (sound : d.Sound o proper right) : d'.Sound o proper right := by
  have requested := fun c => meets_decodedChunk (read c)
  have all : Meets image (Sound o proper right) readAll fun _ => True :=
    .get_bind fun d _ => meets_readHyperslab requested _
  induction later with
  | here => exact sound
  | looked _ c ih => exact ((meets_lookup (looked c)).run _ ih).1
  | requested _ c ih => exact ((requested c).run _ ih).1
  | read _ s ih => exact ((meets_readHyperslab requested s).run _ ih).1
  | readAll _ ih => exact (all.run _ ih).1
  | cleared _ ih => exact ⟨ih.opening, ih.index, Cache.holds_ofLimits _⟩
  | cancelled _ ih => exact ⟨ih.opening, ih.index, ih.cache⟩

/-! ## Chunks of the right length -/

theorem length_repeatFill {fill : Bytes} (pos : 0 < fill.length) (length : Nat) :
    (repeatFill fill length).length = length := by
  have rounded := Nat.div_add_mod' (length + fill.length - 1) fill.length
  have rest := Nat.mod_lt (length + fill.length - 1) pos
  rw [repeatFill, List.length_take, List.length_flatten, List.map_replicate, List.sum_replicate_nat]
  omega

theorem Opening.Proper.length_fillChunk (proper : o.Proper) {d : Dataset} (opened : d.opening = o) :
    d.fillChunk.length = o.chunkBytes := by
  unfold fillChunk
  rw [chunkBytes_eq, opened]
  split
  · exact List.length_replicate
  · next fill given =>
      rw [← opened] at proper
      exact length_repeatFill (proper.fill fill given) _

/-- A chunk that is read is as long as a chunk, whatever the index is like. -/
theorem Opening.Proper.meets_readChunk_of_lookup (good : o.Proper) {c : Coordinate}
    (looked : Meets image proper (ChunkIndex.lookup c) fun _ => True) :
    Meets image (Sound o proper right) (readChunk c) fun buffer =>
      buffer.length = o.chunkBytes := by
  apply Meets.get_bind
  intro d sound
  apply Meets.bind (meets_lookup looked)
  intro descriptor _
  refine .ite ?_ (.ite ?_ ?_)
  · exact .pure (good.length_fillChunk sound.opening)
  · apply Meets.fetch
    intro bytes read
    unfold Image.read at read
    split at read
    · next inside =>
        cases read
        rw [length_slice inside, chunkBytes_eq, sound.opening]
    · cases read
  · apply Meets.bind (.fetch fun _ _ => trivial)
    intro stored _
    apply Meets.ofExcept
    intro decoded done
    unfold undoFilters at done
    obtain ⟨plain, -, done⟩ := bind_eq_ok_iff.1 done
    obtain ⟨whole, done⟩ := guard_eq_ok_iff.1 done
    cases done
    rw [Classical.not_not.1 whole, chunkBytes_eq, sound.opening]

/-- A chunk that is read is as long as a chunk. -/
theorem Opening.Proper.meets_readChunk (proper : o.Proper) (c : Coordinate) :
    Meets image (Uniform o) (readChunk c) fun buffer => buffer.length = o.chunkBytes :=
  proper.meets_readChunk_of_lookup (Meets.any _)

/-- In every state that can be reached, a dataset delivers chunks of the right length. -/
theorem Reachable.sound {d : Dataset} (reached : Reachable image d) :
    d.opening.Proper ∧ Uniform d.opening d := by
  obtain ⟨opened, later⟩ := reached
  obtain ⟨proper, sound⟩ := proper_of_ofLayout opened
  have after := sound.later (fun _ => Meets.any _) proper.meets_readChunk later
  rw [after.opening]
  exact ⟨proper, after⟩

end ChunkStore.Dataset
