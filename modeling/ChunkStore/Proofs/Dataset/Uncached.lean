import ChunkStore.Dataset
import ChunkStore.Proofs.Cache
import ChunkStore.Proofs.Grid.Odometer
import ChunkStore.Proofs.Index.Settled
import ChunkStore.Proofs.Results

/-!
# The cache does not show

What an operation answers does not depend on what the cache may hold: `ofLayout_history` compares
whole histories of two handles on the same file that differ in their cache limits only. The
invariant (`Dataset.Current`) is that a cached chunk is the one that the file would give again, and
that giving it again would decode nothing of the index; it lasts because lookups settle. So a
request through the cache is one to the file (`runOn_decodedChunk`), and two handles that are alike
without their caches stay so (`agrees_perform`).
-/

namespace ChunkStore

namespace Session

variable {σ α β : Type}

/-- From states that are related the two sessions answer alike and leave related states. -/
structure Agrees (image : Image) (related : σ → σ → Prop) (x y : Session σ α) : Prop where
  run : ∀ {s t}, related s t → (x.runOn image s).1 = (y.runOn image t).1 ∧
    related (x.runOn image s).2 (y.runOn image t).2

namespace Agrees

variable {image : Image} {related : σ → σ → Prop}

/-- What has nothing to do with the state answers the same in all states. -/
theorem of_detached {x : Session σ α} (h : Detached x) : Agrees image related x x := by
  constructor
  intro s t together
  rw [h.run image s t, h.run image t t]
  exact ⟨rfl, together⟩

theorem pure (a : α) : Agrees image related (pure a : Session σ α) (pure a) :=
  ⟨fun together => ⟨rfl, together⟩⟩

theorem bind {x y : Session σ α} {f g : α → Session σ β} (first : Agrees image related x y)
    (next : ∀ a, Agrees image related (f a) (g a)) :
    Agrees image related (x >>= f) (y >>= g) := by
  constructor
  intro s t together
  obtain ⟨same, after⟩ := first.run together
  rw [runOn_bind, runOn_bind]
  cases runX : x.runOn image s with
  | mk result s' =>
    cases runY : y.runOn image t with
    | mk result' t' =>
      rw [runX, runY] at same after
      dsimp only at same after
      subst same
      cases result with
      | error e => exact ⟨rfl, after⟩
      | ok a => exact (next a).run after

theorem get_bind {f g : σ → Session σ β}
    (next : ∀ s t, related s t → Agrees image related (f s) (g t)) :
    Agrees image related ((MonadState.get : Session σ σ) >>= f) (MonadState.get >>= g) :=
  ⟨fun {s t} together => (next s t together).run together⟩

theorem modify {f g : σ → σ} (h : ∀ s t, related s t → related (f s) (g t)) :
    Agrees image related (modify f : Session σ PUnit) (modify g) :=
  ⟨fun {s t} together => ⟨rfl, h s t together⟩⟩

end Agrees

end Session

theorem Cache.Holds.mono {P Q : Coordinate → Bytes → Prop} {c : Cache} (holds : c.Holds P)
    (imp : ∀ coordinate buffer, P coordinate buffer → Q coordinate buffer) : c.Holds Q :=
  ⟨fun e mem => imp _ _ (holds.buffers e mem), holds.places⟩

namespace Dataset

open Session

/-! ## What a caller sees -/

/-- What can be asked of an open dataset. -/
inductive Operation where
  | lookup (coordinate : Coordinate)
  | chunk (coordinate : Coordinate)
  | read (selection : Hyperslab)
  | readAll
  | clearCache
  | cancel
  deriving DecidableEq, Repr

/-- What an operation answers. -/
inductive Answer where
  | descriptor (descriptor : Descriptor)
  | bytes (bytes : Bytes)
  | done
  deriving DecidableEq, Repr

/-- Carries out an operation. -/
def perform : Operation → Session Dataset Answer
  | .lookup c => return .descriptor (← lookup c)
  | .chunk c => return .bytes (← decodedChunk c)
  | .read selection => return .bytes (← readHyperslab selection)
  | .readAll => return .bytes (← readAll)
  | .clearCache => do
    modify clearCache
    return .done
  | .cancel => do
    modify cancel
    return .done

/-- What operations answer, one after another, and how many structures of the index are decoded
after each. -/
def history (image : Image) : List Operation → Dataset → List (Except Error Answer × Nat)
  | [], _ => []
  | operation :: operations, d =>
    let ran := (perform operation).runOn image d
    (ran.1, ran.2.index.decoded) :: history image operations ran.2

/-! ## Chunks from the file -/

/-- The handle as it would be without a cache. -/
def uncached (d : Dataset) : Dataset :=
  { d with
    cache := .ofLimits .disabled
    properties := { d.properties with cacheLimits := .disabled } }

/-- The chunk that a descriptor leads to. -/
def chunkAt (d : Dataset) (image : Image) (coordinate : Coordinate) (descriptor : Descriptor) :
    Except Error Bytes :=
  if !descriptor.isAllocated then .ok d.fillChunk
  else if d.isUnfiltered coordinate then image.read descriptor.address d.chunkBytes
  else do
    let stored ← image.read descriptor.address descriptor.storedSize
    d.undoFilters coordinate descriptor.filterMask stored

/-- A chunk from the file, unless reading was cancelled. -/
def plainChunk (coordinate : Coordinate) : Session Dataset Bytes := do
  let d ← get
  if d.isCancelled then throw .cancelled
  readChunk coordinate

variable {image : Image}

theorem runOn_lookup (c : Coordinate) (d : Dataset) :
    (lookup c).runOn image d = (((ChunkIndex.lookup c).runOn image d.index).1,
      { d with index := ((ChunkIndex.lookup c).runOn image d.index).2 }) :=
  runOn_zoom image d _ _ _

theorem le_index_lookup (image : Image) (c : Coordinate) (d : Dataset) :
    d.index ≤ ((ChunkIndex.lookup c).runOn image d.index).2 :=
  (ChunkIndex.settles_lookup c).grows d.index

/-- Reading a chunk from the file uses the index and leaves the rest of the handle alone. -/
theorem runOn_readChunk (c : Coordinate) (d : Dataset) :
    (readChunk c).runOn image d =
      (((ChunkIndex.lookup c).runOn image d.index).1 >>= d.chunkAt image c,
        { d with index := ((ChunkIndex.lookup c).runOn image d.index).2 }) := by
  rw [readChunk, runOn_get_bind, runOn_bind, runOn_lookup]
  cases ((ChunkIndex.lookup c).runOn image d.index).1 with
  | error e => rfl
  | ok descriptor =>
    show _ = (d.chunkAt image c descriptor, _)
    unfold chunkAt
    dsimp only
    split
    · rfl
    split
    · rfl
    · rw [runOn_bind, runOn_fetch]
      cases image.read descriptor.address descriptor.storedSize <;> rfl

theorem runOn_readChunk_uncached (c : Coordinate) (d : Dataset) :
    (readChunk c).runOn image d.uncached =
      (((readChunk c).runOn image d).1, ((readChunk c).runOn image d).2.uncached) := by
  rw [runOn_readChunk, runOn_readChunk]
  rfl

/-! ## Chunks from the cache -/

/-- The index gives a coordinate its descriptor without decoding anything, and the file gives the
chunk. -/
def Settled (image : Image) (d : Dataset) (c : Coordinate) (buffer : Bytes) : Prop :=
  ∃ descriptor, (ChunkIndex.lookup c).runOn image d.index = (.ok descriptor, d.index) ∧
    d.uncached.chunkAt image c descriptor = .ok buffer

/-- Every chunk in the cache is the one that the file would give again. -/
def Current (image : Image) (d : Dataset) : Prop := d.cache.Holds (Settled image d)

theorem runOn_readChunk_of_settled {d : Dataset} {c : Coordinate} {buffer : Bytes}
    (settled : Settled image d c buffer) : (readChunk c).runOn image d = (.ok buffer, d) := by
  obtain ⟨descriptor, found, read⟩ := settled
  rw [runOn_readChunk, found]
  exact congrArg (·, d) read

/-- What a handle goes by when it makes a descriptor into a chunk does not change when it takes in
more of the index. -/
theorem chunkAt_later (d : Dataset) {index : ChunkIndex} (grown : d.index ≤ index)
    (c : Coordinate) (descriptor : Descriptor) :
    { d with index }.uncached.chunkAt image c descriptor = d.chunkAt image c descriptor := by
  have settings : d.index.settings = index.settings := ChunkIndex.settings_eq_of_le grown
  have bytes : { d with index }.uncached.chunkBytes = d.chunkBytes := by
    show index.settings.geometry.chunkBytes = d.index.settings.geometry.chunkBytes
    rw [settings]
  unfold chunkAt undoFilters fillChunk
  rw [bytes]
  rfl

/-- A chunk that was read is settled. -/
theorem settled_of_readChunk {d d' : Dataset} {c : Coordinate} {buffer : Bytes}
    (read : (readChunk c).runOn image d = (.ok buffer, d')) : Settled image d' c buffer := by
  rw [runOn_readChunk] at read
  have grown := le_index_lookup image c d
  cases found : (ChunkIndex.lookup c).runOn image d.index with
  | mk result index =>
    rw [found] at read grown
    obtain ⟨answer, rfl⟩ := Prod.mk.inj read
    obtain ⟨descriptor, rfl, chunk⟩ := bind_eq_ok_iff.1 answer
    exact ⟨descriptor, (ChunkIndex.settles_lookup c).again found (le_refl _),
      (d.chunkAt_later grown c descriptor).trans chunk⟩

/-- Once settled, always settled: the index only grows. -/
theorem Settled.later {d : Dataset} {c : Coordinate} {buffer : Bytes}
    (settled : Settled image d c buffer) {index : ChunkIndex} (grown : d.index ≤ index) :
    Settled image { d with index } c buffer := by
  obtain ⟨descriptor, found, read⟩ := settled
  exact ⟨descriptor, (ChunkIndex.settles_lookup c).again found grown,
    (d.chunkAt_later grown c descriptor).trans read⟩

theorem Current.later {d : Dataset} (current : Current image d) {index : ChunkIndex}
    (grown : d.index ≤ index) : Current image { d with index } :=
  Cache.Holds.mono current fun _ _ settled => settled.later grown

theorem current_of_readChunk {d d' : Dataset} {c : Coordinate} {result : Except Error Bytes}
    (current : Current image d) (read : (readChunk c).runOn image d = (result, d')) :
    Current image d' := by
  have later := current.later (le_index_lookup image c d)
  rw [runOn_readChunk] at read
  rwa [← (Prod.mk.inj read).2]

/-- A request through the cache answers as the file does, and leaves the handle without its cache
as a request to the file does. -/
theorem runOn_decodedChunk {d : Dataset} (current : Current image d) (c : Coordinate) :
    ((decodedChunk c).runOn image d).1 = ((plainChunk c).runOn image d.uncached).1 ∧
    ((decodedChunk c).runOn image d).2.uncached = ((plainChunk c).runOn image d.uncached).2 ∧
    Current image ((decodedChunk c).runOn image d).2 := by
  rw [decodedChunk, plainChunk, runOn_get_bind, runOn_get_bind]
  have flag : d.uncached.isCancelled = d.isCancelled := rfl
  dsimp only
  rw [flag]
  by_cases cancelled : d.isCancelled = true
  · rw [if_pos cancelled, if_pos cancelled]
    exact ⟨rfl, rfl, current⟩
  rw [if_neg cancelled, if_neg cancelled]
  obtain ⟨kept, answers⟩ := Cache.Holds.request current c
  cases asked : d.cache.request c with
  | mk cached cache =>
    rw [asked] at kept answers
    have remains : Current image { d with cache } := kept
    rw [runOn_bind, runOn_set]
    have plain : (readChunk c).runOn image d.uncached =
        (((readChunk c).runOn image { d with cache }).1,
          ((readChunk c).runOn image { d with cache }).2.uncached) :=
      runOn_readChunk_uncached c { d with cache }
    cases cached with
    | some buffer =>
      have again : (readChunk c).runOn image { d with cache } = (.ok buffer, { d with cache }) :=
        runOn_readChunk_of_settled (answers buffer rfl)
      rw [plain, again]
      exact ⟨rfl, rfl, remains⟩
    | none =>
      dsimp only
      rw [runOn_bind, plain]
      cases read : (readChunk c).runOn image { d with cache } with
      | mk result d' =>
        have still : Current image d' := current_of_readChunk remains read
        cases result with
        | error e => exact ⟨rfl, rfl, still⟩
        | ok buffer => exact ⟨rfl, rfl, Cache.Holds.retain still (settled_of_readChunk read)⟩

/-! ## Two handles -/

/-- Two handles that hold the same of the index and differ in their caches only. -/
structure Alike (image : Image) (d d' : Dataset) : Prop where
  uncached : d.uncached = d'.uncached
  left : Current image d
  right : Current image d'

namespace Alike

variable {d d' : Dataset}

theorem index (alike : Alike image d d') : d.index = d'.index :=
  show d.uncached.index = d'.uncached.index from congrArg Dataset.index alike.uncached

theorem shape (alike : Alike image d d') : d.shape = d'.shape :=
  show d.uncached.shape = d'.uncached.shape from congrArg Dataset.shape alike.uncached

end Alike

theorem agrees_lookup (c : Coordinate) : Agrees image (Alike image) (lookup c) (lookup c) := by
  constructor
  intro d d' alike
  have grown := le_index_lookup image c d
  have rest : { d.uncached with index := ((ChunkIndex.lookup c).runOn image d.index).2 } =
      { d'.uncached with index := ((ChunkIndex.lookup c).runOn image d.index).2 } := by
    rw [alike.uncached]
  rw [runOn_lookup, runOn_lookup, ← alike.index]
  exact ⟨rfl, rest, alike.left.later grown, alike.right.later (alike.index ▸ grown)⟩

theorem agrees_decodedChunk (c : Coordinate) :
    Agrees image (Alike image) (decodedChunk c) (decodedChunk c) := by
  constructor
  intro d d' alike
  obtain ⟨answer, state, current⟩ := runOn_decodedChunk alike.left c
  obtain ⟨answer', state', current'⟩ := runOn_decodedChunk alike.right c
  rw [alike.uncached] at answer state
  exact ⟨answer.trans answer'.symm, state.trans state'.symm, current, current'⟩

theorem agrees_addChunk (selection : Hyperslab) (out : Bytes) (c : Coordinate) :
    Agrees image (Alike image) (addChunk selection out c) (addChunk selection out c) := by
  apply Agrees.bind (agrees_decodedChunk c)
  intro chunk
  apply Agrees.get_bind
  intro d d' alike
  rw [alike.shape]
  exact .of_detached (.liftM _)

theorem agrees_readHyperslab (selection : Hyperslab) :
    Agrees image (Alike image) (readHyperslab selection) (readHyperslab selection) := by
  apply Agrees.get_bind
  intro d d' alike
  rw [alike.shape]
  apply Agrees.bind (.of_detached (.ofExcept _))
  intro _
  apply Agrees.bind (.of_detached (.ofExcept _))
  intro bytes
  apply Agrees.bind (.of_detached (.ofExcept _))
  intro _
  apply Agrees.bind (.of_detached (.ofExcept _))
  intro span
  cases span with
  | none => exact .pure _
  | some span =>
    dsimp only
    rw [Box.visitAll_eq]
    generalize (List.replicate bytes 0 : Bytes) = out
    induction span.coordinates generalizing out with
    | nil => exact .pure _
    | cons c cs ih => exact .bind (agrees_addChunk selection out c) fun out => ih out

/-- Whatever is asked, two handles that are alike give the same answer and stay alike. -/
theorem agrees_perform (operation : Operation) :
    Agrees image (Alike image) (perform operation) (perform operation) := by
  cases operation with
  | lookup c => exact .bind (agrees_lookup c) fun _ => .pure _
  | chunk c => exact .bind (agrees_decodedChunk c) fun _ => .pure _
  | read selection => exact .bind (agrees_readHyperslab selection) fun _ => .pure _
  | readAll =>
    have all : Agrees image (Alike image) readAll readAll := by
      apply Agrees.get_bind
      intro d d' alike
      rw [alike.shape]
      exact agrees_readHyperslab _
    exact .bind all fun _ => .pure _
  | clearCache =>
    refine .bind (.modify fun d d' alike => ?_) fun _ => .pure _
    exact ⟨alike.uncached, Cache.holds_ofLimits _, Cache.holds_ofLimits _⟩
  | cancel =>
    refine .bind (.modify fun d d' alike => ?_) fun _ => .pure _
    exact ⟨congrArg Dataset.cancel alike.uncached, alike.left, alike.right⟩

theorem Alike.history_eq {d d' : Dataset} (alike : Alike image d d')
    (operations : List Operation) : history image operations d = history image operations d' := by
  induction operations generalizing d d' with
  | nil => rfl
  | cons operation operations ih =>
    obtain ⟨same, after⟩ := (agrees_perform operation).run alike
    rw [history, history, same, after.index, ih after]

/-- The handle with an empty cache of other limits. -/
def withLimits (d : Dataset) (limits : CacheLimits) : Dataset :=
  { d with
    cache := .ofLimits limits
    properties := { d.properties with cacheLimits := limits } }

section Opening

variable {widths : FileWidths} {layout : DataLayout} {shape : Shape} {pipeline : Pipeline}
  {properties : AccessProperties} {registry : Registry}

/-- Opening heeds the cache limits for the cache only. -/
theorem ofLayout_limits (limits : CacheLimits) :
    ofLayout widths layout shape pipeline { properties with cacheLimits := limits } registry =
      (ofLayout widths layout shape pipeline properties registry).map (withLimits · limits) := by
  show _ = (withLimits · limits) <$> ofLayout widths layout shape pipeline properties registry
  unfold ofLayout
  simp only [map_bind, map_pure]
  rfl

/-- A handle is opened with an empty cache. -/
theorem cache_of_ofLayout {d : Dataset}
    (opened : ofLayout widths layout shape pipeline properties registry = .ok d) :
    d.cache = .ofLimits properties.cacheLimits := by
  unfold ofLayout at opened
  obtain ⟨chunked, -, opened⟩ := bind_eq_ok_iff.1 opened
  obtain ⟨_, -, opened⟩ := bind_eq_ok_iff.1 opened
  obtain ⟨geometry, -, opened⟩ := bind_eq_ok_iff.1 opened
  obtain ⟨_, -, opened⟩ := bind_eq_ok_iff.1 opened
  obtain ⟨_, -, opened⟩ := bind_eq_ok_iff.1 opened
  obtain ⟨index, -, opened⟩ := bind_eq_ok_iff.1 opened
  cases opened
  rfl

end Opening

/-- Two handles opened alike but for their cache limits, a disabled cache included, have one
history, whatever the file holds and whatever is asked of them: every operation answers the same
on both, and the same number of structures of the index is decoded after it. -/
theorem ofLayout_history (image : Image) (widths : FileWidths) (layout : DataLayout)
    (shape : Shape) (pipeline : Pipeline) (properties : AccessProperties) (registry : Registry)
    (limits : CacheLimits) (operations : List Operation) :
    (ofLayout widths layout shape pipeline properties registry).map (history image operations) =
      (ofLayout widths layout shape pipeline { properties with cacheLimits := limits }
        registry).map (history image operations) := by
  rw [ofLayout_limits limits]
  cases opened : ofLayout widths layout shape pipeline properties registry with
  | error e => rfl
  | ok d =>
    have empty := cache_of_ofLayout opened
    have alike : Alike image d (d.withLimits limits) :=
      ⟨rfl, by rw [Current, empty]; exact Cache.holds_ofLimits _, Cache.holds_ofLimits _⟩
    exact congrArg Except.ok (alike.history_eq operations)

end Dataset

end ChunkStore
