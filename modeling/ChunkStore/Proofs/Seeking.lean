import ChunkStore.Proofs.Dataset.Uncached

/-!
# A reader serves what its image serves

`ByteSource.Simulates` relates the states of two sources that answer every range alike. Whatever is
asked of a source is asked range by range, so sources that simulate each other answer requests
(`Simulates.answers`), programs (`Simulates.runFrom`) and whole runs of sessions
(`Simulates.transcript`) alike. A measured reader simulates the image that it reads
(`simulates_seeking`): it moves before it reads, so where it stood before does not show.
Over an image that memory can hold, sources serve what `Fetch.run` answers (`runFrom_memory`), and
what is known of operations on an image holds of operations on a reader (`history_seeking`).
-/

namespace ChunkStore

/-! ## What is asked of a source -/

/-- What can be asked of a source. -/
inductive Request where
  /-- To fill a buffer of `length` bytes from `offset` on. -/
  | readAt (offset length : Nat)
  /-- To make a buffer of the `length` bytes at `offset`. -/
  | readVec (offset length : Nat)
  deriving DecidableEq, Repr

namespace ByteSource

variable {ρ : Type}

/-- The answer to one request, and the source after it. -/
def ask (source : ByteSource ρ) : Request → ρ → Except Error Bytes × ρ
  | .readAt offset length => source.readAt offset length
  | .readVec offset length => source.readVec offset length

/-- The answers to requests, one after another. -/
def answers (source : ByteSource ρ) : List Request → ρ → List (Except Error Bytes)
  | [], _ => []
  | request :: requests, r =>
    (source.ask request r).1 :: source.answers requests (source.ask request r).2

end ByteSource

/-- What runs of sessions answer, one after another, and the state after each. -/
def Session.transcript {ρ σ ι α : Type} (source : ByteSource ρ) (perform : ι → Session σ α) :
    List ι → σ → ρ → List (Except Error α × σ)
  | [], _, _ => []
  | i :: is, s, r =>
    let (ran, r) := (perform i).runFrom source s r
    ran :: transcript source perform is ran.2 r

/-! ## Sources that answer alike -/

/-- In related states the two sources have one size and answer every range alike, and they are
related afterwards. -/
structure ByteSource.Simulates {ρ τ : Type} (source : ByteSource ρ) (other : ByteSource τ)
    (related : ρ → τ → Prop) : Prop where
  size : ∀ {r t}, related r t → source.size r = other.size t
  readAt : ∀ {r t}, related r t → ∀ offset length,
    (source.readAt offset length r).1 = (other.readAt offset length t).1 ∧
      related (source.readAt offset length r).2 (other.readAt offset length t).2

namespace ByteSource.Simulates

variable {ρ τ σ ι α : Type} {source : ByteSource ρ} {other : ByteSource τ}
  {related : ρ → τ → Prop} {r : ρ} {t : τ}

theorem readVec (simulates : source.Simulates other related) (here : related r t)
    (offset length : Nat) :
    (source.readVec offset length r).1 = (other.readVec offset length t).1 ∧
      related (source.readVec offset length r).2 (other.readVec offset length t).2 := by
  unfold ByteSource.readVec
  rw [simulates.size here]
  split
  · exact simulates.readAt here offset length
  · exact ⟨rfl, here⟩

theorem ask (simulates : source.Simulates other related) (here : related r t)
    (request : Request) :
    (source.ask request r).1 = (other.ask request t).1 ∧
      related (source.ask request r).2 (other.ask request t).2 := by
  cases request with
  | readAt offset length => exact simulates.readAt here offset length
  | readVec offset length => exact simulates.readVec here offset length

theorem answers (simulates : source.Simulates other related) (here : related r t)
    (requests : List Request) : source.answers requests r = other.answers requests t := by
  induction requests generalizing r t with
  | nil => rfl
  | cons request requests ih =>
    obtain ⟨same, after⟩ := simulates.ask here request
    simp [ByteSource.answers, same, ih after]

/-- A program goes on alike after every answer. -/
theorem runFrom (simulates : source.Simulates other related) (here : related r t)
    (x : Fetch α) :
    (x.runFrom source r).1 = (x.runFrom other t).1 ∧
      related (x.runFrom source r).2 (x.runFrom other t).2 := by
  induction x generalizing r t with
  | done a => exact ⟨rfl, here⟩
  | read offset length next ih =>
    obtain ⟨same, after⟩ := simulates.readVec here offset length
    simp only [Fetch.runFrom, same]
    exact ih _ after

/-- A run leaves related sources to the runs after it. -/
theorem transcript (simulates : source.Simulates other related) (here : related r t)
    (perform : ι → Session σ α) (is : List ι) (s : σ) :
    Session.transcript source perform is s r = Session.transcript other perform is s t := by
  induction is generalizing s r t with
  | nil => rfl
  | cons i is ih =>
    obtain ⟨same, after⟩ := simulates.runFrom here ((ExceptT.run (perform i)).run s)
    simp only [Session.transcript, Session.runFrom, same]
    rw [ih after]

end ByteSource.Simulates

/-! ## Readers and images -/

/-- The reader reads the image and was measured on it; where it stands is left open. -/
structure MeasuredReader.Over (r : MeasuredReader) (image : Image) : Prop where
  reads : r.reader.image = image
  measured : r.size = image.length

theorem SeekReader.over_measure (r : SeekReader) : r.measure.Over r.image := ⟨rfl, rfl⟩

/-- A buffer is filled from where the reader was moved to, if that many bytes are left there. -/
theorem SeekReader.fill_seek (r : SeekReader) {offset length : Nat}
    (inside : offset + length ≤ r.image.length) :
    (r.seek offset).fill length =
      (.ok (slice r.image offset length), r.seek (offset + length)) := by
  have left : length ≤ r.image.length - offset := by omega
  simp [fill, seek, left]

theorem inReach_iff {offset length available : Nat} : inReach offset length available = true ↔
    offset + length ≤ maxWord ∧ offset + length ≤ available := by
  unfold inReach checked
  split
  · simp_all
  · simp; omega

namespace ByteSource

theorem simulates_seeking : seeking.Simulates memory MeasuredReader.Over := by
  constructor
  · intro r image reader
    exact reader.measured
  · intro r image reader offset length
    obtain ⟨rfl, size⟩ := reader
    simp only [seeking, memory, size]
    split
    next reach =>
      rw [r.reader.fill_seek (inReach_iff.1 reach).2]
      exact ⟨rfl, rfl, rfl⟩
    next => exact ⟨rfl, rfl, size⟩

/-- Whether a reader or an image in memory serves the file does not show: wherever the reader
stands, requests of any offsets and lengths are answered alike, and lookups in an index and
operations on a dataset answer alike and leave alike what was decoded and cached. -/
theorem seeking_eq_memory (image : Image) (position : Nat) :
    (∀ requests, seeking.answers requests ⟨⟨image, position⟩, image.length⟩ =
      memory.answers requests image) ∧
    (∀ (coordinates : List Coordinate) (ix : ChunkIndex),
      Session.transcript seeking ChunkIndex.lookup coordinates ix
          ⟨⟨image, position⟩, image.length⟩ =
        Session.transcript memory ChunkIndex.lookup coordinates ix image) ∧
    ∀ (operations : List Dataset.Operation) (d : Dataset),
      Session.transcript seeking Dataset.perform operations d ⟨⟨image, position⟩, image.length⟩ =
        Session.transcript memory Dataset.perform operations d image := by
  have reader : MeasuredReader.Over ⟨⟨image, position⟩, image.length⟩ image := ⟨rfl, rfl⟩
  refine ⟨?_, ?_, ?_⟩
  · exact simulates_seeking.answers reader
  · exact simulates_seeking.transcript reader ChunkIndex.lookup
  · exact simulates_seeking.transcript reader Dataset.perform

/-! ## What is known of images -/

/-- In memory a range is within 64 bits when the image is. -/
theorem readVec_memory {image : Image} (bound : image.length ≤ maxWord) (offset length : Nat) :
    memory.readVec offset length image = (image.read offset length, image) := by
  unfold readVec memory Image.read
  dsimp only
  by_cases inside : offset + length ≤ image.length
  · have reach : inReach offset length image.length = true := inReach_iff.2 ⟨by omega, inside⟩
    simp [reach, inside]
  · have refused : ¬ inReach offset length image.length = true := by
      intro reach
      exact inside (inReach_iff.1 reach).2
    simp [refused, inside]

end ByteSource

open ByteSource

theorem Fetch.runFrom_memory {α : Type} {image : Image} (bound : image.length ≤ maxWord)
    (x : Fetch α) : x.runFrom memory image = (x.run image, image) := by
  induction x with
  | done a => rfl
  | read offset length next ih => simp only [runFrom, run, readVec_memory bound, ih]

theorem Session.transcript_memory {σ ι α : Type} {image : Image} (bound : image.length ≤ maxWord)
    (perform : ι → Session σ α) (i : ι) (is : List ι) (s : σ) :
    transcript memory perform (i :: is) s image =
      (perform i).runOn image s ::
        transcript memory perform is ((perform i).runOn image s).2 image := by
  simp only [transcript, runFrom, runOn, Fetch.runFrom_memory bound]

/-- Over a reader that was just measured, operations have the history that they have over its
image. -/
theorem Dataset.history_seeking (r : SeekReader) (bound : r.image.length ≤ maxWord)
    (operations : List Operation) (d : Dataset) :
    (Session.transcript seeking perform operations d r.measure).map
        (fun ran => (ran.1, ran.2.index.decoded)) = history r.image operations d := by
  rw [simulates_seeking.transcript r.over_measure]
  induction operations generalizing d with
  | nil => rfl
  | cons operation operations ih =>
    simp [Session.transcript_memory bound, history, ih]

end ChunkStore
