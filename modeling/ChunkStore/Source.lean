import ChunkStore.Error

/-!
# Where the bytes of a file come from

A file is an image in memory or a reader with a position that every read moves; each is a
`ByteSource` with its own check of what a range may ask for. Code that reads a file is a `Fetch`: it
asks for ranges and goes on with the answers, whichever source gives them. `Fetch.runFrom` answers
from a source. `Fetch.run` answers from an image by `Image.read`, the rule of what a range answers.
-/

namespace ChunkStore

/-- The file as a run of bytes in memory. -/
abbrev Image := Bytes

/-- The error of a range that ends beyond the file. -/
def beyondEnd (offset length available : Nat) : Error :=
  .unexpectedEnd (saturate (offset + length)) available

/-- The `length` bytes at `offset`. -/
def Image.read (image : Image) (offset length : Nat) : Except Error Bytes :=
  if offset + length ≤ image.length then .ok (slice image offset length)
  else .error (beyondEnd offset length image.length)

/-- A reader over an image, which keeps a position between reads. -/
structure SeekReader where
  image : Image
  position : Nat
  deriving Repr

namespace SeekReader

/-- The reader moved to `offset`. -/
def seek (r : SeekReader) (offset : Nat) : SeekReader := { r with position := offset }

/-- Fills a buffer of `length` bytes from the position on. A reader that has fewer bytes left is at
its end afterwards. -/
def fill (r : SeekReader) (length : Nat) : Except Error Bytes × SeekReader :=
  if length ≤ r.image.length - r.position then
    (.ok (slice r.image r.position length), r.seek (r.position + length))
  else (.error .readerEnded, r.seek r.image.length)

end SeekReader

/-- A reader with the length that it had when it was measured. -/
structure MeasuredReader where
  reader : SeekReader
  size : Nat
  deriving Repr

/-- Measures a reader by moving it to its end. -/
def SeekReader.measure (r : SeekReader) : MeasuredReader := ⟨r.seek r.image.length, r.image.length⟩

/-- Whether a range ends at a 64-bit number that is not beyond `available`. -/
def inReach (offset length available : Nat) : Bool :=
  (checked (offset + length)).any (· ≤ available)

/-- What serves the bytes of a file. It has a state, which reading may change. -/
structure ByteSource (σ : Type) where
  /-- How many bytes there are. -/
  size : σ → Nat
  /-- Fills a buffer of `length` bytes from `offset` on. -/
  readAt : (offset length : Nat) → σ → Except Error Bytes × σ

namespace ByteSource

variable {σ : Type}

/-- The bytes of a range in a new buffer, which is only made for a range that the source has. -/
def readVec (source : ByteSource σ) (offset length : Nat) (s : σ) : Except Error Bytes × σ :=
  if inReach offset length (source.size s) then source.readAt offset length s
  else (.error (beyondEnd offset length (source.size s)), s)

/-- An image in memory, of which ranges are copied. -/
def memory : ByteSource Image where
  size := List.length
  readAt offset length image :=
    if inReach offset length image.length then (.ok (slice image offset length), image)
    else (.error (beyondEnd offset length image.length), image)

/-- A reader, which is moved to the range and read from there. -/
def seeking : ByteSource MeasuredReader where
  size := MeasuredReader.size
  readAt offset length r :=
    if inReach offset length r.size then
      let (answer, reader) := (r.reader.seek offset).fill length
      (answer, { r with reader })
    else (.error (beyondEnd offset length r.size), r)

end ByteSource

/-- A computation that asks for ranges of a file. -/
inductive Fetch (α : Type) where
  /-- The computation is over. -/
  | done (value : α)
  /-- It asks for `length` bytes at `offset` and goes on with the answer. -/
  | read (offset length : Nat) (next : Except Error Bytes → Fetch α)

namespace Fetch

variable {α β : Type}

/-- Goes on with `f` where the computation is over. -/
def bind : Fetch α → (α → Fetch β) → Fetch β
  | done a, f => f a
  | read offset length next, f => read offset length fun answer => (next answer).bind f

instance : Monad Fetch where
  pure := done
  bind := bind

/-- The result over a file in memory. -/
def run (image : Image) : Fetch α → α
  | done a => a
  | read offset length next => (next (image.read offset length)).run image

/-- The result over any source, and the source afterwards. -/
def runFrom {σ : Type} (source : ByteSource σ) : Fetch α → σ → α × σ
  | done a, s => (a, s)
  | read offset length next, s =>
    let (answer, s) := source.readVec offset length s
    (next answer).runFrom source s

@[simp] theorem run_pure (image : Image) (a : α) : (pure a : Fetch α).run image = a := rfl

@[simp] theorem run_bind (image : Image) (x : Fetch α) (f : α → Fetch β) :
    (x >>= f).run image = (f (x.run image)).run image := by
  show (bind x f).run image = _
  induction x with
  | done a => rfl
  | read offset length next ih => exact ih _

end Fetch

/-- A computation over a state that may read the file and may fail; the state survives failure. -/
abbrev Session (σ : Type) := ExceptT Error (StateT σ Fetch)

namespace Session

variable {σ τ α : Type}

/-- The result over a file in memory, and the state afterwards. -/
def runOn (x : Session σ α) (image : Image) (s : σ) : Except Error α × σ :=
  ((ExceptT.run x).run s).run image

/-- The result over any source, the state afterwards, and the source. -/
def runFrom {ρ : Type} (source : ByteSource ρ) (x : Session σ α) (s : σ) (r : ρ) :
    (Except Error α × σ) × ρ :=
  Fetch.runFrom source ((ExceptT.run x).run s) r

/-- The bytes of a range of the file. -/
def fetch (offset length : Nat) : Session σ Bytes := fun s =>
  .read offset length fun answer => .done (answer, s)

/-- A result that needs no file. -/
def ofExcept (x : Except Error α) : Session σ α := ExceptT.mk (pure x)

/-- A computation on a part of the state. -/
def zoom (get : σ → τ) (set : τ → σ → σ) (x : Session τ α) : Session σ α := fun s => do
  let (result, t) ← (ExceptT.run x).run (get s)
  return (result, set t s)

end Session

end ChunkStore
