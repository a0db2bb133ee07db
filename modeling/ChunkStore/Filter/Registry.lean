import ChunkStore.Filter.Pipeline

/-!
# Running a filter pipeline

A `Codec` is one reversible filter and a `Registry` finds the codec of a filter identifier.
`Registry.encode` applies the filters of a pipeline in order and notes in the filter mask which
optional ones it had to leave out; `Registry.decode` undoes them in reverse, leaving out those
that the mask names.
-/

namespace ChunkStore

/-- What a codec knows about the chunk that it transforms. -/
structure FilterContext where
  /-- The filter as the pipeline describes it. -/
  entry : FilterEntry
  /-- Its place in the pipeline, from 0. -/
  position : Nat
  /-- Bytes of an element of the dataset. -/
  elementSize : Nat
  /-- Bytes of a decoded chunk. -/
  chunkBytes : Nat
  /-- Bytes that decoding must produce, or 0 when they are not known. -/
  outputHint : Nat
  deriving Repr

/-- A reversible filter. -/
structure Codec where
  name : String
  /-- Undoes the filter. -/
  decode : FilterContext → Bytes → Except Error Bytes
  /-- Applies the filter. -/
  encode : FilterContext → Bytes → Except Error Bytes

/-- The codecs in use, by ascending filter identifier. -/
structure Registry where
  codecs : List (UInt16 × Codec)

/-- A chunk on its way through the filters, and the mask of those left out. -/
structure Encoded where
  data : Bytes
  mask : UInt32
  deriving DecidableEq, Repr

/-- The mask bit of a place in the pipeline; places from 32 on have none. -/
def maskBit (position : Nat) : UInt32 :=
  if position < 32 then (1 : UInt32) <<< UInt32.ofNat position else 0

/-- Whether the mask leaves out the filter at a place. -/
def isMasked (mask : UInt32) (position : Nat) : Bool := mask &&& maskBit position != 0

/-- The bytes that the filter at `position` must decode to: a whole chunk when only shuffles come
before it, and not known otherwise. -/
def outputHint (p : Pipeline) (position chunkBytes : Nat) : Nat :=
  if (p.filters.take position).all fun f => f.id == shuffleId then chunkBytes else 0

/-- No more bytes are hinted at than the chunk has. -/
theorem outputHint_le (p : Pipeline) (position chunkBytes : Nat) :
    outputHint p position chunkBytes ≤ chunkBytes := by
  unfold outputHint
  split
  · exact Nat.le_refl _
  · exact Nat.zero_le _

namespace Registry

/-- No codecs. -/
def empty : Registry := ⟨[]⟩

/-- The codec of an identifier. -/
def get? (r : Registry) (id : UInt16) : Option Codec := r.codecs.lookup id

/-- Whether an identifier has a codec. -/
def contains (r : Registry) (id : UInt16) : Bool := (r.get? id).isSome

/-- The identifiers that have a codec, in ascending order. -/
def ids (r : Registry) : List UInt16 := r.codecs.map Prod.fst

/-- Gives an identifier a codec, in place of the one that it had. -/
def insert (r : Registry) (id : UInt16) (codec : Codec) : Registry :=
  let below := r.codecs.filter fun (other, _) => other < id
  let above := r.codecs.filter fun (other, _) => id < other
  ⟨below ++ (id, codec) :: above⟩

/-- The codec of a filter, or an error that names the filter. -/
def codecOf (r : Registry) (f : FilterEntry) : Except Error Codec :=
  match r.get? f.id with
  | some codec => .ok codec
  | none => .error (.unsupportedFilter f.id f.name)

/-- Undoes the filter at one place, unless the mask leaves it out. -/
def decodeStep (r : Registry) (p : Pipeline) (mask : UInt32) (elementSize chunkBytes : Nat)
    (data : Bytes) : FilterEntry × Nat → Except Error Bytes
  | (entry, position) =>
    if isMasked mask position then .ok data
    else do
      let codec ← r.codecOf entry
      codec.decode ⟨entry, position, elementSize, chunkBytes, outputHint p position chunkBytes⟩
        data

/-- Undoes a pipeline on a stored chunk. -/
def decode (r : Registry) (p : Pipeline) (mask : UInt32) (data : Bytes)
    (elementSize chunkBytes : Nat) : Except Error Bytes :=
  p.filters.zipIdx.reverse.foldlM (r.decodeStep p mask elementSize chunkBytes) data

/-- Applies the filter at one place; an optional one that fails is left out and noted. -/
def encodeStep (r : Registry) (p : Pipeline) (elementSize chunkBytes : Nat) (chunk : Encoded) :
    FilterEntry × Nat → Except Error Encoded
  | (entry, position) =>
    let result := do
      let codec ← r.codecOf entry
      codec.encode ⟨entry, position, elementSize, chunkBytes, outputHint p position chunkBytes⟩
        chunk.data
    match result with
    | .ok data => .ok { chunk with data }
    | .error e =>
      if entry.isOptional then .ok { chunk with mask := chunk.mask ||| maskBit position }
      else .error e

/-- Applies a pipeline to a chunk. -/
def encode (r : Registry) (p : Pipeline) (data : Bytes) (elementSize : Nat) :
    Except Error Encoded :=
  p.filters.zipIdx.foldlM (r.encodeStep p elementSize data.length) ⟨data, 0⟩

/-- The codecs with their names, as in `\x7b1: "deflate"\x7d`. -/
def describe (r : Registry) : String :=
  let items := r.codecs.map fun (id, codec) => s!"{id.toNat}: " ++ "\"" ++ codec.name ++ "\""
  "\x7b" ++ ", ".intercalate items ++ "\x7d"

end Registry

end ChunkStore
