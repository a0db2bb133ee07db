import ChunkStore.Zlib.Stream

/-!
# Decompressing through a reader of pieces

A `Reader` hands out data in pieces: each call offers room for some bytes and is given at least one
of those still to come; after the last byte it is given the end of the data or a fault, for ever.
`Reader.decompress` collects the pieces. With a hint it makes room for just that many bytes, which
memory may not have, and then probes for one more, so that data which is too long is refused and
not cut short; without one it reads to the end. A `Library` has a compressor and a reader of what
its streams deliver: `storing` is the one with `deflate` and a `PieceReader` of what `inflate`
delivers.
-/

namespace ChunkStore.Zlib

/-- Why decompression fails. -/
inductive InflateError (ε : Type) where
  /-- The reader stops with a fault. -/
  | fault (fault : ε)
  /-- The reader has more than `hint` bytes. -/
  | beyondHint (hint : Nat)
  /-- Memory has no room for `hint` bytes. -/
  | noRoom (hint : Nat)
  deriving DecidableEq, Repr

/-- The fault in words. -/
def Fault.message : Fault → String
  | .corrupt => "corrupt deflate stream"
  | .incomplete => "incomplete deflate stream"

instance : ToString Fault := ⟨Fault.message⟩

/-- The error in words. -/
def InflateError.message {ε : Type} [ToString ε] : InflateError ε → String
  | .fault e => toString e
  | .beyondHint hint => s!"deflate stream decodes to more than the expected {hint} bytes"
  | .noRoom _ => "capacity overflow"

/-- What a call is given after the last byte: an empty piece for the end, or the fault. -/
def afterLast {ε : Type} : Option ε → Except ε Bytes
  | none => .ok []
  | some fault => .error fault

/-- Something that hands out data in pieces. -/
structure Reader (σ ε : Type) where
  /-- What a call is given that offers room for `room` bytes. -/
  read : (room : Nat) → σ → Except ε Bytes × σ
  /-- The bytes still to come. -/
  rest : σ → Bytes
  /-- The fault after them, if they do not just end. -/
  fault : σ → Option ε
  /-- While there are bytes to come, a call is given some from their front. -/
  read_piece : ∀ {room : Nat} {s : σ}, 0 < room → rest s ≠ [] → ∃ piece s',
    read room s = (.ok piece, s') ∧ piece ≠ [] ∧ piece.length ≤ room ∧
      rest s = piece ++ rest s' ∧ fault s' = fault s
  /-- Once there are none, every call is given the end or the fault. -/
  read_last : ∀ {room : Nat} {s : σ}, 0 < room → rest s = [] → ∃ s',
    read room s = (afterLast (fault s), s') ∧ rest s' = [] ∧ fault s' = fault s

namespace Reader

variable {σ ε : Type} (R : Reader σ ε)

/-- A piece comes from the front of the bytes. -/
theorem rest_of_read {room : Nat} {s s' : σ} {piece : Bytes} (pos : 0 < room)
    (given : R.read room s = (.ok piece, s')) : R.rest s = piece ++ R.rest s' := by
  by_cases last : R.rest s = []
  · obtain ⟨s'', read, none, -⟩ := R.read_last pos last
    obtain ⟨ended, rfl⟩ := Prod.mk.inj (given.symm.trans read)
    have empty : piece = [] := by
      cases fault : R.fault s with
      | none =>
        rw [fault] at ended
        exact Except.ok.inj ended
      | some e =>
        rw [fault] at ended
        cases ended
    rw [last, none, empty, List.append_nil]
  · obtain ⟨piece', s'', read, -, -, front, -⟩ := R.read_piece pos last
    obtain ⟨same, rfl⟩ := Prod.mk.inj (given.symm.trans read)
    cases same
    exact front

/-- After a piece there is less to come. -/
theorem length_rest_of_read {room : Nat} {s s' : σ} {piece : Bytes} (pos : 0 < room)
    (given : R.read room s = (.ok piece, s')) (some : piece ≠ []) :
    (R.rest s').length < (R.rest s).length := by
  have bytes : 0 < piece.length := List.length_pos_iff.2 some
  rw [R.rest_of_read pos given, List.length_append]
  omega

/-- Fills `room` bytes, or fewer when the data ends. -/
def fill (room : Nat) (s : σ) : Except ε (Bytes × σ) :=
  if full : room = 0 then .ok ([], s)
  else match R.read room s with
    | (.error e, _) => .error e
    | (.ok piece, s) =>
      if last : piece = [] then .ok ([], s)
      else
        have : room - piece.length < room :=
          Nat.sub_lt (Nat.pos_of_ne_zero full) (List.length_pos_iff.2 last)
        do
          let (more, s) ← fill (room - piece.length) s
          return (piece ++ more, s)
termination_by room

/-- All the data from call number `calls` on; the calls offer buffers of any sizes. -/
def readToEnd (buffers : Nat → Nat) (calls : Nat) (s : σ) : Except ε Bytes :=
  match given : R.read (buffers calls + 1) s with
  | (.error e, _) => .error e
  | (.ok piece, s') =>
    if last : piece = [] then .ok []
    else
      have : (R.rest s').length < (R.rest s).length :=
        R.length_rest_of_read (Nat.succ_pos _) given last
      do return piece ++ (← readToEnd buffers (calls + 1) s')
termination_by (R.rest s).length

/-- The data, when there are at most `hint` bytes of it. A buffer for so many is made first, and
memory can address less than half of the address space. -/
def readWithin (hint : Nat) (s : σ) : Except (InflateError ε) Bytes := do
  if UInt64.size / 2 ≤ hint then throw (.noRoom hint)
  let (data, s) ← (R.fill hint s).mapError .fault
  if data.length = hint then
    let probe ← (R.read 1 s).1.mapError .fault
    if probe ≠ [] then throw (.beyondHint hint)
  return data

/-- All the data; a positive hint bounds it. -/
def decompress (buffers : Nat → Nat) (hint : Nat) (s : σ) : Except (InflateError ε) Bytes :=
  if hint = 0 then (R.readToEnd buffers 0 s).mapError .fault else R.readWithin hint s

end Reader

/-- A library for zlib streams. -/
structure Library (σ ε : Type) where
  /-- A stream with the given data; more effort goes into a higher level, of 0 to 9. -/
  compress : (level : Nat) → Bytes → Except ε Bytes
  reader : Reader σ ε
  /-- The reader before the first byte of a stream. -/
  start : Bytes → σ
  /-- Room in the buffers that a stream is read to its end with, less one byte. -/
  buffers : Nat → Nat

namespace Library

variable {σ ε : Type} (l : Library σ ε)

/-- The data of a stream; a positive hint bounds its length. -/
def decompress (stream : Bytes) (hint : Nat) : Except (InflateError ε) Bytes :=
  l.reader.decompress l.buffers hint (l.start stream)

/-- What is compressed is delivered again, and the stream ends without a fault. -/
def Lossless : Prop :=
  ∀ {level : Nat} {data stream : Bytes}, l.compress level data = .ok stream →
    l.reader.rest (l.start stream) = data ∧ l.reader.fault (l.start stream) = none

end Library

/-- What a stream delivers, on its way out in pieces. -/
structure PieceReader where
  /-- What is still to come. -/
  rest : Delivery
  /-- Calls so far. -/
  calls : Nat
  /-- The size of piece that each call would like to give. -/
  wish : Nat → Nat

namespace PieceReader

/-- A reader that gives as much as there is room for. -/
def ofDelivery (d : Delivery) : PieceReader := ⟨d, 0, fun _ => d.data.length⟩

/-- The next piece, of at most `room` bytes; an empty piece is the end of the stream. -/
def read (room : Nat) (r : PieceReader) : Except Fault Bytes × PieceReader :=
  if r.rest.data.isEmpty then (afterLast r.rest.fault, r)
  else
    let size := min (max 1 (r.wish r.calls)) room
    (.ok (r.rest.data.take size),
      { r with rest.data := r.rest.data.drop size, calls := r.calls + 1 })

/-- What a stream delivers is read in pieces of any sizes. -/
def reader : Reader PieceReader Fault where
  read := read
  rest r := r.rest.data
  fault r := r.rest.fault
  read_piece := by
    intro room r pos some
    refine ⟨_, _, if_neg (by simpa using some), ?_, ?_, (List.take_append_drop ..).symm, rfl⟩
    · simp [some]
      omega
    · rw [List.length_take]
      omega
  read_last := by
    intro room r _ last
    exact ⟨r, if_pos (by simp [last]), last, rfl⟩

end PieceReader

/-- Room in each buffer that a stream is read to its end with, less one byte. -/
def bufferRoom : Nat := 8191

/-- The library that stores its data in blocks, as for level 0, whatever the level. -/
def storing : Library PieceReader Fault where
  compress _ data := .ok (deflate data)
  reader := PieceReader.reader
  start stream := .ofDelivery (inflate stream)
  buffers _ := bufferRoom

/-- The data of the zlib stream at the front of `bytes`; a positive hint bounds its length. -/
def decompress (bytes : Bytes) (hint : Nat) : Except (InflateError Fault) Bytes :=
  storing.decompress bytes hint

end ChunkStore.Zlib
