import ChunkStore.Field
import ChunkStore.Utf8

/-!
# The filter pipeline message

A pipeline lists the filters that a chunk passes on its way to the file, in that order.
`Pipeline.parse` reads the message in either version and `Pipeline.serialize` writes it in the
pipeline's own. Version 1 pads names to a multiple of eight bytes and an odd count of client data
words to an even one; version 2 leaves out the names of the filters below 256.
-/

namespace ChunkStore

/-- Identifiers of the filters that the format defines. -/
def deflateId : UInt16 := 1
def shuffleId : UInt16 := 2
def fletcherId : UInt16 := 3
def scaleOffsetId : UInt16 := 6

/-- One filter of a pipeline. -/
structure FilterEntry where
  id : UInt16
  name : Option String
  flags : UInt16
  clientData : List UInt32
  deriving DecidableEq, Repr

/-- Whether a chunk is written without the filter when the filter fails on it. -/
def FilterEntry.isOptional (f : FilterEntry) : Bool := f.flags &&& 1 != 0

/-- The filters of a dataset, in the order in which writing applies them. -/
structure Pipeline where
  version : UInt8
  filters : List FilterEntry
  deriving DecidableEq, Repr

namespace Pipeline

/-- A version 2 pipeline. -/
def ofFilters (filters : List FilterEntry) : Pipeline := ⟨2, filters⟩

/-- No filters. -/
def empty : Pipeline := ofFilters []

/-- Whether chunks are stored as they are. -/
def isEmpty (p : Pipeline) : Bool := p.filters.isEmpty

/-- The least multiple of eight that is not below `n`. -/
def paddedLength (n : Nat) : Nat := (n + 7) / 8 * 8

/-- Whether the message has a name field for filter `id`. -/
def hasNameField (version : UInt8) (id : UInt16) : Bool := version == 1 || 256 ≤ id

/-- The text before the first zero byte of a name field. -/
def nameOf (raw : Bytes) : String := Utf8.decodeLossy (raw.takeWhile (· ≠ 0))

/-- The length of a filter's name field, if the message has one. -/
def parseNameLength (version : UInt8) (id : UInt16) : Parser Nat :=
  if hasNameField version id then Parser.uint 2 else pure 0

/-- A name field of the given length; version 1 pads it. -/
def parseName (version : UInt8) (length : Nat) : Parser (Option String) :=
  if length = 0 then pure none
  else do
    let raw ← Parser.take (if version = 1 then paddedLength length else length)
    return some (nameOf (raw.take length))

/-- Passes over what version 1 puts after an odd count of client data words. -/
def skipPadding (version : UInt8) (words : Nat) : Parser Unit :=
  if version = 1 ∧ words % 2 = 1 then Parser.skip 4 else pure ()

/-- One filter of a message. -/
def parseFilter (version : UInt8) : Parser FilterEntry := do
  let id ← Parser.word16
  let nameLength ← parseNameLength version id
  let flags ← Parser.word16
  let words ← Parser.uint 2
  let name ← parseName version nameLength
  let clientData ← Parser.times Parser.word32 words
  skipPadding version words
  return ⟨id, name, flags, clientData⟩

/-- A whole message. -/
def parser : Parser Pipeline := do
  let version ← Parser.byte
  let count ← Parser.byte
  if version ≠ 1 ∧ version ≠ 2 then throw (.invalidPipelineVersion version.toNat)
  if version = 1 then Parser.skip 6
  return ⟨version, ← Parser.times (parseFilter version) count.toNat⟩

/-- The pipeline that a message describes. -/
def parse (message : Bytes) : Except Error Pipeline := parser.parse message

/-- A non-empty name closed by a zero byte, and padded in version 1; no bytes for no name. -/
def nameField (version : UInt8) (name : Option String) : Bytes :=
  let text := Utf8.encode (name.getD "")
  let closed := if text.isEmpty then [] else text ++ [0]
  if version = 1 then closed ++ List.replicate (paddedLength closed.length - closed.length) 0
  else closed

/-- One filter of a message. -/
def serializeFilter (version : UInt8) (f : FilterEntry) : Bytes :=
  let named := hasNameField version f.id
  let name := nameField version f.name
  LittleEndian.encode 2 f.id.toNat ++
    (if named then LittleEndian.encode 2 name.length else []) ++
    LittleEndian.encode 2 f.flags.toNat ++
    LittleEndian.encode 2 f.clientData.length ++
    (if named then name else []) ++
    f.clientData.flatMap (fun word => LittleEndian.encode 4 word.toNat) ++
    (if version = 1 ∧ f.clientData.length % 2 = 1 then List.replicate 4 0 else [])

/-- The message of a pipeline: version 1 if that is its version, and else version 2. -/
def serialize (p : Pipeline) : Bytes :=
  let version : UInt8 := if p.version = 1 then 1 else 2
  [version, UInt8.ofNat p.filters.length] ++
    (if version = 1 then List.replicate 6 0 else []) ++
    p.filters.flatMap (serializeFilter version)

end Pipeline

end ChunkStore
