import ChunkStore.Element.Basic
import ChunkStore.Text

/-!
# What can go wrong with a stored dataset

`Error` lists the causes for which locating, reading, decoding or writing a chunk fails;
`Error.kind` sorts them into the broad categories a caller acts on, and `Error.message` puts them
into words. A structure whose fields contradict each other is `Error.corrupt`, with the structure
(`Part`) and the contradiction (`Defect`).
-/

namespace ChunkStore

/-- The structures of a file and of a message. -/
inductive Part where
  | field
  | dataLayout
  | dataspace
  | chunkShape
  | chunk
  | fillValue
  | indexHeader
  | indexElement
  | fixedArray
  | fixedArrayHeader
  | fixedArrayBlock
  | fixedArrayPage
  | extensibleArrayHeader
  | extensibleArrayIndexBlock
  | extensibleArraySecondaryBlock
  | extensibleArrayDataBlock
  | extensibleArrayPage
  | treeOneNode
  | treeTwoHeader
  | treeTwoNode
  | treeTwoInternalNode
  | treeTwoLeafNode
  | scaleOffsetParameters
  | scaleOffsetChunk
  | fletcherChunk
  deriving DecidableEq, Repr

/-- The structure's name in messages. -/
def Part.name : Part → String
  | .field => "field"
  | .dataLayout => "data layout"
  | .dataspace => "dataspace"
  | .chunkShape => "chunk shape"
  | .chunk => "chunk"
  | .fillValue => "fill value"
  | .indexHeader => "chunk index header"
  | .indexElement => "chunk index element"
  | .fixedArray => "fixed array"
  | .fixedArrayHeader => "fixed array header"
  | .fixedArrayBlock => "fixed array data block"
  | .fixedArrayPage => "fixed array page"
  | .extensibleArrayHeader => "extensible array header"
  | .extensibleArrayIndexBlock => "extensible array index block"
  | .extensibleArraySecondaryBlock => "extensible array secondary block"
  | .extensibleArrayDataBlock => "extensible array data block"
  | .extensibleArrayPage => "extensible array data block page"
  | .treeOneNode => "v1 B-tree node"
  | .treeTwoHeader => "v2 B-tree header"
  | .treeTwoNode => "v2 B-tree node"
  | .treeTwoInternalNode => "v2 B-tree internal node"
  | .treeTwoLeafNode => "v2 B-tree leaf node"
  | .scaleOffsetParameters => "scale-offset parameters"
  | .scaleOffsetChunk => "scale-offset chunk"
  | .fletcherChunk => "fletcher32 chunk"

/-- The class of the elements that scale-offset packs. -/
inductive NumberClass where
  | integer
  | float
  deriving DecidableEq, Repr

/-- The class in messages. -/
def NumberClass.name : NumberClass → String
  | .integer => "Integer"
  | .float => "Float"

/-- How the fields of a structure contradict each other. -/
inductive Defect where
  | wideInteger (size : Nat)
  | zeroChunkDimension
  | chunkBytesOverflow
  | dimensionWidth (width : Nat)
  | fewDimensions (count : Nat)
  | chunkDimensionRange
  | shapesDisagree (layoutDims : List Nat) (layoutSize : Nat) (dims : List Nat) (size : Nat)
  | extentBeyondMaximum (dimension extent maximum : Nat)
  | fillLength (length elementSize : Nat)
  | decodedLength (coordinate : List Nat) (length expected : Nat)
  | filteredElement (length : Nat)
  | elementWidth (width offsetSize : Nat)
  | entrySpan (count width : Nat)
  | clientId (id : Nat) (filtered : Bool)
  | owner (found expected : Nat)
  | indexBits (bits minElements : Nat)
  | blockSizeNotPowerOfTwo (size : Nat)
  | pointerCountNotPowerOfTwo (count : Nat)
  | nodeType (type : Nat)
  | nodeLevel (level parentLevel : Nat)
  | recordType (type expected : Nat)
  | recordTypeInTree (type treeType : Nat)
  | recordSize (size type rank : Nat)
  | nodeTooSmall (nodeBytes recordBytes : Nat)
  | recordCount (count maximum : Nat)
  | nodeDepth (depth : Nat)
  | clientDataCount (count : Nat)
  | elementClass (code : Nat)
  | classSize (size : Nat) (numberClass : NumberClass)
  | decodedElements (count size chunkBytes : Nat)
  | packedWidth (minbits bits : Nat)
  | inputLength (length count size : Nat)
  | noChecksum (length : Nat)
  | entryCountOverflow
  | entrySize (size : Nat)
  | storedSizeWidth (size width : Nat)
  deriving DecidableEq, Repr

/-- The contradiction in words. -/
def Defect.message : Defect → String
  | .wideInteger size => s!"{size}-byte integer field"
  | .zeroChunkDimension => "zero-sized chunk dimension"
  | .chunkBytesOverflow => "chunk byte size overflows"
  | .dimensionWidth width => s!"dimension width {width}"
  | .fewDimensions count => s!"chunked layout with {count} dimensions"
  | .chunkDimensionRange => "zero or oversized chunk dimension"
  | .shapesDisagree layoutDims layoutSize dims size =>
    s!"chunk shape {Text.numbers layoutDims} x {layoutSize} disagrees with " ++
      s!"dataset {Text.numbers dims} x {size}"
  | .extentBeyondMaximum dimension extent maximum =>
    s!"dimension {dimension}: extent {extent} exceeds maximum {maximum}"
  | .fillLength length elementSize => s!"{length} bytes for a {elementSize}-byte element"
  | .decodedLength coordinate length expected =>
    s!"chunk {Text.numbers coordinate} decoded to {length} bytes, expected {expected}"
  | .filteredElement length => s!"{length}-byte filtered element"
  | .elementWidth width offsetSize =>
    s!"element size {width} with {offsetSize}-byte addresses"
  | .entrySpan count width => s!"{count} entries of {width} bytes"
  | .clientId id filtered =>
    s!"client id {id} for a " ++ (if filtered then "filtered" else "unfiltered") ++ " dataset"
  | .owner found expected =>
    s!"owned by header {Text.hex found}, expected {Text.hex expected}"
  | .indexBits bits minElements => s!"{bits} index bits with {minElements}-entry data blocks"
  | .blockSizeNotPowerOfTwo size => s!"minimum data block size {size} is not a power of two"
  | .pointerCountNotPowerOfTwo count =>
    s!"minimum secondary block size {count} is not a power of two"
  | .nodeType type => s!"node type {type} in a chunk index"
  | .nodeLevel level parentLevel => s!"level {level} below a level Some({parentLevel}) node"
  | .recordType type expected => s!"record type {type}, expected {expected}"
  | .recordTypeInTree type treeType => s!"record type {type} in a type {treeType} tree"
  | .recordSize size type rank => s!"{size}-byte type {type} records for rank {rank}"
  | .nodeTooSmall nodeBytes recordBytes =>
    s!"{nodeBytes}-byte nodes cannot hold {recordBytes}-byte records"
  | .recordCount count maximum => s!"{count} records, at most {maximum} fit"
  | .nodeDepth depth => s!"depth {depth} beyond the tree"
  | .clientDataCount count => s!"{count} client data values, need 8"
  | .elementClass code => s!"element class {code}"
  | .classSize size numberClass => s!"{size}-byte {numberClass.name} elements"
  | .decodedElements count size chunkBytes =>
    s!"{count} elements of {size} bytes exceed a {chunkBytes}-byte chunk"
  | .packedWidth minbits bits => s!"minbits {minbits} exceeds {bits}-bit elements"
  | .inputLength length count size => s!"{length} bytes for {count} elements of {size} bytes"
  | .noChecksum length => s!"{length} bytes cannot hold a checksum"
  | .entryCountOverflow => "entry count overflows"
  | .entrySize size => s!"entry size {size}"
  | .storedSizeWidth size width => s!"stored size {size} does not fit in {width} bytes"

/-- Layout classes that keep no chunks. -/
inductive OtherLayout where
  | compact
  | contiguous
  | virtual
  deriving DecidableEq, Repr

/-- The class in messages. -/
def OtherLayout.name : OtherLayout → String
  | .compact => "compact"
  | .contiguous => "contiguous"
  | .virtual => "virtual"

/-- Combinations that are understood and not served. -/
inductive Feature where
  | implicitFiltered
  | implicitUnlimited
  | fixedArrayUnlimited
  | exponentScale
  deriving DecidableEq, Repr

/-- The combination in words. -/
def Feature.name : Feature → String
  | .implicitFiltered => "implicit chunk index with a filter pipeline"
  | .implicitUnlimited => "implicit chunk index with unlimited dimensions"
  | .fixedArrayUnlimited => "fixed array index over an unlimited dimension"
  | .exponentScale => "scale-offset floating-point E-scale mode"

/-- Why a selection does not fit its dataset. -/
inductive SelectionError where
  | beyondExtent (dimension start count extent : Nat)
  | tooLarge
  deriving DecidableEq, Repr

/-- The misfit in words. -/
def SelectionError.message : SelectionError → String
  | .beyondExtent dimension start count extent =>
    s!"dimension {dimension}: start {start} + count {count} exceeds extent {extent}"
  | .tooLarge => "selection does not fit in memory"

/-- Why locating, reading, decoding or writing a chunk fails. -/
inductive Error where
  /-- The data ends before `expected` bytes. -/
  | unexpectedEnd (expected available : Nat)
  /-- A structure starts with other bytes than its signature. -/
  | badSignature (part : Part) (found : Bytes)
  /-- A structure has a version that is not known. -/
  | unsupportedVersion (part : Part) (version : Nat)
  /-- Addresses of a width other than 2, 4 or 8 bytes. -/
  | invalidOffsetSize (size : Nat)
  /-- Lengths of a width other than 2, 4 or 8 bytes. -/
  | invalidLengthSize (size : Nat)
  /-- A layout message has a version that is not known. -/
  | invalidLayoutVersion (version : Nat)
  /-- A layout message has a class that its version lacks. -/
  | invalidLayoutClass (code : Nat)
  /-- A pipeline message has a version that is not known. -/
  | invalidPipelineVersion (version : Nat)
  /-- The fields of a structure contradict each other. -/
  | corrupt (part : Part) (defect : Defect)
  /-- A structure's own checksum is not that of its bytes. -/
  | checksumMismatch (part : Part) (address : Nat) (stored computed : UInt32)
  /-- A coordinate with another number of dimensions. -/
  | rankMismatch (expected actual : Nat)
  /-- A coordinate that no chunk of the index has. -/
  | invalidCoordinate (coordinate : List Nat)
  /-- A selection that does not fit the dataset. -/
  | invalidSelection (cause : SelectionError)
  /-- A filter for which no codec is registered. -/
  | unsupportedFilter (id : UInt16) (name : Option String)
  /-- A combination that is understood and not served. -/
  | unsupportedFeature (feature : Feature)
  /-- A layout class that keeps no chunks. -/
  | unsupportedLayout (layout : OtherLayout)
  /-- A chunk index type that is not known. -/
  | unsupportedIndex (type : Nat)
  /-- A chunk's checksum is not that of its bytes. -/
  | fletcherMismatch (stored computed : UInt32)
  /-- A codec refuses its input. -/
  | codec (filter message : String)
  /-- An element transform refuses its buffers. -/
  | element (cause : Element.ElementError)
  /-- The sink takes no more bytes. -/
  | sinkFull
  /-- The reader has fewer bytes left than a buffer takes. -/
  | readerEnded
  /-- The reader has been asked to stop. -/
  | cancelled
  /-- A 64-bit sum or product, or the bound of a slice, leaves its range. -/
  | outOfRange
  deriving DecidableEq, Repr

/-- Broad category of an `Error`. -/
inductive ErrorKind where
  /-- Malformed metadata or a request of the wrong shape. -/
  | structural
  /-- Valid input that is not served. -/
  | unsupported
  /-- A chunk's checksum does not verify. -/
  | integrity
  /-- A codec reports failure. -/
  | codec
  /-- The sink or the reader fails. -/
  | io
  /-- The caller cancels the read. -/
  | cancelled
  /-- A number leaves its range. -/
  | range
  deriving DecidableEq, Repr

namespace Error

/-- A failed transform of elements; a place outside its buffers is out of range. -/
def ofElement : Element.ElementError → Error
  | .outOfBounds => .outOfRange
  | e => element e

/-- The category of an error. -/
def kind : Error → ErrorKind
  | unsupportedFilter .. | unsupportedFeature _ | unsupportedLayout _ | unsupportedIndex _ =>
    .unsupported
  | fletcherMismatch .. => .integrity
  | codec .. | element _ => .codec
  | sinkFull | readerEnded => .io
  | cancelled => .cancelled
  | outOfRange => .range
  | _ => .structural

/-- The error in words. -/
def message : Error → String
  | unexpectedEnd expected available =>
    s!"unexpected EOF: need {expected} bytes, have {available}"
  | badSignature part found =>
    s!"invalid {part.name} signature {Text.numbers (found.map UInt8.toNat)}"
  | unsupportedVersion part version => s!"unsupported {part.name} version {version}"
  | invalidOffsetSize size => s!"invalid offset size: {size} (must be 2, 4, or 8)"
  | invalidLengthSize size => s!"invalid length size: {size} (must be 2, 4, or 8)"
  | invalidLayoutVersion version => s!"invalid data layout version: {version}"
  | invalidLayoutClass code => s!"invalid data layout class: {code}"
  | invalidPipelineVersion version => s!"invalid filter pipeline version: {version}"
  | corrupt part defect => s!"corrupt {part.name}: {defect.message}"
  | checksumMismatch part address stored computed =>
    s!"{part.name} checksum mismatch at {Text.hex address}: " ++
      s!"stored {Text.hexWord stored}, computed {Text.hexWord computed}"
  | rankMismatch expected actual =>
    s!"rank mismatch: expected {expected} dimensions, got {actual}"
  | invalidCoordinate coordinate =>
    s!"invalid chunk coordinate {Text.numbers coordinate}"
  | invalidSelection cause => s!"invalid selection: {cause.message}"
  | unsupportedFilter id none => s!"unsupported filter {id.toNat}"
  | unsupportedFilter id (some name) => s!"unsupported filter {id.toNat} ({name})"
  | unsupportedFeature feature => s!"unsupported feature: {feature.name}"
  | unsupportedLayout layout => s!"unsupported layout: {layout.name}"
  | unsupportedIndex type => s!"unsupported chunk index type {type}"
  | fletcherMismatch stored computed =>
    s!"fletcher32 mismatch: stored {Text.hexWord stored}, computed {Text.hexWord computed}"
  | codec filter message => s!"{filter} codec error: {message}"
  | element cause => cause.message
  | sinkFull => "I/O error: failed to write whole buffer"
  | readerEnded => "I/O error: failed to fill whole buffer"
  | cancelled => "read cancelled"
  | outOfRange => "a size leaves the 64-bit range"

end Error

end ChunkStore
