import ChunkStore.Error

/-!
# Parameters of scale-offset packing

The client data of the scale-offset filter holds eight words and then the bytes of the fill value,
four to a word. `Parameters.ofClientData` reads them and `Parameters.toClientData` writes them.
`Parameters.validate` refuses the scale mode that is not served and element sizes that a class
does not have.
-/

namespace ChunkStore.ScaleOffset

/-- How the elements of a chunk are packed. -/
structure Parameters where
  /-- 0 for floats by decimal digits, 1 for floats by exponent, 2 for integers. -/
  scaleType : UInt32
  /-- Decimal digits that floats keep. -/
  scaleFactor : Int32
  /-- Elements of a chunk. -/
  elementCount : UInt32
  numberClass : NumberClass
  /-- Bytes of an element. -/
  size : UInt32
  signed : Bool
  /-- Whether the dataset's most significant byte comes first. -/
  bigEndian : Bool
  /-- The bytes of the fill value, least significant first. -/
  fill : Option Bytes
  deriving DecidableEq, Repr

namespace Parameters

/-- Words before the fill value. -/
def headWords : Nat := 8

/-- Words that the fill value takes when written. -/
def fillWords : Nat := 12

/-- `bytes` cut to `size`, or filled up with zeros. -/
def resize (bytes : Bytes) (size : Nat) : Bytes :=
  let kept := bytes.take size
  kept ++ List.replicate (size - kept.length) 0

/-- The class with a given code. -/
def classOfCode? : UInt32 → Option NumberClass
  | 0 => some .integer
  | 1 => some .float
  | _ => none

/-- The code of a class. -/
def codeOfClass : NumberClass → UInt32
  | .integer => 0
  | .float => 1

/-- The parameters in client data words. -/
def ofClientData (words : List UInt32) : Except Error Parameters :=
  match words with
  | scaleType :: scaleFactor :: elementCount :: code :: size :: signed :: bigEndian ::
      filled :: fill =>
    match classOfCode? code with
    | none => .error (.corrupt .scaleOffsetParameters (.elementClass code.toNat))
    | some numberClass => .ok {
        scaleType
        scaleFactor := scaleFactor.toInt32
        elementCount
        numberClass
        size
        signed := signed == 1
        bigEndian := bigEndian == 1
        fill :=
          if filled = 1 then
            some (resize (fill.flatMap fun w => LittleEndian.encode 4 w.toNat) size.toNat)
          else none }
  | _ => .error (.corrupt .scaleOffsetParameters (.clientDataCount words.length))

/-- The first `fillWords` words of a fill value, filled up with zeros. -/
def wordsOfFill (fill : Option Bytes) : List UInt32 :=
  let bytes := resize (fill.getD []) (4 * fillWords)
  (takeChunks 4 fillWords bytes).map fun chunk => UInt32.ofNat (LittleEndian.decode chunk)

/-- The client data words of the parameters. -/
def toClientData (p : Parameters) : List UInt32 :=
  [p.scaleType, p.scaleFactor.toUInt32, p.elementCount, codeOfClass p.numberClass, p.size,
    p.signed.toUInt32, p.bigEndian.toUInt32, p.fill.isSome.toUInt32] ++ wordsOfFill p.fill

/-- Bits of an element. -/
def bits (p : Parameters) : Nat := p.size.toNat * 8

/-- Insists on a mode that is served and on a size that the class has. -/
def validate (p : Parameters) : Except Error Unit :=
  if p.numberClass = .float ∧ p.scaleType = 1 then .error (.unsupportedFeature .exponentScale)
  else
    let sizes := match p.numberClass with
      | .integer => [1, 2, 4, 8]
      | .float => [4, 8]
    if p.size.toNat ∈ sizes then .ok ()
    else .error (.corrupt .scaleOffsetParameters (.classSize p.size.toNat p.numberClass))

/-- The fill value as a number; more than eight bytes do not count. -/
def fillValue (p : Parameters) : Option Nat := p.fill.map fun f => LittleEndian.decode (f.take 8)

/-- Whether elements change byte order between the dataset and the packed form. -/
def swapsBytes (p : Parameters) : Bool := 1 < p.size && p.bigEndian

end Parameters

end ChunkStore.ScaleOffset
