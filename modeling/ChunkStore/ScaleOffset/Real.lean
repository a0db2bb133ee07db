/-!
# Floating-point numbers as bit patterns

Elements of a dataset are bit patterns, and what is not a number carries bits of its own through
arithmetic. `Real` is the pattern of a 64-bit number. An operation on numbers rounds to nearest;
with an operand that is not a number the result is that operand, the first one if both are, with
its quiet bit set; an operation without a result gives `Real.invalid`. `powerOfTen` multiplies by
repeated squaring.
-/

namespace ChunkStore

/-- The bits of a 64-bit floating-point number. -/
abbrev Real := UInt64

namespace Real

/-- Whether the bits are not a number. -/
def isNaN (x : Real) : Bool := (0x7ff0000000000000 : UInt64) < x &&& 0x7fffffffffffffff

/-- The bits with the quiet bit set. -/
def quiet (x : Real) : Real := x ||| 0x0008000000000000

/-- The result of an operation that has none. -/
def invalid : Real := 0xfff8000000000000

/-- An operation on bit patterns. -/
def binary (op : Float → Float → Float) (x y : Real) : Real :=
  if isNaN x then quiet x
  else if isNaN y then quiet y
  else
    let result := op (Float.ofBits x) (Float.ofBits y)
    if result.isNaN then invalid else result.toBits

/-- The sum. -/
def add : Real → Real → Real := binary (· + ·)

/-- The difference. -/
def sub : Real → Real → Real := binary (· - ·)

/-- The product. -/
def mul : Real → Real → Real := binary (· * ·)

/-- The quotient. -/
def div : Real → Real → Real := binary (· / ·)

/-- The smaller number, of two equal ones the second; what is not a number gives way to the other,
the second to the first if neither is one. -/
def min (x y : Real) : Real :=
  if isNaN y then x
  else if isNaN x then y
  else if Float.ofBits x < Float.ofBits y then x else y

/-- The number one. -/
def one : Real := 0x3ff0000000000000

/-- The number ten. -/
def ten : Real := 0x4024000000000000

/-- The number nearest to an integer. -/
def ofInt64 (n : Int64) : Real := n.toFloat.toBits

/-- The nearest integer, a half going away from zero; the nearest there is beyond 64 bits, and 0
for what is not a number. -/
def round (x : Real) : Int64 := if isNaN x then 0 else (Float.ofBits x).round.toInt64

/-- Whether 32 bits are not a number. -/
def isNaN32 (w : UInt32) : Bool := (0x7f800000 : UInt32) < w &&& 0x7fffffff

/-- The number with the given 32-bit pattern. -/
def ofSingle (w : UInt32) : Real :=
  if isNaN32 w then
    let sign := (w &&& 0x80000000).toUInt64 <<< (32 : UInt64)
    let payload := (w &&& 0x7fffff).toUInt64 <<< (29 : UInt64)
    sign ||| 0x7ff8000000000000 ||| payload
  else (Float32.ofBits w).toFloat.toBits

/-- The nearest 32-bit pattern. -/
def toSingle (x : Real) : UInt32 :=
  if isNaN x then
    let sign := (x >>> (32 : UInt64)).toUInt32 &&& 0x80000000
    let payload := (x >>> (29 : UInt64)).toUInt32 &&& 0x7fffff
    sign ||| 0x7fc00000 ||| payload
  else (Float.ofBits x).toFloat32.toBits

/-- `result * base ^ n`, by squaring. -/
def powerLoop (result base : Real) (n : Nat) : Real :=
  let result := if n % 2 = 1 then mul result base else result
  if n / 2 = 0 then result else powerLoop result (mul base base) (n / 2)
termination_by n
decreasing_by omega

/-- Ten to the power of `n`. -/
def powerOfTen (n : Int) : Real :=
  let power := powerLoop one ten n.natAbs
  if n < 0 then div one power else power

end Real

end ChunkStore
