/-!
# The text of numbers and lists in messages

Messages write addresses in hexadecimal (`hex`), checksums in eight hexadecimal digits (`hexWord`)
and coordinates between square brackets (`list`).
-/

namespace ChunkStore.Text

/-- A number in hexadecimal, as in `0x1f`. -/
def hex (n : Nat) : String := "0x" ++ String.ofList (Nat.toDigits 16 n)

/-- A 32-bit word in eight hexadecimal digits, as in `0x0000001f`. -/
def hexWord (w : UInt32) : String :=
  let digits := Nat.toDigits 16 w.toNat
  "0x" ++ String.ofList (List.replicate (8 - digits.length) '0' ++ digits)

/-- Items between square brackets, as in `[1, 2]`. -/
def list (items : List String) : String := "[" ++ ", ".intercalate items ++ "]"

/-- A coordinate or an extent, as in `[1, 2]`. -/
def numbers (ns : List Nat) : String := list (ns.map Nat.repr)

end ChunkStore.Text
