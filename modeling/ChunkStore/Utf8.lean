import ChunkStore.Bytes

/-!
# Text in UTF-8

`Utf8.encode` writes a text in UTF-8. `Utf8.decodeLossy` reads any bytes as text: each longest run
that starts a character without finishing one, and each byte that starts none, reads as one
replacement character.
-/

namespace ChunkStore.Utf8

/-- The bytes of a text. -/
def encode (text : String) : Bytes := text.toList.flatMap String.utf8EncodeChar

/-- What the first byte of a character asks of the bytes after it. -/
structure Lead where
  /-- The bits that the first byte adds to the character. -/
  bits : Nat
  /-- How many bytes follow. -/
  tail : Nat
  /-- The least second byte. -/
  low : Nat
  /-- The greatest second byte. -/
  high : Nat
  deriving Repr

/-- The demands of a first byte of a character of two to four bytes. -/
def lead? (b : Nat) : Option Lead :=
  if 0xc2 ≤ b ∧ b ≤ 0xdf then some ⟨b - 0xc0, 1, 0x80, 0xbf⟩
  else if b = 0xe0 then some ⟨0, 2, 0xa0, 0xbf⟩
  else if b = 0xed then some ⟨0xd, 2, 0x80, 0x9f⟩
  else if 0xe1 ≤ b ∧ b ≤ 0xef then some ⟨b - 0xe0, 2, 0x80, 0xbf⟩
  else if b = 0xf0 then some ⟨0, 3, 0x90, 0xbf⟩
  else if 0xf1 ≤ b ∧ b ≤ 0xf3 then some ⟨b - 0xf0, 3, 0x80, 0xbf⟩
  else if b = 0xf4 then some ⟨4, 3, 0x80, 0x8f⟩
  else none

/-- The bytes, `n` at most, that may follow: the next in the given range, then any tail bytes. -/
def tailRun : (n low high : Nat) → Bytes → Bytes
  | n + 1, low, high, b :: bs =>
    if low ≤ b.toNat ∧ b.toNat ≤ high then b :: tailRun n 0x80 0xbf bs else []
  | _, _, _, _ => []

/-- The character of a first byte's bits and a full tail. -/
def charOf (bits : Nat) (tail : Bytes) : Char :=
  Char.ofNat (tail.foldl (fun acc b => acc * 64 + (b.toNat - 0x80)) bits)

/-- Stands for bytes that are no character. -/
def replacement : Char := Char.ofNat 0xfffd

/-- The characters of `bytes`, with a replacement character for what is none. -/
def decodeChars : Bytes → List Char
  | [] => []
  | b :: rest =>
    if b.toNat < 0x80 then Char.ofNat b.toNat :: decodeChars rest
    else match lead? b.toNat with
      | none => replacement :: decodeChars rest
      | some lead =>
        let tail := tailRun lead.tail lead.low lead.high rest
        let c := if tail.length = lead.tail then charOf lead.bits tail else replacement
        c :: decodeChars (rest.drop tail.length)
termination_by bytes => bytes.length
decreasing_by all_goals simp; try omega

/-- The text of `bytes`, with a replacement character for what is none. -/
def decodeLossy (bytes : Bytes) : String := String.ofList (decodeChars bytes)

end ChunkStore.Utf8
