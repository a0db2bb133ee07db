import ChunkStore.Bytes
import Mathlib.Tactic.Ring

/-!
# Numbers written and read back

`LittleEndian.decode_encode`: what is written into `width` bytes reads back, up to the bits that
the width drops; `decode_encode_of_lt`: nothing is dropped of a number below `256 ^ width`, and by
`decode_lt` no other number is read from so many bytes. Bytes that are read as a number are written
again by it (`encode_decode`), and so the dropped bits make no difference (`encode_mod`).
-/

namespace ChunkStore.LittleEndian

theorem decode_lt (bs : Bytes) : decode bs < 256 ^ bs.length := by
  induction bs with
  | nil => simp [decode]
  | cons b bs ih =>
    have hb : b.toNat < 256 := b.toNat_lt
    rw [decode, List.length_cons, Nat.pow_succ]
    omega

theorem decode_encode (width n : Nat) : decode (encode width n) = n % 256 ^ width := by
  induction width generalizing n with
  | zero => simp [decode, encode, Nat.mod_one]
  | succ width ih =>
    rw [encode, decode, ih, Nat.pow_succ', Nat.mod_mul]
    simp

theorem decode_encode_of_lt {width n : Nat} (h : n < 256 ^ width) :
    decode (encode width n) = n := by
  rw [decode_encode, Nat.mod_eq_of_lt h]

theorem decode_cons_mod (b : UInt8) (bs : Bytes) : decode (b :: bs) % 256 = b.toNat := by
  rw [decode, Nat.add_mul_mod_self_left, Nat.mod_eq_of_lt b.toNat_lt]

theorem decode_cons_div (b : UInt8) (bs : Bytes) : decode (b :: bs) / 256 = decode bs := by
  have byte : b.toNat < 256 := b.toNat_lt
  rw [decode]
  omega

theorem encode_decode (bs : Bytes) : encode bs.length (decode bs) = bs := by
  induction bs with
  | nil => rfl
  | cons b bs ih =>
    rw [List.length_cons, encode, decode_cons_mod, decode_cons_div, ih, UInt8.ofNat_toNat]

/-- The first bytes of a number are its lowest digits. -/
theorem decode_take (n : Nat) (bs : Bytes) : decode (bs.take n) = decode bs % 256 ^ n := by
  induction n generalizing bs with
  | zero => rw [List.take_zero, Nat.pow_zero, Nat.mod_one, decode]
  | succ n ih =>
    cases bs with
    | nil => rw [List.take_nil, decode, Nat.zero_mod]
    | cons b bs =>
      rw [Nat.pow_succ', Nat.mod_mul, decode_cons_mod, decode_cons_div, ← ih, List.take_succ_cons,
        decode]

/-- The bits that the width drops are not written. -/
theorem encode_mod (width n : Nat) : encode width (n % 256 ^ width) = encode width n := by
  have written := encode_decode (encode width n)
  rwa [length_encode, decode_encode] at written

end ChunkStore.LittleEndian
