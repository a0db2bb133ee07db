import ChunkStore.Proofs.ScaleOffset.Elements

/-!
# Codes taken out of bytes

`readBits` puts a code together from the bytes that it lies in, and `unpackCodes` does so for one
code after another. What comes out is the number that the bits of the payload form
(`readBits_eq`, `unpackCodes_eq`), whatever the width and wherever in a byte a code starts, as long
as the payload has that many bits.
-/

namespace ChunkStore.ScaleOffset

variable {payload : Bytes} {width : Nat}

/-- What one step takes from a byte is the number of the bits there. -/
theorem partOfByte_eq {byte : UInt8} {bit length : Nat} (here : payload[bit / 8]? = some byte)
    (within : bit % 8 + length ≤ 8) :
    byte.toNat >>> (8 - bit % 8 - length) &&& allOnes length =
      Bits.toNumber (slice (Bits.unpack payload) bit length) := by
  rw [Bits.slice_unpack here within, Bits.toNumber_ofNumber, allOnes, Nat.one_shiftLeft,
    Nat.and_two_pow_sub_one_eq_mod]

/-- Digits that are put after a code take the room that they have in 64 bits. -/
theorem digits_lt {code bits part : Nat} (room : code < 2 ^ (64 - width)) (small : bits < 2 ^ part)
    (word : width ≤ 64) (some : part ≤ width) :
    code * 2 ^ part + bits < 2 ^ (64 - (width - part)) := by
  have total : 64 - (width - part) = 64 - width + part := by omega
  have next : (code + 1) * 2 ^ part ≤ 2 ^ (64 - width) * 2 ^ part := Nat.mul_le_mul_right _ room
  rw [Nat.succ_mul] at next
  rw [total, Nat.pow_add]
  omega

/-- Bits are put after a code as its last digits, and nothing is lost while 64 bits have room. -/
theorem readBits_eq {bit code : Nat} (enough : bit + width ≤ 8 * payload.length)
    (word : width ≤ 64) (room : code < 2 ^ (64 - width)) :
    readBits payload.toArray width bit code =
      .ok (code * 2 ^ width + Bits.toNumber (slice (Bits.unpack payload) bit width),
        bit + width) := by
  induction width using Nat.strongRecOn generalizing bit code with
  | ind width ih =>
    rw [readBits]
    split
    · next more =>
        have inside : bit / 8 < payload.length := by omega
        have here : payload[bit / 8]? = some payload[bit / 8] := List.getElem?_eq_getElem inside
        have item : payload.toArray[bit / 8]? = some payload[bit / 8] := by
          rw [List.getElem?_toArray, here]
        rw [item]
        dsimp only
        generalize taken : min (8 - bit % 8) width = part
        have within : bit % 8 + part ≤ 8 := by omega
        have rest : part + (width - part) = width := by omega
        -- The bits of the step are fewer than the digits that the shift makes room for.
        have small := Bits.toNumber_lt (slice (Bits.unpack payload) bit part)
        rw [length_slice (by rw [Bits.length_unpack]; omega)] at small
        have digits := digits_lt room small word (by omega)
        have fits : 2 ^ (64 - (width - part)) ≤ UInt64.size :=
          Nat.pow_le_pow_right (by decide) (Nat.sub_le ..)
        have later : (slice (Bits.unpack payload) (bit + part) (width - part)).length =
            width - part := length_slice (by rw [Bits.length_unpack]; omega)
        rw [partOfByte_eq here within, ← Nat.shiftLeft_add_eq_or_of_lt small, Nat.shiftLeft_eq,
          Nat.mod_eq_of_lt (digits.trans_le fits),
          ih (width - part) (by omega) (by omega) (by omega) digits, Nat.add_assoc bit, rest]
        congr 2
        conv_rhs => rw [← rest, ← slice_append_slice, Bits.toNumber_append, later, Nat.pow_add]
        ring
    · next none =>
        have none : width = 0 := by omega
        subst none
        simp [slice, Bits.toNumber]

/-- The codes that are taken out of a payload are those that it has. -/
theorem unpackCodes_eq {count bit : Nat} (enough : bit + count * width ≤ 8 * payload.length)
    (word : width ≤ 64) :
    unpackCodes payload.toArray width count bit =
      .ok ((takeChunks width count ((Bits.unpack payload).drop bit)).map Bits.toNumber) := by
  induction count generalizing bit with
  | zero => rfl
  | succ count ih =>
    rw [Nat.succ_mul] at enough
    have first := @readBits_eq payload width bit 0 (by omega) word (Nat.two_pow_pos _)
    rw [Nat.zero_mul, Nat.zero_add] at first
    rw [unpackCodes, first]
    show (unpackCodes payload.toArray width count (bit + width) >>= fun codes =>
      pure (_ :: codes)) = _
    rw [ih (by omega), takeChunks, List.map_cons, List.drop_drop]
    rfl

end ChunkStore.ScaleOffset
