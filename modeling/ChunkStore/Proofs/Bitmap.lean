import ChunkStore.Bits
import ChunkStore.Index.Basic
import ChunkStore.Proofs.Runs
import Mathlib.Data.List.Induction
import Mathlib.Tactic.Ring

/-!
# Bitmaps

The bits that `Bits.pack` puts into bytes are the ones that `Index.bitIsSet` finds there
(`bitIsSet_pack`), and the ones that `Bits.unpack` takes out again (`unpack_pack`). A number and
its bits make each other (`toNumber_ofNumber`, `ofNumber_toNumber`); the bits are at the places
that `Nat.testBit` counts from the other end (`testBit_toNumber`), in every byte of a byte string
(`getElem?_unpack`).
-/

namespace ChunkStore

namespace Bits

theorem toNumber_snoc (bits : List Bool) (b : Bool) :
    toNumber (bits ++ [b]) = 2 * toNumber bits + b.toNat := by
  simp [toNumber, List.foldl_append]

/-- The front counts as often as the bits behind it say. -/
theorem toNumber_append (front back : List Bool) :
    toNumber (front ++ back) = toNumber front * 2 ^ back.length + toNumber back := by
  induction back using List.reverseRecOn with
  | nil => simp [toNumber]
  | append_singleton back b ih =>
    rw [← List.append_assoc, toNumber_snoc, toNumber_snoc, ih, List.length_append,
      List.length_singleton, Nat.pow_succ]
    ring

theorem toNumber_lt (bits : List Bool) : toNumber bits < 2 ^ bits.length := by
  induction bits using List.reverseRecOn with
  | nil => simp [toNumber]
  | append_singleton bits b ih =>
    rw [toNumber_snoc, List.length_append, List.length_singleton, Nat.pow_succ]
    have bit : b.toNat ≤ 1 := Bool.toNat_le b
    omega

theorem testBit_toNumber (bits : List Bool) (i : Nat) :
    (toNumber bits).testBit i = bits.reverse.getD i false := by
  induction bits using List.reverseRecOn generalizing i with
  | nil => simp [toNumber]
  | append_singleton bits b ih =>
    rw [toNumber_snoc, List.reverse_concat]
    cases i with
    | zero => cases b <;> simp [Nat.testBit_zero, Nat.add_mod]
    | succ i =>
      rw [Nat.testBit_succ, List.getD_cons_succ, ← ih]
      congr 1
      have bit : b.toNat ≤ 1 := Bool.toNat_le b
      omega

theorem length_padded {bits : List Bool} (short : bits.length ≤ 8) :
    (bits ++ List.replicate (8 - bits.length) false).length = 8 := by
  rw [List.length_append, List.length_replicate]
  omega

theorem toNat_toByte {bits : List Bool} (short : bits.length ≤ 8) :
    (toByte bits).toNat = toNumber (bits ++ List.replicate (8 - bits.length) false) := by
  have small := toNumber_lt (bits ++ List.replicate (8 - bits.length) false)
  rw [length_padded short] at small
  rw [toByte, UInt8.toNat_ofNat_of_lt' small]

/-- Bit `i` of a byte is the one at place `7 - i`, counted from the least significant. -/
theorem testBit_toByte {bits : List Bool} {i : Nat} (whole : bits.length ≤ 8) (lt : i < 8) :
    (toByte bits).toNat.testBit (7 - i) = bits.getD i false := by
  have length := length_padded whole
  rw [toNat_toByte whole, testBit_toNumber, List.getD_eq_getElem?_getD,
    List.getElem?_reverse (by omega), length, List.getD_eq_getElem?_getD]
  have place : 8 - 1 - (7 - i) = i := by omega
  rw [place, List.getElem?_append]
  split
  · rfl
  · next beyond =>
      rw [List.getElem?_eq_none (Nat.le_of_not_lt beyond), List.getElem?_replicate]
      split <;> rfl

theorem toNumber_ofNumber (width n : Nat) : toNumber (ofNumber width n) = n % 2 ^ width := by
  apply Nat.eq_of_testBit_eq
  intro i
  rw [testBit_toNumber, Nat.testBit_mod_two_pow, List.getD_eq_getElem?_getD]
  by_cases low : i < width
  · have place : width - 1 - (width - 1 - i) = i := by omega
    rw [List.getElem?_reverse (by simpa using low), length_ofNumber, ofNumber, List.getElem?_map,
      List.getElem?_range (by omega), Option.map_some, place]
    simp [low]
  · rw [List.getElem?_eq_none (by simpa using low)]
    simp [low]

theorem ofNumber_toNumber (bits : List Bool) : ofNumber bits.length (toNumber bits) = bits := by
  apply List.ext_getElem
  · simp
  intro i _ lt
  have place : bits.length - 1 - (bits.length - 1 - i) = i := by omega
  simp only [ofNumber, List.getElem_map, List.getElem_range, testBit_toNumber]
  rw [List.getD_eq_getElem?_getD, List.getElem?_reverse (by omega), place,
    List.getElem?_eq_getElem lt, Option.getD_some]

/-- A byte has the bits that it was made of, and zeros after them. -/
theorem ofNumber_toByte {bits : List Bool} (short : bits.length ≤ 8) :
    ofNumber 8 (toByte bits).toNat = bits ++ List.replicate (8 - bits.length) false := by
  have same := ofNumber_toNumber (bits ++ List.replicate (8 - bits.length) false)
  rw [length_padded short] at same
  rw [toNat_toByte short, same]

/-- Bytes with the same bits are the same. -/
theorem byte_ext {a b : UInt8}
    (same : ∀ i < 8, a.toNat.testBit (7 - i) = b.toNat.testBit (7 - i)) : a = b := by
  refine UInt8.toNat_inj.1 (Nat.eq_of_testBit_eq fun k => ?_)
  by_cases low : k < 8
  · have place : 7 - (7 - k) = k := by omega
    rw [← place]
    exact same (7 - k) (by omega)
  · have beyond (c : UInt8) : c.toNat < 2 ^ k :=
      Nat.lt_of_lt_of_le c.toNat_lt (Nat.pow_le_pow_right (by decide) (Nat.le_of_not_lt low))
    rw [Nat.testBit_lt_two_pow (beyond a), Nat.testBit_lt_two_pow (beyond b)]

/-- The bits of a number are those of its front and those behind it. -/
theorem ofNumber_add (m n value : Nat) :
    ofNumber (m + n) value = ofNumber m (value >>> n) ++ ofNumber n value := by
  rw [ofNumber, List.range_add, List.map_append, List.map_map]
  congr 1
  · refine List.map_congr_left fun i mem => ?_
    have lt := List.mem_range.1 mem
    have place : m + n - 1 - i = n + (m - 1 - i) := by omega
    rw [place, Nat.testBit_shiftRight]
  · refine List.map_congr_left fun i _ => ?_
    have place : m + n - 1 - (m + i) = n - 1 - i := by omega
    rw [Function.comp_apply, place]

theorem unpack_takeChunks {count : Nat} {bits : List Bool} (enough : bits.length ≤ 8 * count) :
    unpack ((takeChunks 8 count bits).map toByte) =
      bits ++ List.replicate (8 * count - bits.length) false := by
  induction count generalizing bits with
  | zero =>
    rw [List.length_eq_zero_iff.1 (Nat.le_zero.1 enough)]
    rfl
  | succ count ih =>
    have first := ofNumber_toByte (List.length_take_le 8 bits)
    have others := @ih (bits.drop 8) (by rw [List.length_drop]; omega)
    rw [unpack] at others ⊢
    rw [takeChunks, List.map_cons, List.flatMap_cons, first, others]
    rcases Nat.lt_or_ge bits.length 8 with short | full
    · have padding : 8 - bits.length + (8 * count - 0) = 8 * (count + 1) - bits.length := by omega
      rw [List.take_of_length_le (by omega), List.drop_of_length_le (by omega), List.nil_append,
        List.append_assoc, List.replicate_append_replicate, List.length_nil, padding]
    · have padding : 8 - (bits.take 8).length = 0 := by
        rw [List.length_take]
        omega
      have rest : 8 * count - (bits.drop 8).length = 8 * (count + 1) - bits.length := by
        rw [List.length_drop]
        omega
      rw [padding, rest, List.replicate_zero, List.append_nil, ← List.append_assoc,
        List.take_append_drop]

/-- Bits are taken out of bytes as they were packed, and zeros after them. -/
theorem unpack_pack (bits : List Bool) :
    ∃ n, unpack (pack bits) = bits ++ List.replicate n false :=
  ⟨_, unpack_takeChunks (by omega)⟩

theorem getElem?_ofNumber (width n i : Nat) :
    (ofNumber width n)[i]? = if i < width then some (n.testBit (width - 1 - i)) else none := by
  rw [ofNumber, List.getElem?_map]
  split
  · next lt => rw [List.getElem?_range lt, Option.map_some]
  · next ge => rw [List.getElem?_eq_none (by simpa using ge), Option.map_none]

theorem length_unpack (bytes : Bytes) : (unpack bytes).length = 8 * bytes.length := by
  have uniform : ∀ b : UInt8, (ofNumber 8 b.toNat).length = 8 := fun b => length_ofNumber 8 _
  rw [unpack, length_flatMap_of_forall uniform, Nat.mul_comm]

/-- Each byte has eight bits, the most significant first. -/
theorem getElem?_unpack (bytes : Bytes) (i : Nat) :
    (unpack bytes)[i]? = bytes[i / 8]?.map fun b => b.toNat.testBit (7 - i % 8) := by
  induction bytes generalizing i with
  | nil => rfl
  | cons b bytes ih =>
    rw [unpack, List.flatMap_cons, List.getElem?_append, length_ofNumber]
    split
    · next first =>
        rw [getElem?_ofNumber, if_pos first, Nat.div_eq_of_lt first, Nat.mod_eq_of_lt first]
        rfl
    · next later =>
        have byte : i / 8 = (i - 8) / 8 + 1 := by omega
        have place : i % 8 = (i - 8) % 8 := by omega
        rw [byte, place, List.getElem?_cons_succ, ← ih (i - 8)]
        rfl

/-- Bits of one byte, and the number whose lowest bits they are. -/
theorem slice_unpack {bytes : Bytes} {byte : UInt8} {bit length : Nat}
    (here : bytes[bit / 8]? = some byte) (within : bit % 8 + length ≤ 8) :
    slice (unpack bytes) bit length =
      ofNumber length (byte.toNat >>> (8 - bit % 8 - length)) := by
  apply List.ext_getElem?
  intro i
  rw [getElem?_slice, getElem?_ofNumber]
  by_cases lt : i < length
  · have sameByte : (bit + i) / 8 = bit / 8 := by omega
    have place : 7 - (bit + i) % 8 = 8 - bit % 8 - length + (length - 1 - i) := by omega
    rw [if_pos lt, if_pos lt, getElem?_unpack, sameByte, here, Option.map_some, place,
      Nat.testBit_shiftRight]
  · rw [if_neg lt, if_neg lt]

end Bits

namespace Index

/-- Bits behind those that were packed are not set. -/
theorem bitIsSet_pack (bits : List Bool) (i : Nat) :
    bitIsSet (Bits.pack bits) i = bits.getD i false := by
  rw [bitIsSet, Bits.pack, List.getElem?_map, getElem?_takeChunks, List.getD_eq_getElem?_getD]
  split_ifs with there
  · have short : (slice bits (i / 8 * 8) 8).length ≤ 8 := List.length_take_le ..
    show (Bits.toByte _).toNat.testBit _ = _
    rw [Bits.testBit_toByte short (Nat.mod_lt i (by decide)), List.getD_eq_getElem?_getD,
      getElem?_slice, if_pos (Nat.mod_lt i (by decide)), Nat.div_add_mod']
  · rw [List.getElem?_eq_none (by omega)]
    rfl

/-- Bitmaps of one length with the same bits are the same. -/
theorem ext_bitIsSet {first second : Bytes} (length : first.length = second.length)
    (same : ∀ i, bitIsSet first i = bitIsSet second i) : first = second := by
  refine List.ext_getElem length fun k lt lt' => Bits.byte_ext fun i below => ?_
  have byte : (8 * k + i) / 8 = k := by omega
  have place : (8 * k + i) % 8 = i := by omega
  have bit := same (8 * k + i)
  rwa [bitIsSet, bitIsSet, byte, place, List.getElem?_eq_getElem lt,
    List.getElem?_eq_getElem lt'] at bit

end Index

end ChunkStore
