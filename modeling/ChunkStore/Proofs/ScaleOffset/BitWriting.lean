import ChunkStore.Proofs.Bitmap
import ChunkStore.ScaleOffset.Packing

/-!
# Codes written into bytes

`BitWriter.write` puts a number into the bytes that it comes to lie in. Behind a front that is left
alone the bytes always have the bits that were written, the last byte filled up with zeros
(`BitWriter.Wrote`); one step keeps that (`BitWriter.Wrote.step`), so a number does, and one number
after another (`BitWriter.Wrote.write`, `BitWriter.Wrote.foldl_write`).
-/

namespace ChunkStore

namespace Bits

variable {bits : List Bool}

/-- Whole bytes are packed apart from the bits behind them. -/
theorem pack_append {front : List Bool} (whole : 8 ∣ front.length) (back : List Bool) :
    pack (front ++ back) = pack front ++ pack back := by
  obtain ⟨count, length⟩ := whole
  have cut : ∀ more, takeChunks 8 (count + more) (front ++ back) =
      takeChunks 8 count front ++ takeChunks 8 more back := by
    intro more
    induction count generalizing front with
    | zero =>
      rw [List.length_eq_zero_iff.1 length, Nat.zero_add]
      rfl
    | succ count ih =>
      have full : 8 ≤ front.length := by omega
      have rest : (front.drop 8).length = 8 * count := by
        rw [List.length_drop]
        omega
      rw [Nat.add_right_comm, takeChunks, takeChunks, List.take_append_of_le_length full,
        List.drop_append_of_le_length full, ih rest, List.cons_append]
  have bytes : ((front ++ back).length + 7) / 8 = count + (back.length + 7) / 8 := by
    rw [List.length_append]
    omega
  have first : (front.length + 7) / 8 = count := by omega
  rw [pack, bytes, cut, List.map_append, pack, first, pack]

theorem pack_append_of_short {front : List Bool} (whole : 8 ∣ front.length)
    (some : 0 < bits.length) (short : bits.length ≤ 8) :
    pack (front ++ bits) = pack front ++ [toByte bits] := by
  have one : (bits.length + 7) / 8 = 1 := by omega
  have last : pack bits = [toByte bits] := by
    rw [pack, one, takeChunks, takeChunks, List.take_of_length_le short]
    rfl
  rw [pack_append whole, last]

/-- The bits of whole bytes, and those of a byte that is not full. -/
theorem exists_whole_bytes (bits : List Bool) :
    ∃ full rest, bits = full ++ rest ∧ 8 ∣ full.length ∧ rest.length = bits.length % 8 := by
  refine ⟨_, _, (List.take_append_drop (bits.length / 8 * 8) bits).symm, ?_, ?_⟩
  · exact ⟨bits.length / 8, by rw [List.length_take]; omega⟩
  · rw [List.length_drop]
    omega

/-- Bits are set behind those that a byte has. -/
theorem toByte_append_ofNumber {length value : Nat} (some : 0 < length)
    (short : bits.length + length ≤ 8) :
    toByte (bits ++ ofNumber length value) = toByte bits |||
      UInt8.ofNat (value &&& ScaleOffset.allOnes length) <<<
        UInt8.ofNat (8 - bits.length - length) := by
  refine byte_ext fun i lt => ?_
  have whole : (bits ++ ofNumber length value).length ≤ 8 := by
    rwa [List.length_append, length_ofNumber]
  have small : value &&& ScaleOffset.allOnes length < 2 ^ 8 := by
    rw [ScaleOffset.allOnes, Nat.one_shiftLeft, Nat.and_two_pow_sub_one_eq_mod]
    exact (Nat.mod_lt _ (Nat.two_pow_pos _)).trans_le (Nat.pow_le_pow_right (by decide) (by omega))
  have shift : (UInt8.ofNat (8 - bits.length - length)).toNat % 8 = 8 - bits.length - length := by
    rw [UInt8.toNat_ofNat_of_lt' (by show _ < 256; omega), Nat.mod_eq_of_lt (by omega)]
  rw [testBit_toByte whole lt, UInt8.toNat_or, Nat.testBit_or, testBit_toByte (by omega) lt,
    UInt8.toNat_shiftLeft, shift, UInt8.toNat_ofNat_of_lt' small, Nat.testBit_mod_two_pow,
    Nat.testBit_shiftLeft, ScaleOffset.allOnes, Nat.one_shiftLeft, Nat.testBit_and,
    Nat.testBit_two_pow_sub_one, List.getD_eq_getElem?_getD, List.getElem?_append,
    List.getD_eq_getElem?_getD]
  split
  next before =>
    have beyond : ¬ 7 - i - (8 - bits.length - length) < length := by omega
    simp [beyond]
  next behind =>
    rw [List.getElem?_eq_none (Nat.le_of_not_lt behind), getElem?_ofNumber]
    split
    next within =>
      have place : 7 - i - (8 - bits.length - length) = length - 1 - (i - bits.length) := by omega
      have reached : 8 - bits.length - length ≤ 7 - i := by omega
      have inside : length - 1 - (i - bits.length) < length := by omega
      rw [place]
      simp [reached, inside, show 7 - i < 8 by omega]
    next beyond =>
      have short : ¬ 8 - bits.length - length ≤ 7 - i := by omega
      simp [short]

end Bits

namespace ScaleOffset.BitWriter

/-- Behind `front` the writer has written `bits`. -/
structure Wrote (front : Bytes) (bits : List Bool) (w : BitWriter) : Prop where
  bytes : w.out.toList = front ++ Bits.pack bits
  count : w.bit = bits.length

variable {front : Bytes} {bits : List Bool} {w : BitWriter} {width value : Nat}

theorem toList_modify_last {out : Array UInt8} {bytes : Bytes} {byte : UInt8} (f : UInt8 → UInt8)
    (last : out.toList = bytes ++ [byte]) :
    (out.modify (out.size - 1) f).toList = bytes ++ [f byte] := by
  have size : out.size - 1 = bytes.length := by
    rw [← Array.length_toList, last, List.length_append, List.length_singleton,
      Nat.add_sub_cancel]
  rw [Array.toList_modify, last, size, List.modify_eq_set_getElem?]
  simp

/-- A byte without bits is begun when the last one is full. -/
theorem Wrote.last {full rest : List Bool} (wrote : Wrote front (full ++ rest) w)
    (whole : 8 ∣ full.length) (short : rest.length < 8) :
    (if w.bit % 8 = 0 then w.out.push 0 else w.out).toList =
      front ++ Bits.pack full ++ [Bits.toByte rest] := by
  have offset : w.bit % 8 = rest.length := by
    rw [wrote.count, List.length_append]
    omega
  rw [offset]
  split
  next none =>
    rw [Array.toList_push, wrote.bytes, List.length_eq_zero_iff.1 none, List.append_nil]
    rfl
  next some =>
    rw [wrote.bytes, Bits.pack_append_of_short whole (Nat.pos_of_ne_zero some) (Nat.le_of_lt short),
      List.append_assoc]

/-- One step. -/
theorem Wrote.step (wrote : Wrote front bits w) {part : Nat} (some : 0 < part)
    (short : w.bit % 8 + part ≤ 8) :
    let out := if w.bit % 8 = 0 then w.out.push 0 else w.out
    Wrote front (bits ++ Bits.ofNumber part value)
      ⟨out.modify (out.size - 1) (· ||| UInt8.ofNat (value &&& allOnes part) <<<
        UInt8.ofNat (8 - w.bit % 8 - part)), w.bit + part⟩ := by
  intro out
  obtain ⟨full, rest, rfl, whole, length⟩ := Bits.exists_whole_bytes bits
  rw [← wrote.count] at length
  have behind : (rest ++ Bits.ofNumber part value).length = w.bit % 8 + part := by
    rw [List.length_append, Bits.length_ofNumber, length]
  constructor
  · rw [toList_modify_last _ (wrote.last whole (by omega)), ← length,
      ← Bits.toByte_append_ofNumber some (by omega), List.append_assoc full,
      Bits.pack_append_of_short whole (by omega) (by omega), List.append_assoc]
  · rw [List.length_append, Bits.length_ofNumber, ← wrote.count]

/-- A number. -/
theorem Wrote.write (wrote : Wrote front bits w) :
    Wrote front (bits ++ Bits.ofNumber width value) (w.write value width) := by
  induction width using Nat.strongRecOn generalizing bits w with
  | ind width ih =>
    rw [BitWriter.write]
    split
    next more =>
      have offset : w.bit % 8 < 8 := Nat.mod_lt _ (by decide)
      dsimp only
      generalize taken : min (8 - w.bit % 8) width = part
      have some : 0 < part := by omega
      have rest : part + (width - part) = width := by omega
      have stepped : Wrote front (bits ++ Bits.ofNumber part (value >>> (width - part))) _ :=
        wrote.step some (by omega)
      have later := ih (width - part) (by omega) stepped
      rwa [List.append_assoc, ← Bits.ofNumber_add, rest] at later
    next none =>
      obtain rfl : width = 0 := by omega
      rwa [Bits.ofNumber, List.range_zero, List.map_nil, List.append_nil]

/-- One number after another. -/
theorem Wrote.foldl_write (wrote : Wrote front bits w) (values : List Nat) :
    Wrote front (bits ++ values.flatMap (Bits.ofNumber width))
      (values.foldl (fun w value => w.write value width) w) := by
  induction values generalizing bits w with
  | nil => rwa [List.flatMap_nil, List.append_nil]
  | cons value values ih =>
    have later : Wrote front (bits ++ Bits.ofNumber width value ++ _) _ := ih wrote.write
    rwa [List.append_assoc, ← List.flatMap_cons] at later

/-- What is written behind a front. -/
theorem toList_foldl_write (front : Bytes) (width : Nat) (values : List Nat) :
    (values.foldl (fun w value => w.write value width)
        (⟨front.toArray, 0⟩ : BitWriter)).out.toList =
      front ++ Bits.pack (values.flatMap (Bits.ofNumber width)) := by
  have start : Wrote front [] ⟨front.toArray, 0⟩ := ⟨by simp [Bits.pack, takeChunks], rfl⟩
  exact (start.foldl_write values).bytes

end ScaleOffset.BitWriter

end ChunkStore
