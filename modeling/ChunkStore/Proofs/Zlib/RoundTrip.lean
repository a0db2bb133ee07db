import ChunkStore.Bytes.Lemmas
import ChunkStore.Proofs.Zlib.Pieces

/-!
# Stored blocks, inflated again

`Inflate.Gives` says what one step of decoding takes off the bits and puts out. A stored block
gives its data (`gives_block`), several of them give theirs one after another (`gives_blocks`), and
a stream of them delivers what `deflate` was given (`inflate_deflate`). So the library of them loses
nothing (`lossless_storing`).
-/

namespace ChunkStore.Zlib

/-! ## Bits and numbers -/

theorem numberOfBits_append (low high : List Bool) :
    numberOfBits (low ++ high) = numberOfBits low + 2 ^ low.length * numberOfBits high := by
  induction low with
  | nil => simp [numberOfBits]
  | cons bit low ih =>
    have unfolded : ∀ (b : Bool) bits, numberOfBits (b :: bits) = b.toNat + 2 * numberOfBits bits :=
      fun _ _ => rfl
    rw [List.cons_append, unfolded, unfolded, ih, List.length_cons, Nat.pow_succ]
    ring

@[simp] theorem length_bitsOfByte (b : UInt8) : (bitsOfByte b).length = 8 := by simp [bitsOfByte]

theorem numberOfBits_bitsOfByte (b : UInt8) : numberOfBits (bitsOfByte b) = b.toNat := by
  have all : ∀ n : Fin 256, numberOfBits ((List.range 8).map n.val.testBit) = n.val := by
    decide +kernel
  exact all ⟨b.toNat, b.toNat_lt⟩

@[simp] theorem bitsOf_nil : bitsOf [] = [] := rfl

@[simp] theorem bitsOf_cons (b : UInt8) (bs : Bytes) :
    bitsOf (b :: bs) = bitsOfByte b ++ bitsOf bs :=
  rfl

@[simp] theorem bitsOf_append (xs ys : Bytes) : bitsOf (xs ++ ys) = bitsOf xs ++ bitsOf ys := by
  simp [bitsOf]

@[simp] theorem length_bitsOf (bytes : Bytes) : (bitsOf bytes).length = 8 * bytes.length := by
  induction bytes with
  | nil => rfl
  | cons b bytes ih =>
    simp [ih]
    omega

/-- Bits of whole bytes, the lowest first, are the number with these bytes, the lowest first. -/
theorem numberOfBits_bitsOf (bytes : Bytes) :
    numberOfBits (bitsOf bytes) = LittleEndian.decode bytes := by
  induction bytes with
  | nil => rfl
  | cons b bytes ih =>
    simp [numberOfBits_append, numberOfBits_bitsOfByte, ih, LittleEndian.decode]

namespace Inflate

/-! ## Steps -/

variable {α β : Type}

/-- From state `s` the step succeeds with `a` and leaves state `s'`. -/
def Gives (x : Inflate α) (s : Inflater) (a : α) (s' : Inflater) : Prop :=
  x.run.run s = (.ok a, s')

theorem Gives.pure (a : α) (s : Inflater) : Gives (pure a) s a s := rfl

theorem Gives.bind {x : Inflate α} {f : α → Inflate β} {s s' s'' : Inflater} {a : α} {b : β}
    (first : Gives x s a s') (next : Gives (f a) s' b s'') : Gives (x >>= f) s b s'' := by
  unfold Gives at *
  simp only [ExceptT.run_bind, StateT.run_bind, first]
  exact next

theorem Gives.get (s : Inflater) : Gives get s s s := rfl

theorem Gives.set (s s' : Inflater) : Gives (set s') s ⟨⟩ s' := rfl

theorem Gives.modify (f : Inflater → Inflater) (s : Inflater) : Gives (modify f) s ⟨⟩ (f s) := rfl

theorem gives_number {bits rest : List Bool} {out : Array UInt8} {count : Nat}
    (length : bits.length = count) :
    Gives (number count) ⟨bits ++ rest, out⟩ (numberOfBits bits) ⟨rest, out⟩ := by
  have front : (bits ++ rest).take count = bits := List.take_left' length
  have back : (bits ++ rest).drop count = rest := List.drop_left' length
  apply Gives.bind (.get _)
  dsimp only
  rw [front, back, if_neg (by omega)]
  exact .bind (.set _ _) (.pure _ _)

/-- A number of whole bytes. -/
theorem gives_number_bytes {bytes more : Bytes} {out : Array UInt8} {count : Nat}
    (length : 8 * bytes.length = count) :
    Gives (number count) ⟨bitsOf (bytes ++ more), out⟩ (LittleEndian.decode bytes)
      ⟨bitsOf more, out⟩ := by
  rw [bitsOf_append, ← numberOfBits_bitsOf]
  apply gives_number
  rw [length_bitsOf, length]

theorem gives_number_byte (b : UInt8) (more : Bytes) (out : Array UInt8) :
    Gives (number 8) ⟨bitsOf (b :: more), out⟩ b.toNat ⟨bitsOf more, out⟩ := by
  have byte := @gives_number_bytes [b] more out 8 rfl
  simpa [LittleEndian.decode] using byte

/-- Nothing is passed over before a whole number of bytes. -/
theorem gives_alignToByte {bits : List Bool} {more : Bytes} {out : Array UInt8}
    (inside : bits.length < 8) :
    Gives alignToByte ⟨bits ++ bitsOf more, out⟩ ⟨⟩ ⟨bitsOf more, out⟩ := by
  have length : (bits ++ bitsOf more).length % 8 = bits.length := by
    simp
    omega
  have aligned : (bits ++ bitsOf more).drop ((bits ++ bitsOf more).length % 8) = bitsOf more := by
    rw [length, List.drop_left]
  have step := Gives.modify (fun s => { s with bits := s.bits.drop (s.bits.length % 8) })
    ⟨bits ++ bitsOf more, out⟩
  dsimp only at step
  rwa [aligned] at step

theorem gives_stored (data more out : Bytes) :
    Gives (stored data.length) ⟨bitsOf (data ++ more), out.toArray⟩ ⟨⟩
      ⟨bitsOf more, (out ++ data).toArray⟩ := by
  induction data generalizing out with
  | nil =>
    rw [List.append_nil]
    exact .pure _ _
  | cons b data ih =>
    apply Gives.bind (gives_number_byte b (data ++ more) _)
    have emitted : Gives (emit (UInt8.ofNat b.toNat)) ⟨bitsOf (data ++ more), out.toArray⟩ ⟨⟩
        ⟨bitsOf (data ++ more), (out ++ [b]).toArray⟩ := by
      rw [UInt8.ofNat_toNat, ← List.push_toArray]
      exact .modify _ _
    apply Gives.bind emitted
    have rest := ih (out ++ [b])
    rwa [List.append_assoc, List.singleton_append] at rest

/-! ## Blocks -/

theorem gives_block (rules : Rules) (last : Bool) {data : Bytes} (more out : Bytes)
    (fits : data.length ≤ storedLimit) :
    Gives (block rules) ⟨bitsOf (storedBlock last data ++ more), out.toArray⟩ last
      ⟨bitsOf more, (out ++ data).toArray⟩ := by
  have limit : storedLimit = 65535 := rfl
  have head : bitsOf (storedBlock last data ++ more) =
      [last] ++ ([false, false] ++ (List.replicate 5 false ++
        bitsOf (LittleEndian.encode 2 data.length ++
          (LittleEndian.encode 2 (storedLimit - data.length) ++ (data ++ more))))) := by
    simp only [storedBlock, List.cons_append, List.append_assoc, bitsOf_cons]
    cases last
    · rfl
    · rfl
  have length := LittleEndian.decode_encode_of_lt
    (show data.length < 256 ^ 2 by omega)
  have complement := LittleEndian.decode_encode_of_lt
    (show storedLimit - data.length < 256 ^ 2 by omega)
  have lastBit : numberOfBits [last] = last.toNat := by simp [numberOfBits]
  rw [head, block]
  apply Gives.bind (gives_number rfl)
  apply Gives.bind (gives_number rfl)
  rw [show numberOfBits [false, false] = 0 from rfl]
  dsimp only
  apply Gives.bind (gives_alignToByte (by simp))
  apply Gives.bind (gives_number_bytes (by simp))
  apply Gives.bind (gives_number_bytes (by simp))
  rw [length, complement]
  rw [if_neg (by omega)]
  apply Gives.bind (gives_stored data more out)
  have flag : decide (numberOfBits [last] = 1) = last := by
    cases last
    · rfl
    · rfl
  rw [flag]
  exact .pure _ _

theorem gives_blocks (rules : Rules) {full fuel : Nat} {data : Bytes} (more out : Bytes)
    (fits : data.length ≤ (full + 1) * storedLimit) (enough : full < fuel) :
    Gives (blocks rules fuel) ⟨bitsOf (storedBlocks full data ++ more), out.toArray⟩ ⟨⟩
      ⟨bitsOf more, (out ++ data).toArray⟩ := by
  induction full generalizing fuel data out with
  | zero =>
    obtain ⟨fuel, rfl⟩ : ∃ n, fuel = n + 1 := ⟨fuel - 1, by omega⟩
    apply Gives.bind (gives_block rules true more out (by omega))
    exact .pure _ _
  | succ full ih =>
    obtain ⟨fuel, rfl⟩ : ∃ n, fuel = n + 1 := ⟨fuel - 1, by omega⟩
    have front : (data.take storedLimit).length ≤ storedLimit := by
      rw [List.length_take]
      omega
    have back : (data.drop storedLimit).length ≤ (full + 1) * storedLimit := by
      rw [List.length_drop]
      rw [Nat.succ_mul] at fits
      omega
    rw [storedBlocks, List.append_assoc]
    apply Gives.bind (gives_block rules false _ out front)
    have rest := ih (out ++ data.take storedLimit) back (Nat.lt_of_succ_lt_succ enough)
    rwa [List.append_assoc, List.take_append_drop] at rest

end Inflate

/-! ## Streams -/

theorem adler32_lt (data : Bytes) : Checksum.adler32 data < 256 ^ 4 := by
  unfold Checksum.adler32
  split
  next low high run =>
    have sums : (low, high).1 < 65521 ∧ (low, high).2 < 65521 := by
      rw [← run]
      apply List.foldlRecOn (motive := fun sums : Nat × Nat => sums.1 < 65521 ∧ sums.2 < 65521)
      · constructor <;> decide
      · intro sums _ b _
        exact ⟨Nat.mod_lt _ (by decide), Nat.mod_lt _ (by decide)⟩
    have half : UInt16.size = 65536 := rfl
    rw [half]
    omega

open Inflate in
/-- A stream of stored blocks is decoded to its data. -/
theorem gives_streamSteps (rules : Rules) {fuel : Nat} (data : Bytes)
    (enough : data.length < fuel) :
    Gives (streamSteps rules fuel) ⟨bitsOf (deflate data), #[]⟩ ⟨⟩ ⟨[], data.toArray⟩ := by
  have limit : storedLimit = 65535 := rfl
  have fits : data.length ≤ ((data.length - 1) / storedLimit + 1) * storedLimit := by
    rw [limit]
    omega
  obtain ⟨b0, b1, b2, b3, bytes⟩ : ∃ b0 b1 b2 b3,
      LittleEndian.encode 4 (Checksum.adler32 data) = [b0, b1, b2, b3] := ⟨_, _, _, _, rfl⟩
  have value := LittleEndian.decode_encode_of_lt (adler32_lt data)
  rw [bytes] at value
  rw [deflate, bytes, streamSteps]
  apply Gives.bind (gives_number_byte 0x78 _ _)
  apply Gives.bind (gives_number_byte 0x01 _ _)
  have header : ¬ (((0x78 : UInt8).toNat * 256 + (0x01 : UInt8).toNat) % 31 ≠ 0 ∨
      (0x78 : UInt8).toNat % 16 ≠ 8 ∨ 7 < (0x78 : UInt8).toNat / 16 ∨
        (0x01 : UInt8).toNat.testBit 5 = true) := by decide
  rw [if_neg header]
  have bodies : Gives (blocks rules fuel)
      ⟨bitsOf (storedBlocks ((data.length - 1) / storedLimit) data ++ [b3, b2, b1, b0]), #[]⟩ ⟨⟩
      ⟨bitsOf [b3, b2, b1, b0], data.toArray⟩ :=
    gives_blocks rules [b3, b2, b1, b0] [] fits (by rw [limit]; omega)
  have aligned : Gives alignToByte ⟨bitsOf [b3, b2, b1, b0], data.toArray⟩ ⟨⟩
      ⟨bitsOf [b3, b2, b1, b0], data.toArray⟩ :=
    @gives_alignToByte [] [b3, b2, b1, b0] _ (by decide)
  apply Gives.bind bodies
  apply Gives.bind aligned
  simp only [List.forIn_cons, List.forIn_nil, bind_assoc, pure_bind]
  apply Gives.bind (gives_number_byte b3 _ _)
  apply Gives.bind (gives_number_byte b2 _ _)
  apply Gives.bind (gives_number_byte b1 _ _)
  apply Gives.bind (gives_number_byte b0 _ _)
  apply Gives.bind (.get _)
  rw [if_neg ?_]
  · exact .pure _ _
  · simp only [Classical.not_not]
    rw [← value]
    simp only [LittleEndian.decode]
    omega

theorem length_storedBlocks (full : Nat) (data : Bytes) :
    (storedBlocks full data).length = data.length + 5 * (full + 1) := by
  induction full generalizing data with
  | zero => simp [storedBlocks, storedBlock]; omega
  | succ full ih =>
    simp [storedBlocks, storedBlock, ih]
    omega

/-- What `deflate` writes is delivered again, and the stream ends without a fault. -/
theorem inflate_deflate (data : Bytes) : inflate (deflate data) = ⟨data, none⟩ := by
  have enough : data.length < (bitsOf (deflate data)).length := by
    simp [deflate, length_storedBlocks]
    omega
  have run : runStream .windowed (deflate data) = (.ok (), ⟨[], data.toArray⟩) :=
    gives_streamSteps .windowed data enough
  rw [inflate, run]

/-- The library of stored blocks loses nothing. -/
theorem lossless_storing : storing.Lossless := by
  intro level data stream compressed
  have stored : storing.compress level data = .ok (deflate data) := rfl
  rw [stored, Except.ok.injEq] at compressed
  show (inflate stream).data = data ∧ (inflate stream).fault = none
  rw [← compressed, inflate_deflate]
  exact ⟨rfl, rfl⟩

end ChunkStore.Zlib
