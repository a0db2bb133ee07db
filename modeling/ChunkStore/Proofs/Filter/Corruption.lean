import ChunkStore.Bytes.Lemmas
import ChunkStore.Filter.Builtin
import ChunkStore.Proofs.Checksum.Changes

/-!
# One byte changed behind the Fletcher-32 filter

The filter reads the checksum at the end of a chunk in either byte order (`checkFletcher_append`).
In the order in which it was written it never fits a chunk with one byte changed. In the other order
it fits exactly when the change is `Mirrored`: then the changed body has the checksum of the body
with its bytes in the opposite order. `decode_fletcher_set` says what becomes of every change of one
byte, in the body or in the checksum.
-/

namespace ChunkStore

open Checksum Checksum.Fletcher

namespace Codec

/-! ## Words and their bytes -/

/-- The word with the given four bytes, least significant first. -/
def ofBytes (bs : Bytes) : UInt32 := UInt32.ofNat (LittleEndian.decode bs)

theorem encode_ofBytes {bs : Bytes} (four : bs.length = 4) :
    LittleEndian.encode 4 (ofBytes bs).toNat = bs := by
  have small := LittleEndian.decode_lt bs
  rw [four] at small
  have read : (ofBytes bs).toNat = LittleEndian.decode bs := UInt32.toNat_ofNat_of_lt' small
  rw [read, ← four, LittleEndian.encode_decode]

theorem ofBytes_eq_iff {bs : Bytes} (four : bs.length = 4) {w : UInt32} :
    ofBytes bs = w ↔ bs = LittleEndian.encode 4 w.toNat := by
  constructor
  · rintro rfl
    exact (encode_ofBytes four).symm
  · rintro rfl
    have small : w.toNat < 256 ^ 4 := w.toNat_lt
    rw [ofBytes, LittleEndian.decode_encode_of_lt small, UInt32.ofNat_toNat]

theorem swapWord_ofBytes {bs : Bytes} (four : bs.length = 4) :
    swapWord (ofBytes bs) = ofBytes bs.reverse := by
  rw [swapWord, encode_ofBytes four]
  rfl

/-- The checksum of `body` as it is written. -/
def trailer (body : Bytes) : Bytes := LittleEndian.encode 4 (fletcher32 body).toNat

theorem length_trailer (body : Bytes) : (trailer body).length = 4 :=
  LittleEndian.length_encode ..

theorem ofBytes_trailer (body : Bytes) : ofBytes (trailer body) = fletcher32 body :=
  (ofBytes_eq_iff (length_trailer body)).2 rfl

theorem trailer_eq_iff {body body' : Bytes} :
    trailer body = trailer body' ↔ fletcher32 body = fletcher32 body' := by
  rw [← ofBytes_trailer body]
  exact (ofBytes_eq_iff (length_trailer body)).symm

theorem reverse_trailer_eq_iff {body body' : Bytes} :
    (trailer body).reverse = trailer body' ↔ swapWord (fletcher32 body) = fletcher32 body' := by
  rw [← ofBytes_trailer body, swapWord_ofBytes (length_trailer body)]
  exact (ofBytes_eq_iff (by rw [List.length_reverse, length_trailer])).symm

/-- The checksum at the end may be in either byte order. -/
theorem checkFletcher_append (body : Bytes) {tail : Bytes} (four : tail.length = 4) :
    checkFletcher (body ++ tail) =
      if tail = trailer body ∨ tail.reverse = trailer body then .ok body
      else .error (.fletcherMismatch (ofBytes tail) (fletcher32 body)) := by
  have long : ¬ (body ++ tail).length < 4 := by
    rw [List.length_append]
    omega
  have front : (body ++ tail).length - 4 = body.length := by
    rw [List.length_append]
    omega
  have turned : tail.reverse.length = 4 := by rwa [List.length_reverse]
  rw [checkFletcher, if_neg long, front, List.take_left, List.drop_left]
  show (if ofBytes tail = _ ∨ swapWord (ofBytes tail) = _ then _ else _) = _
  simp only [swapWord_ofBytes four, ofBytes_eq_iff four, ofBytes_eq_iff turned]
  rfl

/-! ## A checksum in the opposite byte order -/

/-- The two bytes of a half in the opposite order. -/
def turnedHalf (half : Nat) : Nat := 256 * (half % 256) + half / 256

theorem toNat_swapWord {w : UInt32} {high low : Nat} (halves : w.toNat = 65536 * high + low)
    (small : low ≤ 65535) : (swapWord w).toNat = 65536 * turnedHalf low + turnedHalf high := by
  have bound : w.toNat < 4294967296 := w.toNat_lt
  have turned : LittleEndian.decode (LittleEndian.encode 4 w.toNat).reverse =
      65536 * turnedHalf low + turnedHalf high := by
    have byte0 : w.toNat % 256 = low % 256 := by omega
    have byte1 : w.toNat / 256 % 256 = low / 256 := by omega
    have byte2 : w.toNat / 256 / 256 % 256 = high % 256 := by omega
    have byte3 : w.toNat / 256 / 256 / 256 % 256 = high / 256 := by omega
    have read {k : Nat} (lt : k < 256) : (UInt8.ofNat k).toNat = k := UInt8.toNat_ofNat_of_lt' lt
    simp only [LittleEndian.encode, byte0, byte1, byte2, byte3, List.reverse_cons,
      List.reverse_nil, List.nil_append, List.cons_append, LittleEndian.decode]
    rw [read (by omega), read (by omega), read (by omega), read (by omega)]
    unfold turnedHalf
    omega
  have room : 65536 * turnedHalf low + turnedHalf high < 4294967296 := by
    unfold turnedHalf
    omega
  rw [swapWord, turned]
  exact UInt32.toNat_ofNat_of_lt' room

/-- Modulo 65535 a half is turned by a shift of one byte. -/
theorem alike_turnedHalf (half : Nat) : Alike (turnedHalf half) (256 * half) := by
  unfold Alike Nat.ModEq turnedHalf
  omega

theorem turnedHalf_le {half : Nat} (small : half ≤ 65535) : turnedHalf half ≤ 65535 := by
  unfold turnedHalf
  omega

theorem swapWord_fletcher32_eq_iff {bytes bytes' : Bytes} :
    swapWord (fletcher32 bytes) = fletcher32 bytes' ↔
      Alike (256 * (values bytes).sum) (sumOfSums (values bytes')) ∧
      Alike (256 * sumOfSums (values bytes)) (values bytes').sum := by
  have turned (n : Nat) : Alike (turnedHalf (reduce n)) (256 * n) :=
    (alike_turnedHalf _).trans ((alike_reduce n).mul_left 256)
  have like (m n : Nat) : turnedHalf (reduce m) = reduce n ↔ Alike (256 * m) n := by
    rw [eq_reduce_iff (turnedHalf_le (reduce_le m))]
    exact ⟨(turned m).symm.trans, (turned m).trans⟩
  have swapped := toNat_swapWord (toNat_fletcher32 bytes) (reduce_le _)
  rw [← like, ← like, ← UInt32.toNat_inj, swapped, toNat_fletcher32]
  have low := turnedHalf_le (reduce_le (sumOfSums (values bytes)))
  have low' := reduce_le (values bytes').sum
  omega

/-! ## One byte in place of another -/

/-- By how much the word with byte `i` grows when `b` takes the place of that byte. -/
def wordChange (bytes : Bytes) (i : Nat) (b : UInt8) : Int :=
  ((b.toNat : Int) - (bytes.getD i 0).toNat) * if i % 2 = 0 then 256 else 1

/-- The number of words from that with byte `i` on. -/
def wordsFrom (bytes : Bytes) (i : Nat) : Nat := (bytes.length + 1) / 2 - i / 2

/-- With `b` as byte `i`, `bytes` would have their checksum with its four bytes in the opposite
order: how much one word changes goes with how often it counts, and with the sums. -/
structure Mirrored (bytes : Bytes) (i : Nat) (b : UInt8) : Prop where
  inside : i < bytes.length
  place : (65535 : Int) ∣ wordChange bytes i b * (256 * wordsFrom bytes i + 1)
  sums : (65535 : Int) ∣
    (values bytes).sum + wordChange bytes i b - 256 * sumOfSums (values bytes)

instance (bytes : Bytes) (i : Nat) (b : UInt8) : Decidable (Mirrored bytes i b) :=
  decidable_of_iff (_ ∧ _ ∧ _) ⟨fun h => ⟨h.1, h.2.1, h.2.2⟩, fun h => ⟨h.1, h.2, h.3⟩⟩

theorem length_values (bytes : Bytes) : (values bytes).length = (bytes.length + 1) / 2 := by
  fun_induction values bytes with
  | case1 high low rest ih =>
    simp only [List.length_cons, ih]
    omega
  | case2 last => simp
  | case3 => rfl

/-- The word with the changed byte, before and after, among the others. -/
theorem exists_word {bytes : Bytes} {i : Nat} (inside : i < bytes.length) (b : UInt8) :
    ∃ (before after : List Nat) (v v' : Nat), before.length = i / 2 ∧
      values bytes = before ++ v :: after ∧ values (bytes.set i b) = before ++ v' :: after ∧
      (v' : Int) = v + wordChange bytes i b := by
  fun_induction values bytes generalizing i with
  | case1 high low rest ih =>
    -- The byte is the high or the low one of the first word, or it is in the rest.
    rcases i with _ | _ | i
    · refine ⟨[], values rest, _, _, rfl, rfl, rfl, ?_⟩
      simp [wordChange]
      omega
    · refine ⟨[], values rest, _, _, rfl, rfl, rfl, ?_⟩
      simp [wordChange]
    · obtain ⟨before, after, v, v', count, old, new, change⟩ :=
        @ih i (Nat.lt_of_succ_lt_succ (Nat.lt_of_succ_lt_succ inside))
      refine ⟨_ :: before, after, v, v', ?_, congrArg _ old, congrArg _ new, ?_⟩
      · rw [List.length_cons, count]
        omega
      · have parity : (i + 1 + 1) % 2 = i % 2 := Nat.add_mod_right i 2
        rw [change]
        simp [wordChange, parity]
  | case2 last =>
    obtain rfl : i = 0 := Nat.lt_one_iff.1 inside
    refine ⟨[], [], _, _, rfl, rfl, rfl, ?_⟩
    simp [wordChange]
    omega
  | case3 => cases inside

theorem wordChange_cases {bytes : Bytes} {i : Nat} {b : UInt8} (inside : i < bytes.length)
    (other : bytes[i]? ≠ some b) :
    wordChange bytes i b ≠ 0 ∧ -65535 < wordChange bytes i b ∧ wordChange bytes i b < 65535 := by
  have distinct : (bytes.getD i 0).toNat ≠ b.toNat := by
    rw [List.getD_eq_getElem?_getD]
    rw [List.getElem?_eq_getElem inside] at other ⊢
    exact fun same => other (congrArg some (UInt8.toNat_inj.1 same))
  have old : (bytes.getD i 0).toNat < 256 := UInt8.toNat_lt _
  have new : b.toNat < 256 := b.toNat_lt
  unfold wordChange
  split <;> omega

/-- Two pairs of sums that differ by `d` and `p` are turned around into each other. -/
theorem alike_turned_iff {first second first' second' : Nat} {d p : Int} (above : -65535 < d)
    (below : d < 65535) (firstChange : (first' : Int) = first + d)
    (secondChange : (second' : Int) = second + p) (zero : second = 0 ↔ first = 0)
    (zero' : second' = 0 ↔ first' = 0) :
    (Alike (256 * first) second' ∧ Alike (256 * second) first') ↔
      (65535 : Int) ∣ 256 * p + d ∧ (65535 : Int) ∣ first + d - 256 * second := by
  -- Either congruence gives the other one, because 256 * 256 is congruent to 1.
  unfold Alike Nat.ModEq
  omega

variable {bytes : Bytes} {i : Nat} {b : UInt8}

/-- By how much the two sums of the words grow. -/
theorem sums_set (inside : i < bytes.length) :
    ((values (bytes.set i b)).sum : Int) = (values bytes).sum + wordChange bytes i b ∧
    (sumOfSums (values (bytes.set i b)) : Int) =
      sumOfSums (values bytes) + wordsFrom bytes i * wordChange bytes i b := by
  obtain ⟨before, after, v, v', count, old, new, change⟩ := exists_word inside b
  have words : wordsFrom bytes i = after.length + 1 := by
    rw [wordsFrom, ← length_values, old, List.length_append, List.length_cons, count]
    omega
  rw [old, new, words, sum_place, sum_place, sumOfSums_place, sumOfSums_place]
  push_cast
  rw [change]
  constructor
  · ring
  · ring

/-- Another byte gives another checksum. -/
theorem fletcher32_set_ne (inside : i < bytes.length) (other : bytes[i]? ≠ some b) :
    fletcher32 bytes ≠ fletcher32 (bytes.set i b) := by
  obtain ⟨changed, above, below⟩ := wordChange_cases inside other
  have sum := (sums_set inside (b := b)).1
  intro same
  obtain ⟨⟨congruent, -⟩, -⟩ := fletcher32_eq_iff.1 same
  unfold Nat.ModEq at congruent
  omega

/-- The checksum is turned around by the mirrored changes and no others. -/
theorem swapWord_fletcher32_eq_set_iff (inside : i < bytes.length)
    (other : bytes[i]? ≠ some b) :
    swapWord (fletcher32 bytes) = fletcher32 (bytes.set i b) ↔ Mirrored bytes i b := by
  obtain ⟨-, above, below⟩ := wordChange_cases inside other
  obtain ⟨sum, sums⟩ := sums_set inside (b := b)
  have place : wordChange bytes i b * (256 * wordsFrom bytes i + 1) =
      256 * (wordsFrom bytes i * wordChange bytes i b) + wordChange bytes i b := by ring
  rw [swapWord_fletcher32_eq_iff, alike_turned_iff above below sum sums
    (sumOfSums_eq_zero_iff _) (sumOfSums_eq_zero_iff _), ← place]
  exact ⟨fun h => ⟨inside, h.1, h.2⟩, fun h => ⟨h.place, h.sums⟩⟩

/-- With one byte changed, four bytes are in neither order what they were. -/
theorem set_ne_of_four {bs : Bytes} (four : bs.length = 4) {j : Nat} (lt : j < 4)
    (other : bs[j]? ≠ some b) : bs.set j b ≠ bs ∧ (bs.set j b).reverse ≠ bs := by
  match bs, four with
  | [b0, b1, b2, b3], _ =>
    match j, lt with
    | 0, _ | 1, _ | 2, _ | 3, _ => grind

/-! ## The filter -/

/-- What the filter reads where it wrote `stored` for `body`, with byte `i` changed to `b`: the
changed body when the change is mirrored, and otherwise it finds that the checksums differ. -/
theorem decode_fletcher_set {ctx ctx' : FilterContext} {body stored : Bytes} {i : Nat} {b : UInt8}
    (encoded : fletcher.encode ctx body = .ok stored) (inside : i < stored.length)
    (other : stored[i]? ≠ some b) :
    fletcher.decode ctx' (stored.set i b) =
      if Mirrored body i b then .ok (body.set i b)
      else .error (.fletcherMismatch (ofBytes ((stored.set i b).drop body.length))
        (fletcher32 ((stored.set i b).take body.length))) := by
  have whole : stored = body ++ trailer body := by
    cases encoded
    rfl
  show checkFletcher (stored.set i b) = _
  subst whole
  rcases Nat.lt_or_ge i body.length with within | beyond
  · rw [List.set_append_left _ _ within]
    rw [List.getElem?_append_left within] at other
    have straight : trailer body ≠ trailer (body.set i b) :=
      mt trailer_eq_iff.1 (fletcher32_set_ne within other)
    have turned : (trailer body).reverse = trailer (body.set i b) ↔ Mirrored body i b :=
      reverse_trailer_eq_iff.trans (swapWord_fletcher32_eq_set_iff within other)
    rw [checkFletcher_append _ (length_trailer body), List.drop_left' (List.length_set ..),
      List.take_left' (List.length_set ..)]
    simp only [straight, turned, false_or]
  · rw [List.set_append_right _ _ beyond]
    rw [List.getElem?_append_right beyond] at other
    rw [List.length_append, length_trailer] at inside
    obtain ⟨straight, turned⟩ := set_ne_of_four (length_trailer body) (by omega) other
    have outside : ¬ Mirrored body i b := fun h => Nat.not_lt.2 beyond h.inside
    rw [checkFletcher_append _ (by rw [List.length_set, length_trailer]), List.drop_left,
      List.take_left]
    simp only [straight, turned, outside, or_self, if_false]

/-- The context of the checksum in a pipeline of its own. -/
def checksumContext (bytes : Nat) : FilterContext := ⟨⟨fletcherId, none, 0, []⟩, 0, 1, bytes, 0⟩

/-- The last byte of 55 AA 00 cannot become 01 unseen. -/
theorem decode_fletcher_set_of_last_byte :
    fletcher.encode (checksumContext 3) [85, 170, 0] =
      .ok [85, 170, 0, 170, 85, 84, 171] ∧
    2 < ([85, 170, 0, 170, 85, 84, 171] : Bytes).length ∧
    ([85, 170, 0, 170, 85, 84, 171] : Bytes)[2]? ≠ some 1 ∧
    fletcher.decode (checksumContext 3) [85, 170, 1, 170, 85, 84, 171] =
      .error (.fletcherMismatch 0xab5455aa 0xac5456aa) := by
  have encoded : fletcher.encode (checksumContext 3) [85, 170, 0] =
    .ok [85, 170, 0, 170, 85, 84, 171] := by decide +kernel
  refine ⟨encoded, by decide, by decide, ?_⟩
  exact (decode_fletcher_set encoded (i := 2) (b := 1) (by decide) (by decide)).trans
    (by decide +kernel)

/-- The last byte of 55 AA 00 can become FF: the changed bytes have the checksum of the first ones
in the opposite byte order, and the filter delivers them. -/
theorem fletcher_accepts_changed_byte :
    ¬ ∀ (ctx ctx' : FilterContext) (body stored : Bytes) (i : Nat) (b : UInt8),
      fletcher.encode ctx body = .ok stored → i < stored.length → stored[i]? ≠ some b →
        ∃ written computed,
          fletcher.decode ctx' (stored.set i b) = .error (.fletcherMismatch written computed) := by
  intro refused
  have encoded : fletcher.encode (checksumContext 3) [85, 170, 0] =
    .ok [85, 170, 0, 170, 85, 84, 171] := by decide +kernel
  have delivered : fletcher.decode (checksumContext 3) [85, 170, 255, 170, 85, 84, 171] =
    .ok [85, 170, 255] := by decide +kernel
  obtain ⟨_, _, failed⟩ := refused _ (checksumContext 3) _ _ 2 255 encoded (by decide) (by decide)
  cases delivered.symm.trans failed

end Codec

end ChunkStore
