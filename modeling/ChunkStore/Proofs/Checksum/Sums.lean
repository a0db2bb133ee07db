import ChunkStore.Checksum.Fletcher
import ChunkStore.Proofs.Runs
import Mathlib.Algebra.Order.BigOperators.Group.List
import Mathlib.Algebra.Group.Action.Defs
import Mathlib.Data.List.Infix
import Mathlib.Data.Nat.ModEq
import Mathlib.Tactic.Ring

/-!
# What the Fletcher-32 checksum computes

The words of a byte string (`values`) have a sum and a sum of the sums of their prefixes
(`sumOfSums`), however large. The checksum keeps both in 32 bits, where folding a carry back in
gives a number that is `Alike`: congruent modulo 65535, and zero only for zero. Sums that were
folded are low enough for another run of 360 words (`stands_addRun`), so no addition leaves 32 bits:
the checksum with checked additions, `fletcher32?`, always gives a result, and `toNat_fletcher32`
says which.
-/

namespace ChunkStore.Checksum

namespace Fletcher

/-! ## Exact sums -/

/-- The big-endian words of `bytes`; an odd last byte is the high half of a last word. -/
def values : Bytes → List Nat
  | high :: low :: rest => (256 * high.toNat + low.toNat) :: values rest
  | [last] => [256 * last.toNat]
  | [] => []

/-- The sum of the sums of all prefixes. -/
def sumOfSums (ns : List Nat) : Nat := (ns.inits.map List.sum).sum

/-- Every number counts once for itself and once for each number after it. -/
theorem sumOfSums_cons (n : Nat) (ns : List Nat) :
    sumOfSums (n :: ns) = (ns.length + 1) * n + sumOfSums ns := by
  have longer (pres : List (List Nat)) :
      ((pres.map (n :: ·)).map List.sum).sum = pres.length * n + (pres.map List.sum).sum := by
    induction pres with
    | nil => simp
    | cons p pres ih =>
      simp only [List.map_cons, List.sum_cons, List.length_cons, ih]
      ring
  rw [sumOfSums, List.inits_cons, List.map_cons, List.sum_cons, longer, List.length_inits]
  simp [sumOfSums]

theorem sumOfSums_append (ms ns : List Nat) :
    sumOfSums (ms ++ ns) = sumOfSums ms + ns.length * ms.sum + sumOfSums ns := by
  induction ms with
  | nil => simp [sumOfSums]
  | cons m ms ih =>
    simp only [List.cons_append, sumOfSums_cons, List.length_append, List.sum_cons, ih]
    ring

theorem two_mul_sumOfSums_le {bound : Nat} {ns : List Nat} (below : ∀ n ∈ ns, n ≤ bound) :
    2 * sumOfSums ns ≤ bound * (ns.length * (ns.length + 1)) := by
  induction ns with
  | nil => simp [sumOfSums]
  | cons n ns ih =>
    have here : n ≤ bound := below n List.mem_cons_self
    have rest := ih fun m mem => below m (List.mem_cons_of_mem n mem)
    have first : 2 * ((ns.length + 1) * n) ≤ bound * (2 * (ns.length + 1)) := by
      calc 2 * ((ns.length + 1) * n) ≤ 2 * ((ns.length + 1) * bound) := by gcongr
        _ = bound * (2 * (ns.length + 1)) := by ring
    rw [sumOfSums_cons, List.length_cons]
    calc 2 * ((ns.length + 1) * n + sumOfSums ns)
        = 2 * ((ns.length + 1) * n) + 2 * sumOfSums ns := by ring
      _ ≤ bound * (2 * (ns.length + 1)) + bound * (ns.length * (ns.length + 1)) := by omega
      _ = bound * ((ns.length + 1) * (ns.length + 1 + 1)) := by ring

/-- The number from 1 to 65535 that is congruent to `n` modulo 65535; only for zero it is zero. -/
def reduce (n : Nat) : Nat := if n = 0 then 0 else (n - 1) % 65535 + 1

/-- Congruent modulo 65535, and both zero or neither. -/
def Alike (m n : Nat) : Prop := m ≡ n [MOD 65535] ∧ (m = 0 ↔ n = 0)

namespace Alike

variable {m n m' n' : Nat}

theorem refl (n : Nat) : Alike n n := ⟨rfl, Iff.rfl⟩

theorem trans {k : Nat} (first : Alike m n) (second : Alike n k) : Alike m k :=
  ⟨first.1.trans second.1, first.2.trans second.2⟩

theorem add (first : Alike m n) (second : Alike m' n') : Alike (m + m') (n + n') :=
  ⟨first.1.add second.1, by rw [Nat.add_eq_zero_iff, Nat.add_eq_zero_iff, first.2, second.2]⟩

theorem mul_left (k : Nat) (alike : Alike m n) : Alike (k * m) (k * n) :=
  ⟨alike.1.mul_left k, by rw [Nat.mul_eq_zero, Nat.mul_eq_zero, alike.2]⟩

end Alike

theorem reduce_le (n : Nat) : reduce n ≤ 65535 := by
  unfold reduce
  split
  · exact Nat.zero_le _
  · have := Nat.mod_lt (n - 1) (show 0 < 65535 by decide)
    omega

theorem alike_reduce (n : Nat) : Alike (reduce n) n := by
  unfold reduce Alike Nat.ModEq
  split
  · omega
  · omega

/-- Of the numbers up to 65535, exactly one is like a given one. -/
theorem eq_reduce_iff {m n : Nat} (low : m ≤ 65535) : m = reduce n ↔ Alike m n := by
  constructor
  · rintro rfl
    exact alike_reduce n
  · rintro ⟨congruent, zero⟩
    unfold Nat.ModEq at congruent
    unfold reduce
    split
    · omega
    · omega

/-! ## Carries -/

theorem toNat_low (x : UInt32) : (x &&& (0xffff : UInt32)).toNat = x.toNat % 65536 := by
  rw [UInt32.toNat_and]
  exact Nat.and_two_pow_sub_one_eq_mod x.toNat 16

theorem toNat_high (x : UInt32) : (x >>> (16 : UInt32)).toNat = x.toNat / 65536 := by
  rw [UInt32.toNat_shiftRight]
  exact Nat.shiftRight_eq_div_pow x.toNat 16

theorem toNat_foldCarry (x : UInt32) :
    (foldCarry x).toNat = x.toNat % 65536 + x.toNat / 65536 := by
  have small : x.toNat < 4294967296 := x.toNat_lt
  rw [foldCarry, UInt32.toNat_add, toNat_low, toNat_high]
  omega

theorem alike_foldCarry (x : UInt32) : Alike (foldCarry x).toNat x.toNat := by
  rw [toNat_foldCarry]
  unfold Alike Nat.ModEq
  omega

/-! ## Checked sums -/

/-- The sum, when 32 bits hold it. -/
def add? (a b : UInt32) : Option UInt32 :=
  if a.toNat + b.toNat < UInt32.size then some (a + b) else none

/-- `Sums.add` with checked additions. -/
def Sums.add? (s : Sums) (word : UInt32) : Option Sums := do
  let first ← Fletcher.add? s.first word
  return ⟨first, ← Fletcher.add? s.second first⟩

/-- `foldCarry` with a checked addition. -/
def foldCarry? (sum : UInt32) : Option UInt32 :=
  add? (sum &&& (0xffff : UInt32)) (sum >>> (16 : UInt32))

/-- `Sums.fold` with checked additions. -/
def Sums.fold? (s : Sums) : Option Sums := do
  return ⟨← foldCarry? s.first, ← foldCarry? s.second⟩

/-- Both sums after a run of words, folded, with checked additions. -/
def Sums.addRun? (s : Sums) (run : List UInt32) : Option Sums := do
  (← run.foldlM Sums.add? s).fold?

theorem add?_eq {a b : UInt32} (room : a.toNat + b.toNat < UInt32.size) :
    add? a b = some (a + b) ∧ (a + b).toNat = a.toNat + b.toNat := by
  refine ⟨if_pos room, ?_⟩
  rw [UInt32.toNat_add]
  exact Nat.mod_eq_of_lt room

theorem foldCarry?_eq (x : UInt32) : foldCarry? x = some (foldCarry x) := by
  have small : x.toNat < 4294967296 := x.toNat_lt
  refine (add?_eq ?_).1
  rw [toNat_low, toNat_high]
  show _ < 4294967296
  omega

theorem fold?_eq (s : Sums) : s.fold? = some s.fold := by
  rw [Sums.fold?, foldCarry?_eq, foldCarry?_eq]
  rfl

/-- As long as 32 bits hold the second sum, both sums are exact. -/
theorem foldlM_add?_eq (s : Sums) (run : List UInt32)
    (room : s.second.toNat + run.length * s.first.toNat + sumOfSums (run.map UInt32.toNat) <
      UInt32.size) :
    run.foldlM Sums.add? s = some (run.foldl Sums.add s) ∧
    (run.foldl Sums.add s).first.toNat = s.first.toNat + (run.map UInt32.toNat).sum ∧
    (run.foldl Sums.add s).second.toNat =
      s.second.toNat + run.length * s.first.toNat + sumOfSums (run.map UInt32.toNat) := by
  induction run generalizing s with
  | nil => exact ⟨rfl, rfl, by simp [sumOfSums]⟩
  | cons w run ih =>
    simp only [List.map_cons, sumOfSums_cons, List.length_cons, List.length_map,
      Nat.succ_mul] at room
    obtain ⟨first, firstExact⟩ := add?_eq (a := s.first) (b := w) (by omega)
    obtain ⟨second, secondExact⟩ := add?_eq (a := s.second) (b := s.first + w) (by omega)
    have step : s.add? w = some (s.add w) := by
      rw [Sums.add?, first]
      show (do return ⟨s.first + w, ← add? s.second (s.first + w)⟩ : Option Sums) = _
      rw [second]
      rfl
    obtain ⟨run', first', second'⟩ := ih (s.add w) (by
      show (s.second + (s.first + w)).toNat + run.length * (s.first + w).toNat + _ < _
      rw [secondExact, firstExact, Nat.mul_add]
      omega)
    have firstStep : (s.add w).first.toNat = s.first.toNat + w.toNat := firstExact
    have secondStep : (s.add w).second.toNat = s.second.toNat + (s.first.toNat + w.toNat) := by
      rw [← firstExact]
      exact secondExact
    refine ⟨?_, ?_, ?_⟩
    · rw [List.foldlM_cons, step]
      exact run'
    · rw [List.foldl_cons, first', firstStep, List.map_cons, List.sum_cons, Nat.add_assoc]
    · rw [List.foldl_cons, second', firstStep, secondStep, List.map_cons, sumOfSums_cons,
        List.length_cons, List.length_map]
      ring

/-- Sums as a fold leaves them: low enough for another run. -/
structure Sums.Low (s : Sums) : Prop where
  first : s.first.toNat ≤ 65896
  second : s.second.toNat ≤ 131070

/-- The sums stand for the exact ones of the words `ns`. -/
structure Sums.Stands (s : Sums) (ns : List Nat) : Prop where
  first : Alike s.first.toNat ns.sum
  second : Alike s.second.toNat (sumOfSums ns)

variable {s : Sums} {before : List Nat} {run : List UInt32}

/-- From folded sums, 360 words do not leave 32 bits, and folding makes the sums low again. -/
theorem stands_addRun (low : s.Low) (stands : s.Stands before) (short : run.length ≤ runLength)
    (words : ∀ n ∈ run.map UInt32.toNat, n ≤ 65535) :
    s.addRun? run = some (run.foldl Sums.add s).fold ∧
    (run.foldl Sums.add s).fold.Low ∧
    (run.foldl Sums.add s).fold.Stands (before ++ run.map UInt32.toNat) := by
  have few : run.length ≤ 360 := short
  have square : run.length * (run.length + 1) ≤ 360 * 361 := Nat.mul_le_mul few (by omega)
  have carried : run.length * s.first.toNat ≤ 360 * 65896 := Nat.mul_le_mul few low.first
  have added : (run.map UInt32.toNat).sum ≤ 360 * 65535 := by
    have bound := List.sum_le_card_nsmul _ _ words
    rw [List.length_map, smul_eq_mul] at bound
    exact bound.trans (Nat.mul_le_mul_right _ few)
  have sums := two_mul_sumOfSums_le words
  rw [List.length_map] at sums
  have secondLow := low.second
  have firstLow := low.first
  -- 131070 + 360 * 65896 + 65535 * (1 + 2 + ... + 360) is still below 2 ^ 32.
  obtain ⟨checked, first, second⟩ := foldlM_add?_eq s run (by
    show _ < 4294967296
    omega)
  have small : (run.foldl Sums.add s).second.toNat < 4294967296 := UInt32.toNat_lt _
  refine ⟨?_, ⟨?_, ?_⟩, ⟨?_, ?_⟩⟩
  · rw [Sums.addRun?, checked]
    exact fold?_eq _
  · rw [Sums.fold, toNat_foldCarry, first]
    omega
  · rw [Sums.fold, toNat_foldCarry]
    omega
  · refine (alike_foldCarry _).trans ?_
    rw [first, List.sum_append]
    exact stands.first.add (.refl _)
  · refine (alike_foldCarry _).trans ?_
    rw [second, sumOfSums_append, List.length_map]
    exact (stands.second.add (stands.first.mul_left _)).add (.refl _)

/-- Run after run, no addition leaves 32 bits. -/
theorem stands_addRuns {runs : List (List UInt32)} (low : s.Low) (stands : s.Stands before)
    (short : ∀ run ∈ runs, run.length ≤ runLength)
    (words : ∀ n ∈ runs.flatten.map UInt32.toNat, n ≤ 65535) :
    runs.foldlM Sums.addRun? s = some (addRuns s runs) ∧ (addRuns s runs).Low ∧
    (addRuns s runs).Stands (before ++ runs.flatten.map UInt32.toNat) := by
  induction runs generalizing s before with
  | nil => exact ⟨rfl, low, by simpa [addRuns] using stands⟩
  | cons run runs ih =>
    rw [List.flatten_cons, List.map_append, List.forall_mem_append] at words
    rw [List.forall_mem_cons] at short
    obtain ⟨first, low, stands⟩ := stands_addRun low stands short.1 words.1
    obtain ⟨others, low, stands⟩ := ih low stands short.2 words.2
    refine ⟨?_, low, ?_⟩
    · rw [List.foldlM_cons, first]
      exact others
    · rw [List.flatten_cons, List.map_append, ← List.append_assoc]
      exact stands

/-! ## Words -/

/-- Two numbers side by side in one word, when it has room for both. -/
theorem toNat_shiftLeft_or {a b k : UInt32} (few : k.toNat < 32)
    (high : a.toNat * 2 ^ k.toNat < UInt32.size) (low : b.toNat < 2 ^ k.toNat) :
    (a <<< k ||| b).toNat = 2 ^ k.toNat * a.toNat + b.toNat := by
  have shifted : (a <<< k).toNat = a.toNat <<< k.toNat := by
    rw [UInt32.toNat_shiftLeft, Nat.mod_eq_of_lt few, Nat.shiftLeft_eq]
    exact Nat.mod_eq_of_lt high
  rw [UInt32.toNat_or, shifted, ← Nat.shiftLeft_add_eq_or_of_lt low, Nat.shiftLeft_eq,
    Nat.mul_comm]

theorem toNat_word (high low : UInt8) :
    (high.toUInt32 <<< (8 : UInt32) ||| low.toUInt32).toNat = 256 * high.toNat + low.toNat := by
  have highSmall : high.toNat < 256 := high.toNat_lt
  have room : high.toNat * 2 ^ 8 < 4294967296 := by omega
  exact toNat_shiftLeft_or (k := 8) (by decide) room low.toNat_lt

theorem oddWord_cons_cons (high low : UInt8) (rest : Bytes) :
    oddWord (high :: low :: rest) = oddWord rest := by
  have parity : (high :: low :: rest).length % 2 = rest.length % 2 :=
    Nat.add_mod_right rest.length 2
  cases rest with
  | nil => simp [oddWord]
  | cons b rest => rw [oddWord, oddWord, parity, List.getLast?_cons_cons, List.getLast?_cons_cons]

theorem values_eq (bytes : Bytes) :
    values bytes = (words bytes).map UInt32.toNat ++ (oddWord bytes).toList.map UInt32.toNat := by
  fun_induction values bytes with
  | case1 high low rest ih =>
    rw [words, oddWord_cons_cons, List.map_cons, List.cons_append, toNat_word, ih]
  | case2 last =>
    have odd : oddWord [last] = some (last.toUInt32 <<< (8 : UInt32) ||| (0 : UInt8).toUInt32) :=
      congrArg some UInt32.or_zero.symm
    rw [odd, Option.toList_some, List.map_singleton, toNat_word]
    rfl
  | case3 => rfl

theorem values_le (bytes : Bytes) : ∀ n ∈ values bytes, n ≤ 65535 := by
  fun_induction values bytes with
  | case1 high low rest ih =>
    have highSmall : high.toNat < 256 := high.toNat_lt
    have lowSmall : low.toNat < 256 := low.toNat_lt
    rw [List.forall_mem_cons]
    exact ⟨by omega, ih⟩
  | case2 last =>
    have small : last.toNat < 256 := last.toNat_lt
    rw [List.forall_mem_singleton]
    omega
  | case3 => exact nofun

/-- Runs leave no word out. -/
theorem flatten_runs (ws : List UInt32) : (runs ws).flatten = ws := by
  have enough : ws.length ≤ (ws.length + runLength - 1) / runLength * runLength := by
    show ws.length ≤ (ws.length + 360 - 1) / 360 * 360
    omega
  exact flatten_takeChunks_of_le enough

end Fletcher

open Fletcher

/-- The checksum with checked additions; none when a sum leaves 32 bits. -/
def fletcher32? (bytes : Bytes) : Option UInt32 := do
  let pairs ← (runs (words bytes)).foldlM Sums.addRun? ⟨0, 0⟩
  let all ← match oddWord bytes with
    | some word => pairs.addRun? [word]  -- a run of its own
    | none => some pairs
  let ⟨first, second⟩ ← all.fold?
  return second <<< (16 : UInt32) ||| first

/-- Both sums before the last fold. -/
theorem fletcher32_stands (bytes : Bytes) : ∃ s : Sums, s.Low ∧ s.Stands (values bytes) ∧
    fletcher32? bytes = some (s.fold.second <<< (16 : UInt32) ||| s.fold.first) ∧
    fletcher32 bytes = s.fold.second <<< (16 : UInt32) ||| s.fold.first := by
  have small := values_le bytes
  rw [values_eq, List.forall_mem_append, ← flatten_runs (words bytes)] at small
  have short : ∀ run ∈ runs (words bytes), run.length ≤ runLength := length_le_of_mem_takeChunks
  have start : (⟨0, 0⟩ : Sums).Stands [] := ⟨.refl 0, .refl 0⟩
  obtain ⟨checked, low, stands⟩ := stands_addRuns ⟨by decide, by decide⟩ start short small.1
  rw [flatten_runs, List.nil_append] at stands
  rw [values_eq]
  cases odd : oddWord bytes with
  | none =>
    refine ⟨_, low, by simpa using stands, ?_, ?_⟩
    · simp [fletcher32?, checked, odd, fold?_eq]
    · simp only [fletcher32, odd]
  | some word =>
    have single : [word].length ≤ runLength := show 1 ≤ 360 by decide
    rw [odd] at small
    obtain ⟨last, low, stands⟩ := stands_addRun low stands single small.2
    refine ⟨_, low, stands, ?_, ?_⟩
    · simp [fletcher32?, checked, odd, last, fold?_eq]
    · simp only [fletcher32, odd, List.foldl_cons, List.foldl_nil]

theorem toNat_fletcher32 (bytes : Bytes) : (fletcher32 bytes).toNat =
    65536 * reduce (sumOfSums (values bytes)) + reduce (values bytes).sum := by
  obtain ⟨s, low, stands, -, checksum⟩ := fletcher32_stands bytes
  have firstLow := low.first
  have secondLow := low.second
  have first : s.fold.first.toNat = reduce (values bytes).sum := by
    refine (eq_reduce_iff ?_).2 ((alike_foldCarry _).trans stands.first)
    rw [Sums.fold, toNat_foldCarry]
    omega
  have second : s.fold.second.toNat = reduce (sumOfSums (values bytes)) := by
    refine (eq_reduce_iff ?_).2 ((alike_foldCarry _).trans stands.second)
    rw [Sums.fold, toNat_foldCarry]
    omega
  have firstSmall : s.fold.first.toNat < 65536 := first ▸ Nat.lt_succ_of_le (reduce_le _)
  have secondSmall : s.fold.second.toNat < 65536 := second ▸ Nat.lt_succ_of_le (reduce_le _)
  have room : s.fold.second.toNat * 2 ^ 16 < 4294967296 := by omega
  rw [checksum, ← first, ← second]
  exact toNat_shiftLeft_or (k := 16) (by decide) room firstSmall

/-- No addition leaves 32 bits, and the checksum has the sum of sums in its high half and the sum
in its low half, both reduced. -/
theorem fletcher32_eq_sums (bytes : Bytes) :
    fletcher32? bytes = some (fletcher32 bytes) ∧
    (fletcher32 bytes).toNat =
      reduce (sumOfSums (values bytes)) <<< 16 ||| reduce (values bytes).sum := by
  obtain ⟨s, -, -, checked, checksum⟩ := fletcher32_stands bytes
  have low : reduce (values bytes).sum < 2 ^ 16 := Nat.lt_succ_of_le (reduce_le _)
  constructor
  · rw [checked, checksum]
  · rw [toNat_fletcher32, ← Nat.shiftLeft_add_eq_or_of_lt low, Nat.shiftLeft_eq, Nat.mul_comm]

end ChunkStore.Checksum
