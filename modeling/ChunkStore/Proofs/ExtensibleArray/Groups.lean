import ChunkStore.Index.ExtensibleArray
import Mathlib.Algebra.Ring.Nat
import Mathlib.Order.Monotone.Basic

/-!
# How the data blocks share the indexes

The data blocks of an extensible array are numbered group by group (`Header.dataBlocks`), and their
indexes follow one another behind the entries of the index block (`Header.firstIndex`). For every
header that is accepted the table of groups says the same, without ever reaching the limit of 64
bits (`Header.Accepted.tiled`): group `n` starts behind `entriesBefore minElements n` entries. So
`locate`, which takes the logarithm of a quotient, comes to the one block that has the index
(`Header.Accepted.locate_of_contains`).
-/

namespace ChunkStore.Index.ExtensibleArray

/-- What is true of every header that was read. -/
structure Header.Accepted (h : Header) : Prop where
  elements : isPowerOfTwo h.minElements = true
  narrow : h.minElements < 256
  pointers : isPowerOfTwo h.minPointers = true
  table : groupTable h.maxBits h.minElements = .ok h.groups
  used : h.maxIndexSet ≤ maxWord

/-! ## The table of groups -/

theorem eq_two_pow_log2 {n : Nat} (power : isPowerOfTwo n = true) : n = 2 ^ Nat.log2 n := by
  unfold isPowerOfTwo at power
  rw [Bool.and_eq_true, decide_eq_true_eq, decide_eq_true_eq, Nat.one_shiftLeft] at power
  exact power.2.symm

/-- How many data blocks come before group `n`. -/
def blocksBefore : (n : Nat) → Nat
  | 0 => 0
  | n + 1 => blocksBefore n + 2 ^ (n / 2)

/-- Entries of each data block of group `n`, where the smallest have `minElements`. -/
def blockSize (minElements n : Nat) : Nat := 2 ^ ((n + 1) / 2) * minElements

/-- How many entries the data blocks before group `n` have. -/
def entriesBefore (minElements n : Nat) : Nat := (2 ^ n - 1) * minElements

/-- Group `n` of an array whose smallest data blocks have `minElements` entries. -/
def groupRow (minElements n : Nat) : Group where
  blocks := 2 ^ (n / 2)
  blockEntries := blockSize minElements n
  startIndex := entriesBefore minElements n
  startBlock := blocksBefore n

theorem blocksBefore_mono : Monotone blocksBefore :=
  monotone_nat_of_le_succ fun _ => Nat.le_add_right _ _

/-- Two groups each have 1, 2, 4 and so on data blocks. -/
theorem blocksBefore_two_mul (n : Nat) : blocksBefore (2 * n) = 2 * (2 ^ n - 1) := by
  induction n with
  | zero => rfl
  | succ n ih =>
    have pos := Nat.two_pow_pos n
    have half : (2 * n + 1) / 2 = n := by omega
    rw [Nat.mul_succ, blocksBefore, blocksBefore, ih, Nat.mul_div_cancel_left n (by decide), half,
      Nat.pow_succ]
    omega

theorem blocksBefore_lt (n : Nat) : blocksBefore n < 2 ^ (n / 2 + 2) := by
  have le := blocksBefore_mono (show n ≤ 2 * (n / 2 + 1) by omega)
  have pos := Nat.two_pow_pos (n / 2 + 1)
  rw [blocksBefore_two_mul] at le
  rw [Nat.pow_succ]
  omega

/-- The data blocks of group `n` have as many entries together as `2 ^ n` of the smallest. -/
theorem blocks_mul_blockSize (minElements n : Nat) :
    2 ^ (n / 2) * blockSize minElements n = 2 ^ n * minElements := by
  rw [blockSize, ← Nat.mul_assoc, ← Nat.pow_add]
  congr 2
  omega

theorem entriesBefore_succ (minElements n : Nat) :
    entriesBefore minElements (n + 1) = entriesBefore minElements n + 2 ^ n * minElements := by
  have pos := Nat.two_pow_pos n
  rw [entriesBefore, entriesBefore, ← Nat.add_mul, Nat.pow_succ]
  congr 1
  omega

theorem entriesBefore_mono (minElements : Nat) : Monotone (entriesBefore minElements) :=
  monotone_nat_of_le_succ fun n => by
    rw [entriesBefore_succ]
    exact Nat.le_add_right _ _

theorem saturate_of_lt {n : Nat} (less : n < 2 ^ 64) : saturate n = n :=
  saturate_of_le (Nat.le_sub_one_of_lt less)

/-- No size, start or number of a group that a header can have leaves 64 bits. -/
theorem groupsFrom_eq {m count n startIndex startBlock : Nat} (narrow : m < 8)
    (fits : n + count + m ≤ 65) (index : startIndex = entriesBefore (2 ^ m) n)
    (block : startBlock = blocksBefore n) :
    groupsFrom (2 ^ m) count n startIndex startBlock =
      (List.range' n count).map (groupRow (2 ^ m)) := by
  induction count generalizing n startIndex startBlock with
  | zero => rfl
  | succ count ih =>
    have size : saturate (2 ^ m <<< ((n + 1) / 2)) = blockSize (2 ^ m) n := by
      rw [Nat.shiftLeft_eq, Nat.mul_comm, blockSize, ← Nat.pow_add]
      exact saturate_of_lt (Nat.pow_lt_pow_right (by decide) (by omega))
    have row : groupAt (2 ^ m) n startIndex startBlock = groupRow (2 ^ m) n := by
      rw [groupAt, groupRow, Nat.one_shiftLeft, size, index, block]
    rw [groupsFrom, List.range'_succ, List.map_cons, row]
    congr 1
    cases count with
    | zero => rfl
    | succ count =>
      have below : 2 ^ (n + 1) * 2 ^ m ≤ 2 ^ 64 := by
        rw [← Nat.pow_add]
        exact Nat.pow_le_pow_right (by decide) (by omega)
      have next := entriesBefore_succ (2 ^ m) n
      have least := Nat.two_pow_pos m
      have room : entriesBefore (2 ^ m) (n + 1) < 2 ^ 64 := by
        have pos := Nat.mul_pos (Nat.two_pow_pos (n + 1)) least
        rw [entriesBefore, Nat.sub_one_mul]
        omega
      have product : saturate (2 ^ n * 2 ^ m) = 2 ^ n * 2 ^ m := saturate_of_lt (by omega)
      apply ih (by omega)
      · rw [index, groupRow, blocks_mul_blockSize, product, ← next, saturate_of_lt room]
      · have blocks := blocksBefore_lt (n + 1)
        have narrower : 2 ^ ((n + 1) / 2 + 2) ≤ 2 ^ 64 :=
          Nat.pow_le_pow_right (by decide) (by omega)
        rw [block]
        exact saturate_of_lt (Nat.lt_of_lt_of_le blocks narrower)

variable {h : Header}

namespace Header.Accepted

theorem groups_eq_range (accepted : h.Accepted) :
    h.groups = (List.range (1 + (h.maxBits - Nat.log2 h.minElements))).map
      (groupRow h.minElements) ∧ Nat.log2 h.minElements ≤ h.maxBits ∧ h.maxBits ≤ 64 := by
  have table := accepted.table
  unfold groupTable at table
  dsimp only at table
  split at table
  · cases table
  next fits =>
    have narrow : Nat.log2 h.minElements < 8 := by
      by_contra wide
      have least : 2 ^ 8 ≤ 2 ^ Nat.log2 h.minElements :=
        Nat.pow_le_pow_right (by decide) (Nat.le_of_not_lt wide)
      rw [← eq_two_pow_log2 accepted.elements] at least
      exact absurd accepted.narrow (Nat.not_lt.2 least)
    have rows : groupsFrom (2 ^ Nat.log2 h.minElements)
        (1 + (h.maxBits - Nat.log2 h.minElements)) 0 0 0 = _ :=
      groupsFrom_eq narrow (by omega) (Nat.zero_mul _).symm rfl
    rw [← eq_two_pow_log2 accepted.elements, ← List.range_eq_range'] at rows
    rw [← Except.ok.inj table]
    exact ⟨rows, by omega, by omega⟩

theorem length_groups (accepted : h.Accepted) :
    h.groups.length = 1 + (h.maxBits - Nat.log2 h.minElements) := by
  rw [accepted.groups_eq_range.1, List.length_map, List.length_range]

theorem length_groups_le (accepted : h.Accepted) : h.groups.length ≤ 65 := by
  have most := accepted.groups_eq_range.2.2
  rw [accepted.length_groups]
  omega

/-- No group has more than `2 ^ 64` entries. -/
theorem two_pow_mul_le (accepted : h.Accepted) {n : Nat} (inside : n < h.groups.length) :
    2 ^ n * h.minElements ≤ 2 ^ 64 := by
  obtain ⟨-, least, most⟩ := accepted.groups_eq_range
  rw [accepted.length_groups] at inside
  rw [eq_two_pow_log2 accepted.elements, ← Nat.pow_add]
  exact Nat.pow_le_pow_right (by decide) (by omega)

theorem getElem?_groups (accepted : h.Accepted) {n : Nat} (inside : n < h.groups.length) :
    h.groups[n]? = some (groupRow h.minElements n) := by
  rw [accepted.length_groups] at inside
  rw [accepted.groups_eq_range.1, List.getElem?_map, List.getElem?_range inside]
  rfl

theorem minElements_pos (accepted : h.Accepted) : 0 < h.minElements := by
  rw [eq_two_pow_log2 accepted.elements]
  exact Nat.two_pow_pos _

theorem blockSize_pos (accepted : h.Accepted) (n : Nat) : 0 < blockSize h.minElements n :=
  Nat.mul_pos (Nat.two_pow_pos _) accepted.minElements_pos

end Header.Accepted

/-! ## The data blocks one after another -/

/-- A data block: number `position` of those in group number `group`. -/
structure DataBlock where
  group : Nat
  position : Nat
  deriving DecidableEq, Repr

/-- Entries of a data block. -/
def DataBlock.entries (minElements : Nat) (d : DataBlock) : Nat := blockSize minElements d.group

/-- The data blocks of the first `count` groups. Group `n` has `2 ^ (n / 2)` of them. -/
def dataBlocksOf (count : Nat) : List DataBlock :=
  (List.range count).flatMap fun n => (List.range (2 ^ (n / 2))).map (DataBlock.mk n)

/-- All data blocks, group by group. -/
def Header.dataBlocks (h : Header) : List DataBlock := dataBlocksOf h.groups.length

/-- The first index of data block number `k`, when the data blocks follow one another behind the
entries of the index block. -/
def Header.firstIndex (h : Header) (k : Nat) : Nat :=
  h.indexElements + ((h.dataBlocks.take k).map (DataBlock.entries h.minElements)).sum

/-- Data block number `k` is `d`, and index `i` is one of its own. -/
structure Header.Contains (h : Header) (k : Nat) (d : DataBlock) (i : Nat) : Prop where
  block : h.dataBlocks[k]? = some d
  ge : h.firstIndex k ≤ i
  lt : i < h.firstIndex k + d.entries h.minElements

theorem dataBlocksOf_succ (count : Nat) :
    dataBlocksOf (count + 1) =
      dataBlocksOf count ++ (List.range (2 ^ (count / 2))).map (DataBlock.mk count) := by
  rw [dataBlocksOf, List.range_succ, List.flatMap_append, List.flatMap_singleton]
  rfl

theorem length_dataBlocksOf (count : Nat) : (dataBlocksOf count).length = blocksBefore count := by
  induction count with
  | zero => rfl
  | succ count ih =>
    rw [dataBlocksOf_succ, List.length_append, ih, List.length_map, List.length_range, blocksBefore]

theorem getElem?_dataBlocksOf {count k : Nat} {d : DataBlock} :
    (dataBlocksOf count)[k]? = some d ↔
      d.group < count ∧ d.position < 2 ^ (d.group / 2) ∧
        k = blocksBefore d.group + d.position := by
  induction count with
  | zero => simp [dataBlocksOf]
  | succ count ih =>
    rw [dataBlocksOf_succ, List.getElem?_append, length_dataBlocksOf]
    split
    next early =>
      rw [ih]
      refine ⟨fun ⟨less, rest⟩ => ⟨Nat.lt_succ_of_lt less, rest⟩, fun ⟨le, inside, number⟩ => ?_⟩
      refine ⟨Nat.lt_of_le_of_ne (Nat.le_of_lt_succ le) fun last => ?_, inside, number⟩
      rw [last] at number
      omega
    next late =>
      rw [List.getElem?_map, Option.map_eq_some_iff]
      constructor
      · rintro ⟨position, found, rfl⟩
        obtain ⟨inside, place⟩ := List.getElem?_eq_some_iff.1 found
        rw [List.length_range] at inside
        rw [List.getElem_range] at place
        subst place
        exact ⟨Nat.lt_succ_self count, inside, (Nat.add_sub_cancel' (Nat.le_of_not_lt late)).symm⟩
      · rintro ⟨le, inside, number⟩
        have last : d.group = count := by
          by_contra other
          have before := blocksBefore_mono (show d.group + 1 ≤ count by omega)
          rw [blocksBefore] at before
          omega
        subst last
        have place : k - blocksBefore d.group = d.position := by omega
        rw [place]
        exact ⟨d.position, List.getElem?_range inside, rfl⟩

/-- The data blocks of one group have as many entries each. -/
theorem sum_entries_group (minElements n count : Nat) :
    (((List.range count).map (DataBlock.mk n)).map (DataBlock.entries minElements)).sum =
      count * blockSize minElements n := by
  rw [List.map_map]
  have same : ∀ position ∈ List.range count,
      (DataBlock.entries minElements ∘ DataBlock.mk n) position = blockSize minElements n :=
    fun _ _ => rfl
  rw [List.map_congr_left same, List.map_const', List.sum_replicate_nat, List.length_range]

theorem sum_entries (minElements count : Nat) :
    ((dataBlocksOf count).map (DataBlock.entries minElements)).sum =
      entriesBefore minElements count := by
  induction count with
  | zero => simp [dataBlocksOf, entriesBefore]
  | succ count ih =>
    rw [dataBlocksOf_succ, List.map_append, List.sum_append, ih, sum_entries_group,
      blocks_mul_blockSize, entriesBefore_succ]

/-- The entries of the first `n` groups and of `position` more data blocks. -/
theorem sum_entries_take {minElements count n position : Nat} (before : n < count)
    (inside : position ≤ 2 ^ (n / 2)) :
    (((dataBlocksOf count).take (blocksBefore n + position)).map
        (DataBlock.entries minElements)).sum =
      entriesBefore minElements n + position * blockSize minElements n := by
  induction count with
  | zero => exact absurd before (Nat.not_lt_zero n)
  | succ count ih =>
    rw [dataBlocksOf_succ]
    rcases Nat.lt_or_ge n count with earlier | last
    · have bound := blocksBefore_mono (show n + 1 ≤ count from earlier)
      rw [blocksBefore] at bound
      rw [List.take_append_of_le_length (by rw [length_dataBlocksOf]; omega)]
      exact ih earlier
    · obtain rfl : n = count := Nat.le_antisymm (Nat.le_of_lt_succ before) last
      rw [← length_dataBlocksOf n, List.take_length_add_append, List.map_append, List.sum_append,
        sum_entries, ← List.map_take, List.take_range, Nat.min_eq_left inside, sum_entries_group]

namespace Header

theorem firstIndex_succ {k : Nat} {d : DataBlock} (block : h.dataBlocks[k]? = some d) :
    h.firstIndex (k + 1) = h.firstIndex k + d.entries h.minElements := by
  rw [firstIndex, firstIndex, List.take_add_one, block, List.map_append, List.sum_append,
    ← Nat.add_assoc]
  simp

theorem firstIndex_mono (h : Header) : Monotone h.firstIndex := by
  refine monotone_nat_of_le_succ fun k => ?_
  rw [firstIndex, firstIndex, List.take_add_one, List.map_append, List.sum_append]
  omega

/-- No index is in two data blocks. -/
theorem Contains.unique {i k k' : Nat} {d d' : DataBlock} (first : h.Contains k d i)
    (second : h.Contains k' d' i) : k = k' ∧ d = d' := by
  -- The later of two blocks starts where the earlier one has ended.
  have apart : ∀ {k k' d d'}, h.Contains k d i → h.Contains k' d' i → ¬ k < k' := by
    intro k k' d d' first second less
    have next := h.firstIndex_mono less
    rw [Nat.succ_eq_add_one, firstIndex_succ first.block] at next
    exact absurd (Nat.lt_of_lt_of_le first.lt next) (Nat.not_lt.2 second.ge)
  obtain rfl : k = k' :=
    Nat.le_antisymm (Nat.not_lt.1 (apart second first)) (Nat.not_lt.1 (apart first second))
  have same := first.block
  rw [second.block] at same
  exact ⟨rfl, (Option.some.inj same).symm⟩

theorem firstIndex_add {n position : Nat} (inside : n < h.groups.length)
    (room : position ≤ 2 ^ (n / 2)) :
    h.firstIndex (blocksBefore n + position) = h.indexElements +
      (entriesBefore h.minElements n + position * blockSize h.minElements n) := by
  rw [firstIndex, dataBlocks, sum_entries_take inside room]

/-- The first index that no data block has. -/
theorem firstIndex_length (h : Header) : h.firstIndex h.dataBlocks.length =
    h.indexElements + entriesBefore h.minElements h.groups.length := by
  rw [firstIndex, List.take_length, dataBlocks, sum_entries]

end Header

/-! ## The way to an index -/

/-- The logarithm tells the group of an index. -/
theorem log2_quotient_eq_iff {minElements relative n : Nat} (pos : 0 < minElements) :
    Nat.log2 (relative / minElements + 1) = n ↔
      entriesBefore minElements n ≤ relative ∧ relative < entriesBefore minElements (n + 1) := by
  have least := Nat.two_pow_pos n
  have least' := Nat.two_pow_pos (n + 1)
  rw [entriesBefore, entriesBefore, Nat.log2_eq_iff (Nat.succ_ne_zero _),
    ← Nat.le_div_iff_mul_le pos, ← Nat.div_lt_iff_lt_mul pos]
  omega

/-- Every number of an entry is that of an entry before some group and of a place in the group. -/
theorem exists_within {minElements : Nat} (pos : 0 < minElements) (relative : Nat) :
    ∃ n within, within < 2 ^ n * minElements ∧
      relative = entriesBefore minElements n + within := by
  generalize log : Nat.log2 (relative / minElements + 1) = n
  obtain ⟨start, stop⟩ := (log2_quotient_eq_iff pos).1 log
  rw [entriesBefore_succ] at stop
  exact ⟨n, relative - entriesBefore minElements n, by omega, by omega⟩

namespace Header.Accepted

/-- The data block that has entry `within` of group `n`, and the place in it. -/
theorem contains_within (accepted : h.Accepted) {n within : Nat} (inside : n < h.groups.length)
    (less : within < 2 ^ n * h.minElements) :
    h.Contains (blocksBefore n + within / blockSize h.minElements n)
        ⟨n, within / blockSize h.minElements n⟩
        (h.indexElements + (entriesBefore h.minElements n + within)) ∧
      h.indexElements + (entriesBefore h.minElements n + within) =
        h.firstIndex (blocksBefore n + within / blockSize h.minElements n) +
          within % blockSize h.minElements n := by
  have size := accepted.blockSize_pos n
  have few : within / blockSize h.minElements n < 2 ^ (n / 2) := by
    rw [Nat.div_lt_iff_lt_mul size, blocks_mul_blockSize]
    exact less
  have first := h.firstIndex_add inside few.le
  have split := Nat.div_add_mod' within (blockSize h.minElements n)
  have rest := Nat.mod_lt within size
  refine ⟨⟨getElem?_dataBlocksOf.2 ⟨inside, few, rfl⟩, ?_, ?_⟩, ?_⟩
  · omega
  · show _ < _ + blockSize h.minElements n
    omega
  · omega

end Header.Accepted

namespace Header

/-- The groups that there are have exactly the indexes below `firstIndex_length`. -/
theorem lt_length_groups_iff {n within : Nat} (less : within < 2 ^ n * h.minElements) :
    n < h.groups.length ↔
      h.indexElements + (entriesBefore h.minElements n + within) <
        h.firstIndex h.dataBlocks.length := by
  rw [firstIndex_length]
  have next := entriesBefore_succ h.minElements n
  constructor
  · intro inside
    have mono := entriesBefore_mono h.minElements (show n + 1 ≤ h.groups.length from inside)
    omega
  · intro below
    by_contra beyond
    have mono := entriesBefore_mono h.minElements (Nat.not_lt.1 beyond)
    omega

theorem Contains.indexElements_le {i k : Nat} {d : DataBlock} (contains : h.Contains k d i) :
    h.indexElements ≤ i :=
  (Nat.le_add_right _ _).trans contains.ge

theorem Contains.lt_firstIndex_length {i k : Nat} {d : DataBlock} (contains : h.Contains k d i) :
    i < h.firstIndex h.dataBlocks.length := by
  have inside := (List.getElem?_eq_some_iff.1 contains.block).1
  have mono := h.firstIndex_mono (Nat.succ_le_of_lt inside)
  rw [Nat.succ_eq_add_one, firstIndex_succ contains.block] at mono
  exact Nat.lt_of_lt_of_le contains.lt mono

theorem locate_of_lt {i : Nat} (less : i < h.indexElements) :
    h.locate i = .ok (.inIndexBlock i) := if_pos less

end Header

namespace Header.Accepted

/-- Every index behind the index block's entries and up to the end of the last group has a data
block. -/
theorem exists_contains (accepted : h.Accepted) {i : Nat} (ge : h.indexElements ≤ i)
    (less : i < h.firstIndex h.dataBlocks.length) : ∃ k d, h.Contains k d i := by
  obtain ⟨relative, rfl⟩ := Nat.exists_eq_add_of_le ge
  obtain ⟨n, within, small, rfl⟩ := exists_within accepted.minElements_pos relative
  exact ⟨_, _, (accepted.contains_within ((lt_length_groups_iff small).2 less) small).1⟩

/-- What `locate` does behind the entries of the index block. -/
theorem locate_within (accepted : h.Accepted) {n within : Nat}
    (less : within < 2 ^ n * h.minElements)
    (fits : h.indexElements + (entriesBefore h.minElements n + within) < maxWord) :
    h.locate (h.indexElements + (entriesBefore h.minElements n + within)) =
      if n < h.groups.length then h.placeIn (groupRow h.minElements n) n within
      else .ok .beyond := by
  have pos := accepted.minElements_pos
  have next := entriesBefore_succ h.minElements n
  have log : Nat.log2 ((entriesBefore h.minElements n + within) / h.minElements + 1) = n :=
    (log2_quotient_eq_iff pos).2 ⟨by omega, by omega⟩
  have quotient := Nat.div_le_self (entriesBefore h.minElements n + within) h.minElements
  have relative : h.indexElements + (entriesBefore h.minElements n + within) - h.indexElements =
      entriesBefore h.minElements n + within := Nat.add_sub_cancel_left _ _
  rw [locate, if_neg (by omega), relative]
  dsimp only
  rw [Bounds.div_eq_ok_iff.2 ⟨pos.ne', rfl⟩]
  show (Bounds.within _ >>= _) = _
  rw [Bounds.within_eq_ok_iff.2 ⟨by omega, rfl⟩]
  dsimp only [bind, Except.bind]
  rw [log]
  by_cases inside : n < h.groups.length
  · have reached : ¬ entriesBefore h.minElements n + within <
        (groupRow h.minElements n).startIndex := Nat.not_lt.2 (Nat.le_add_right _ _)
    have rest : entriesBefore h.minElements n + within - (groupRow h.minElements n).startIndex =
        within := Nat.add_sub_cancel_left _ _
    rw [accepted.getElem?_groups inside, if_pos inside]
    dsimp only
    rw [if_neg reached, rest]
  · rw [List.getElem?_eq_none (Nat.not_lt.1 inside), if_neg inside]
    rfl

/-- The data blocks that the index block names are those of the first groups. -/
theorem lt_directBlocks_iff (accepted : h.Accepted) {n position : Nat}
    (inside : position < 2 ^ (n / 2)) :
    blocksBefore n + position < h.directBlocks ↔ n < h.directGroups := by
  have all : h.directBlocks = blocksBefore h.directGroups := by
    rw [directGroups, blocksBefore_two_mul, ← eq_two_pow_log2 accepted.pointers, directBlocks]
  rw [all]
  constructor
  · intro below
    by_contra later
    have mono := blocksBefore_mono (Nat.not_lt.1 later)
    omega
  · intro earlier
    have mono := blocksBefore_mono (Nat.succ_le_of_lt earlier)
    rw [Nat.succ_eq_add_one, blocksBefore] at mono
    omega

theorem placeIn_eq (accepted : h.Accepted) (n within : Nat) :
    h.placeIn (groupRow h.minElements n) n within = .ok (
      if n < h.directGroups then
        .direct (groupRow h.minElements n)
          (saturate (blocksBefore n + within / blockSize h.minElements n))
          (within % blockSize h.minElements n)
      else
        .indirect (groupRow h.minElements n) (n - h.directGroups)
          (within / blockSize h.minElements n)
          (within % blockSize h.minElements n)) := by
  have size := accepted.blockSize_pos n
  rw [placeIn, groupRow]
  dsimp only
  rw [Bounds.div_eq_ok_iff.2 ⟨size.ne', rfl⟩]
  by_cases direct : n < h.directGroups
  · rw [if_pos direct]
    exact if_pos direct
  · rw [if_neg direct]
    exact if_neg direct

/-- The place of an index that data block number `k` has. -/
theorem locate_of_contains (accepted : h.Accepted) {i k : Nat} {d : DataBlock}
    (contains : h.Contains k d i) (fits : i < maxWord) :
    h.locate i = .ok (
      if k < h.directBlocks then
        .direct (groupRow h.minElements d.group) k (i - h.firstIndex k)
      else
        .indirect (groupRow h.minElements d.group) (d.group - h.directGroups) d.position
          (i - h.firstIndex k)) := by
  obtain ⟨relative, rfl⟩ := Nat.exists_eq_add_of_le contains.indexElements_le
  obtain ⟨n, within, small, rfl⟩ := exists_within accepted.minElements_pos relative
  have inside := (lt_length_groups_iff small).2 contains.lt_firstIndex_length
  obtain ⟨here, offset⟩ := accepted.contains_within inside small
  obtain ⟨rfl, rfl⟩ := contains.unique here
  have few := (getElem?_dataBlocksOf.1 here.block).2.1
  have numbers := blocksBefore_lt n
  have bound : 2 ^ (n / 2 + 2) ≤ 2 ^ 63 := by
    have most := accepted.length_groups_le
    exact Nat.pow_le_pow_right (by decide) (by omega)
  have blocks := Nat.pow_le_pow_right (show 0 < 2 by decide) (show n / 2 ≤ n / 2 + 2 by omega)
  dsimp only at few
  rw [accepted.locate_within small fits, if_pos inside, accepted.placeIn_eq, offset,
    Nat.add_sub_cancel_left, saturate_of_lt (by omega)]
  congr 1
  exact if_congr (accepted.lt_directBlocks_iff few).symm rfl rfl

/-- An index behind the last group has no place. -/
theorem locate_of_ge (accepted : h.Accepted) {i : Nat}
    (ge : h.firstIndex h.dataBlocks.length ≤ i) (fits : i < maxWord) :
    h.locate i = .ok .beyond := by
  have behind : h.indexElements ≤ i := (Nat.le_add_right _ _).trans ge
  obtain ⟨relative, rfl⟩ := Nat.exists_eq_add_of_le behind
  obtain ⟨n, within, small, rfl⟩ := exists_within accepted.minElements_pos relative
  have outside := (lt_length_groups_iff small).not.2 (Nat.not_lt.2 ge)
  rw [accepted.locate_within small fits, if_neg outside]

end Header.Accepted

/-! ## What the table says -/

/-- The table of groups shares the indexes out among the data blocks. -/
structure Header.Tiled (h : Header) : Prop where
  count : h.groups.length = 1 + (h.maxBits - Nat.log2 h.minElements)
  /-- A row gives the number and size of its data blocks, their numbers and their indexes. -/
  rows : ∀ k d, h.dataBlocks[k]? = some d → ∃ g, h.groups[d.group]? = some g ∧
    g.blocks = 2 ^ (d.group / 2) ∧ g.blockEntries = d.entries h.minElements ∧
    g.startBlock + d.position = k ∧
    h.indexElements + (g.startIndex + d.position * g.blockEntries) = h.firstIndex k
  /-- Every index up to the end of the last group is in one data block. -/
  one : ∀ i, h.indexElements ≤ i → i < h.firstIndex h.dataBlocks.length →
    ∃ k d, h.Contains k d i ∧ ∀ k' d', h.Contains k' d' i → k' = k ∧ d' = d

theorem Header.Accepted.tiled (accepted : h.Accepted) : h.Tiled where
  count := accepted.length_groups
  rows k d block := by
    obtain ⟨inside, few, rfl⟩ := getElem?_dataBlocksOf.1 block
    exact ⟨_, accepted.getElem?_groups inside, rfl, rfl, rfl, (h.firstIndex_add inside few.le).symm⟩
  one i ge less := by
    obtain ⟨k, d, contains⟩ := accepted.exists_contains ge less
    exact ⟨k, d, contains, fun k' d' other => other.unique contains⟩

end ChunkStore.Index.ExtensibleArray
