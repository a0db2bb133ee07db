import ChunkStore.Proofs.ByteWidths
import ChunkStore.Proofs.Results
import Mathlib.Algebra.Group.Action.Defs
import Mathlib.Algebra.Order.BigOperators.Group.Finset
import Mathlib.Order.Monotone.Basic
import Mathlib.Tactic.Ring

/-!
# What the nodes of a version 2 B-tree hold

`capacityAt` is the recurrence of the capacities without its ends: `capacities` gives it for every
depth up to the last one, or an error when at one of them a node has no room for a record
(`capacities_eq_ok_iff`, `capacities_eq_error_iff`). The number of records is the largest for which
the bytes of a node suffice (`isGreatest_mostAt`), it does not grow with the depth (`mostAt_anti`),
and the number of all records below a node is the largest that a subtree of such nodes can have
(`isGreatest_fullRecords`, `totalRecords_capacityAt`), as long as 64 bits hold it. All this, and
that the fields of a pointer hold the numbers, is `NodeCapacity.Exact`.
-/

namespace ChunkStore.Index.TreeTwo

/-! ## One node -/

/-- Bytes of a node of `records` records and of pointers of `pointer` bytes, one more of them. -/
def nodeSpan (recordSize pointer records : Nat) : Nat :=
  nodeOverhead + records * recordSize + (records + 1) * pointer

variable {nodeSize recordSize offsetSize pointer pointer' n depth : Nat}

theorem nodeSpan_eq (recordSize pointer n : Nat) : nodeSpan recordSize pointer n =
    nodeOverhead + pointer + n * (recordSize + pointer) := by
  unfold nodeSpan
  ring

/-- Records fit as long as the bytes of the node suffice; whether a node without any fits is not
told. -/
theorem le_recordsThatFit_iff (wide : 0 < recordSize) (some : 0 < n) :
    n ≤ recordsThatFit nodeSize recordSize pointer ↔
      nodeSpan recordSize pointer n ≤ nodeSize := by
  have room : 0 < n * (recordSize + pointer) := Nat.mul_pos some (by omega)
  rw [recordsThatFit, Nat.le_div_iff_mul_le (by omega), nodeSpan_eq]
  omega

theorem isGreatest_recordsThatFit (wide : 0 < recordSize)
    (holds : recordsThatFit nodeSize recordSize pointer ≠ 0) :
    IsGreatest {n | nodeSpan recordSize pointer n ≤ nodeSize}
      (recordsThatFit nodeSize recordSize pointer) := by
  constructor
  · exact (le_recordsThatFit_iff wide (Nat.pos_of_ne_zero holds)).1 le_rfl
  · intro n fits
    rcases Nat.eq_zero_or_pos n with rfl | some
    · exact Nat.zero_le _
    · exact (le_recordsThatFit_iff wide some).2 fits

theorem recordsThatFit_eq_zero_iff (wide : 0 < recordSize) :
    recordsThatFit nodeSize recordSize pointer = 0 ↔ nodeSize < nodeSpan recordSize pointer 1 := by
  rw [← Nat.not_le, ← le_recordsThatFit_iff wide Nat.one_pos]
  omega

theorem recordsThatFit_anti (wide : 0 < recordSize) (le : pointer ≤ pointer') :
    recordsThatFit nodeSize recordSize pointer' ≤ recordsThatFit nodeSize recordSize pointer := by
  unfold recordsThatFit
  calc (nodeSize - (nodeOverhead + pointer')) / (recordSize + pointer')
      ≤ (nodeSize - (nodeOverhead + pointer)) / (recordSize + pointer') :=
        Nat.div_le_div_right (by omega)
    _ ≤ (nodeSize - (nodeOverhead + pointer)) / (recordSize + pointer) :=
        Nat.div_le_div_left (by omega) (by omega)

theorem recordsThatFit_le (nodeSize recordSize pointer : Nat) :
    recordsThatFit nodeSize recordSize pointer ≤ nodeSize :=
  (Nat.div_le_self _ _).trans (Nat.sub_le _ _)

theorem limitSize_le {limit : Nat} (fits : limit ≤ maxWord) : limitSize limit ≤ 8 := by
  rw [limitSize_eq_minByteCount]
  exact (minByteCount_le fits).2

theorem limitSize_mono {m : Nat} (le : n ≤ m) : limitSize n ≤ limitSize m := by
  rw [limitSize_eq_minByteCount, limitSize_eq_minByteCount]
  exact minByteCount_mono le

theorem lt_pow_limitSize (n : Nat) : n < 256 ^ limitSize n := by
  rw [limitSize_eq_minByteCount]
  exact lt_pow_minByteCount n

/-! ## The recurrence -/

/-- What nodes at a depth hold by the recurrence over the depths below, even when that is
nothing. -/
def capacityAt (nodeSize recordSize offsetSize : Nat) : (depth : Nat) → NodeCapacity
  | 0 => leafCapacity nodeSize recordSize
  | depth + 1 => capacityAbove nodeSize recordSize offsetSize
      (limitSize (leafCapacity nodeSize recordSize).maxRecords) (depth + 1)
      (capacityAt nodeSize recordSize offsetSize depth)

/-- The largest number of records of a node at a depth. -/
def mostAt (nodeSize recordSize offsetSize depth : Nat) : Nat :=
  (capacityAt nodeSize recordSize offsetSize depth).maxRecords

/-- Bytes of a child pointer in nodes at a depth. -/
def pointerAt (nodeSize recordSize offsetSize depth : Nat) : Nat :=
  (capacityAt nodeSize recordSize offsetSize depth).pointerSize

/-- One level of the recurrence, or the error that it has no room for a record. -/
def levelAt (nodeSize recordSize offsetSize depth : Nat) : Except Error NodeCapacity :=
  if mostAt nodeSize recordSize offsetSize depth = 0 then
    .error (.corrupt .treeTwoHeader (.nodeTooSmall nodeSize recordSize))
  else .ok (capacityAt nodeSize recordSize offsetSize depth)

theorem mostAt_eq (nodeSize recordSize offsetSize depth : Nat) :
    mostAt nodeSize recordSize offsetSize depth =
      recordsThatFit nodeSize recordSize (pointerAt nodeSize recordSize offsetSize depth) := by
  cases depth <;> rfl

theorem levelAt_eq_ok_iff {c : NodeCapacity} :
    levelAt nodeSize recordSize offsetSize depth = .ok c ↔
      mostAt nodeSize recordSize offsetSize depth ≠ 0 ∧
        capacityAt nodeSize recordSize offsetSize depth = c := by
  unfold levelAt
  split
  next none => exact iff_of_false nofun fun both => both.1 none
  next some => exact ⟨fun done => ⟨some, Except.ok.inj done⟩, fun both => congrArg _ both.2⟩

theorem capacitiesAbove_eq (nodeSize recordSize offsetSize count depth : Nat) :
    capacitiesAbove nodeSize recordSize offsetSize
        (limitSize (leafCapacity nodeSize recordSize).maxRecords) count (depth + 1)
        (capacityAt nodeSize recordSize offsetSize depth) =
      (List.range' (depth + 1) count).mapM (levelAt nodeSize recordSize offsetSize) := by
  induction count generalizing depth with
  | zero => rfl
  | succ count ih =>
    have above : capacitiesAbove nodeSize recordSize offsetSize
        (limitSize (leafCapacity nodeSize recordSize).maxRecords) (count + 1) (depth + 1)
        (capacityAt nodeSize recordSize offsetSize depth) =
      if mostAt nodeSize recordSize offsetSize (depth + 1) = 0 then
        .error (.corrupt .treeTwoHeader (.nodeTooSmall nodeSize recordSize))
      else (capacitiesAbove nodeSize recordSize offsetSize
        (limitSize (leafCapacity nodeSize recordSize).maxRecords) count (depth + 1 + 1)
        (capacityAt nodeSize recordSize offsetSize (depth + 1))).map
          (capacityAt nodeSize recordSize offsetSize (depth + 1) :: ·) := rfl
    rw [above, ih, List.range'_succ, List.mapM_cons, levelAt]
    split
    · rfl
    · rfl

/-- Level by level, up to the first that has no room for a record; none has for records without
bytes. -/
theorem capacities_eq (nodeSize recordSize depth offsetSize : Nat) :
    capacities nodeSize recordSize depth offsetSize =
      (List.range (depth + 1)).mapM (levelAt nodeSize recordSize offsetSize) := by
  have leafless : recordSize = 0 ∨ (leafCapacity nodeSize recordSize).maxRecords = 0 ↔
      mostAt nodeSize recordSize offsetSize 0 = 0 := by
    refine ⟨fun either => either.elim (fun zero => ?_) id, .inr⟩
    rw [zero]
    exact Nat.div_zero _
  unfold capacities
  rw [List.range_eq_range', List.range'_succ, List.mapM_cons, levelAt]
  dsimp only
  split
  next none =>
    rw [if_pos (leafless.1 none)]
    rfl
  next some =>
    rw [if_neg (mt leafless.2 some), ← capacitiesAbove_eq]
    rfl

/-- There are capacities when every level has room for a record. -/
theorem capacities_eq_ok_iff {levels : List NodeCapacity} :
    capacities nodeSize recordSize depth offsetSize = .ok levels ↔
      (∀ d ≤ depth, mostAt nodeSize recordSize offsetSize d ≠ 0) ∧
        levels = (List.range (depth + 1)).map (capacityAt nodeSize recordSize offsetSize) := by
  have inside (d : Nat) : d ∈ List.range (depth + 1) ↔ d ≤ depth := by
    rw [List.mem_range, Nat.lt_succ_iff]
  simp only [capacities_eq, mapM_eq_ok_iff, levelAt_eq_ok_iff, List.forall₂_and_left, inside]
  rw [← List.forall₂_map_left_iff, List.forall₂_eq_eq_eq, eq_comm]

/-- Otherwise one of them is too small. -/
theorem capacities_eq_error_iff {e : Error} :
    capacities nodeSize recordSize depth offsetSize = .error e ↔
      e = .corrupt .treeTwoHeader (.nodeTooSmall nodeSize recordSize) ∧
        ∃ d ≤ depth, mostAt nodeSize recordSize offsetSize d = 0 := by
  have message {e : Error} (failed : capacities nodeSize recordSize depth offsetSize = .error e) :
      e = .corrupt .treeTwoHeader (.nodeTooSmall nodeSize recordSize) := by
    rw [capacities_eq] at failed
    obtain ⟨d, -, here⟩ := exists_of_mapM_eq_error failed
    unfold levelAt at here
    split at here
    · exact (Except.error.inj here).symm
    · cases here
  constructor
  · intro failed
    refine ⟨message failed, ?_⟩
    by_contra all
    push Not at all
    cases failed.symm.trans (capacities_eq_ok_iff.2 ⟨all, rfl⟩)
  · rintro ⟨rfl, d, le, none⟩
    cases result : capacities nodeSize recordSize depth offsetSize with
    | error e => rw [message result]
    | ok levels => exact absurd none ((capacities_eq_ok_iff.1 result).1 d le)

theorem getElem?_capacities {levels : List NodeCapacity}
    (made : capacities nodeSize recordSize depth offsetSize = .ok levels) {d : Nat}
    {c : NodeCapacity} :
    levels[d]? = some c ↔ d ≤ depth ∧ capacityAt nodeSize recordSize offsetSize d = c := by
  rw [(capacities_eq_ok_iff.1 made).2, List.getElem?_map, Option.map_eq_some_iff]
  constructor
  · rintro ⟨d', here, rfl⟩
    obtain ⟨inside, same⟩ := List.getElem?_eq_some_iff.1 here
    rw [List.getElem_range] at same
    rw [List.length_range] at inside
    exact ⟨by omega, by rw [same]⟩
  · rintro ⟨le, rfl⟩
    exact ⟨d, List.getElem?_range (by omega), rfl⟩

/-- Records without bytes fit nowhere, and others where a node has the bytes of one. -/
theorem mostAt_eq_zero_iff :
    (∃ d ≤ depth, mostAt nodeSize recordSize offsetSize d = 0) ↔ recordSize = 0 ∨
      ∃ d ≤ depth,
        nodeSize < nodeSpan recordSize (pointerAt nodeSize recordSize offsetSize d) 1 := by
  rcases Nat.eq_zero_or_pos recordSize with rfl | wide
  · exact iff_of_true ⟨0, Nat.zero_le depth, Nat.div_zero _⟩ (.inl rfl)
  · rw [or_iff_right wide.ne']
    simp only [mostAt_eq, recordsThatFit_eq_zero_iff wide]

theorem pos_of_mostAt (holds : mostAt nodeSize recordSize offsetSize 0 ≠ 0) : 0 < recordSize := by
  rcases Nat.eq_zero_or_pos recordSize with rfl | wide
  · exact absurd (Nat.div_zero _) holds
  · exact wide

theorem isGreatest_mostAt (wide : 0 < recordSize)
    (holds : mostAt nodeSize recordSize offsetSize depth ≠ 0) :
    IsGreatest {n | nodeSpan recordSize (pointerAt nodeSize recordSize offsetSize depth) n ≤
      nodeSize} (mostAt nodeSize recordSize offsetSize depth) := by
  rw [mostAt_eq] at holds ⊢
  exact isGreatest_recordsThatFit wide holds

/-! ## Subtrees -/

/-- A subtree with nodes at a depth and below, of each node only how many records it has. -/
inductive Outline : (depth : Nat) → Type
  | leaf (records : Nat) : Outline 0
  | inner {depth : Nat} (records : Nat) (children : Fin (records + 1) → Outline depth) :
      Outline (depth + 1)

namespace Outline

/-- Records of all the nodes. -/
def total : {depth : Nat} → Outline depth → Nat
  | _, leaf records => records
  | _, inner records children => records + ∑ i, (children i).total

/-- Every node lies within the size of a node, with pointers of the width that its depth has. -/
def Fits (nodeSize recordSize : Nat) (pointers : Nat → Nat) : {depth : Nat} → Outline depth → Prop
  | _, leaf records => nodeSpan recordSize (pointers 0) records ≤ nodeSize
  | depth + 1, inner records children =>
    nodeSpan recordSize (pointers (depth + 1)) records ≤ nodeSize ∧
      ∀ i, (children i).Fits nodeSize recordSize pointers

/-- The subtree of which each node has as many records as its depth allows. -/
def full (most : Nat → Nat) : (depth : Nat) → Outline depth
  | 0 => leaf (most 0)
  | depth + 1 => inner (most (depth + 1)) fun _ => full most depth

end Outline

/-- Records of a subtree whose nodes have as many as their depths allow. -/
def fullRecords (most : Nat → Nat) : (depth : Nat) → Nat
  | 0 => most 0
  | depth + 1 => (most (depth + 1) + 1) * fullRecords most depth + most (depth + 1)

variable {pointers most : Nat → Nat}

theorem Outline.total_full (most : Nat → Nat) (depth : Nat) :
    (full most depth).total = fullRecords most depth := by
  induction depth with
  | zero => rfl
  | succ depth ih =>
    rw [full, total, fullRecords, ih, Finset.sum_const, Finset.card_univ, Fintype.card_fin,
      smul_eq_mul, Nat.add_comm]

theorem Outline.fits_full
    (fits : ∀ d ≤ depth, nodeSpan recordSize (pointers d) (most d) ≤ nodeSize) :
    (full most depth).Fits nodeSize recordSize pointers := by
  induction depth with
  | zero => exact fits 0 le_rfl
  | succ depth ih =>
    exact ⟨fits _ le_rfl, fun _ => ih fun d le => fits d (Nat.le_succ_of_le le)⟩

theorem Outline.Fits.total_le {t : Outline depth} (fits : t.Fits nodeSize recordSize pointers)
    (least : ∀ d ≤ depth, ∀ n, nodeSpan recordSize (pointers d) n ≤ nodeSize → n ≤ most d) :
    t.total ≤ fullRecords most depth := by
  induction t with
  | leaf records => exact least 0 le_rfl records fits
  | @inner depth records children ih =>
    have own : records ≤ most (depth + 1) := least _ le_rfl records fits.1
    have below : ∑ i, (children i).total ≤ (records + 1) * fullRecords most depth := by
      have each := Finset.sum_le_card_nsmul Finset.univ (fun i => (children i).total) _
        fun i _ => ih i (fits.2 i) fun d le => least d (Nat.le_succ_of_le le)
      rwa [Finset.card_univ, Fintype.card_fin, smul_eq_mul] at each
    calc records + ∑ i, (children i).total
        ≤ most (depth + 1) + (most (depth + 1) + 1) * fullRecords most depth :=
          Nat.add_le_add own (below.trans (Nat.mul_le_mul_right _ (Nat.succ_le_succ own)))
      _ = fullRecords most (depth + 1) := by rw [fullRecords, Nat.add_comm]

/-- A subtree of full nodes has as many records as any. -/
theorem isGreatest_fullRecords
    (greatest : ∀ d ≤ depth, IsGreatest {n | nodeSpan recordSize (pointers d) n ≤ nodeSize}
      (most d)) :
    IsGreatest {n | ∃ t : Outline depth, t.Fits nodeSize recordSize pointers ∧ t.total = n}
      (fullRecords most depth) := by
  constructor
  · exact ⟨.full most depth, Outline.fits_full fun d le => (greatest d le).1,
      Outline.total_full most depth⟩
  · rintro n ⟨t, fits, rfl⟩
    exact fits.total_le fun d le n fits => (greatest d le).2 fits

theorem fullRecords_le_succ (most : Nat → Nat) (depth : Nat) :
    fullRecords most depth ≤ fullRecords most (depth + 1) := by
  have one : fullRecords most depth ≤ (most (depth + 1) + 1) * fullRecords most depth :=
    Nat.le_mul_of_pos_left _ (Nat.succ_pos _)
  rw [fullRecords]
  omega

/-! ## From level to level -/

theorem saturate_mono {m : Nat} (le : n ≤ m) : saturate n ≤ saturate m :=
  min_le_min_right maxWord le

/-- A sum of a product whose parts are cut off at 64 bits is as large as when only the sum is. -/
theorem saturate_mul_add (n m k : Nat) :
    saturate (saturate ((n + 1) * saturate m) + k) = saturate ((n + 1) * m + k) := by
  unfold saturate
  rcases le_total m maxWord with small | large
  · rw [min_eq_left small]
    omega
  · have product : maxWord ≤ (n + 1) * m := large.trans (Nat.le_mul_of_pos_left m n.succ_pos)
    have word : maxWord ≤ (n + 1) * maxWord := Nat.le_mul_of_pos_left maxWord n.succ_pos
    rw [min_eq_right large]
    omega

theorem totalRecords_capacityAt (recordSize offsetSize depth : Nat) (word : nodeSize ≤ maxWord) :
    (capacityAt nodeSize recordSize offsetSize depth).totalRecords =
      saturate (fullRecords (mostAt nodeSize recordSize offsetSize) depth) := by
  induction depth with
  | zero => exact (saturate_of_le ((recordsThatFit_le ..).trans word)).symm
  | succ depth ih =>
    rw [capacityAt, capacityAbove]
    dsimp only
    rw [ih, saturate_mul_add]
    rfl

/-- Pointers are no narrower higher up: below them are not fewer records. -/
theorem pointerAt_mono (recordSize offsetSize : Nat) (word : nodeSize ≤ maxWord) :
    Monotone (pointerAt nodeSize recordSize offsetSize) := by
  refine monotone_nat_of_le_succ fun depth => ?_
  match depth with
  | 0 => exact Nat.zero_le _
  | 1 => exact Nat.le_add_right _ _
  | depth + 2 =>
    have totals : (capacityAt nodeSize recordSize offsetSize (depth + 1)).totalRecords ≤
        (capacityAt nodeSize recordSize offsetSize (depth + 2)).totalRecords := by
      rw [totalRecords_capacityAt _ _ _ word, totalRecords_capacityAt _ _ _ word]
      exact saturate_mono (fullRecords_le_succ _ _)
    exact Nat.add_le_add_left (limitSize_mono totals) _

theorem mostAt_anti (offsetSize : Nat) (word : nodeSize ≤ maxWord) (wide : 0 < recordSize) :
    Antitone (mostAt nodeSize recordSize offsetSize) := by
  intro d d' le
  rw [mostAt_eq, mostAt_eq]
  exact recordsThatFit_anti wide (pointerAt_mono recordSize offsetSize word le)

/-- The numbers of a level are those of its nodes and subtrees, and fields hold them. -/
structure NodeCapacity.Exact (nodeSize recordSize offsetSize depth : Nat) (c : NodeCapacity) :
    Prop where
  pointer : c.pointerSize = pointerAt nodeSize recordSize offsetSize depth
  records : IsGreatest {n | nodeSpan recordSize c.pointerSize n ≤ nodeSize} c.maxRecords
  /-- The count in a pointer has the width that counts of leaves need. -/
  count : c.maxRecords < 256 ^ limitSize (mostAt nodeSize recordSize offsetSize 0)
  total : ∃ most, IsGreatest {n | ∃ t : Outline depth,
    t.Fits nodeSize recordSize (pointerAt nodeSize recordSize offsetSize) ∧ t.total = n} most ∧
      c.totalRecords = saturate most
  /-- Pointers to leaves have no total besides the count. -/
  totalSize : 0 < depth → c.totalRecords < 256 ^ c.totalSize

theorem exact_of_capacities (word : nodeSize ≤ maxWord) {levels : List NodeCapacity}
    (made : capacities nodeSize recordSize depth offsetSize = .ok levels) {d : Nat}
    {c : NodeCapacity} (level : levels[d]? = some c) :
    c.Exact nodeSize recordSize offsetSize d := by
  have some := (capacities_eq_ok_iff.1 made).1
  have wide := pos_of_mostAt (some 0 (Nat.zero_le depth))
  obtain ⟨le, rfl⟩ := (getElem?_capacities made).1 level
  have greatest (d' : Nat) (below : d' ≤ d) := isGreatest_mostAt wide (some d' (below.trans le))
  refine ⟨rfl, greatest d le_rfl, ?_, ?_, fun inner => ?_⟩
  · exact (mostAt_anti offsetSize word wide (Nat.zero_le d)).trans_lt (lt_pow_limitSize _)
  · exact ⟨_, isGreatest_fullRecords greatest, totalRecords_capacityAt _ _ d word⟩
  · obtain ⟨below, rfl⟩ := Nat.exists_eq_succ_of_ne_zero inner.ne'
    exact lt_pow_limitSize _

/-- Three levels; only the pointers of the highest give a total, in two bytes. -/
example : capacities 2048 24 2 8 =
    .ok [⟨84, 84, 0, 0⟩, ⟨61, 5269, 2, 9⟩, ⟨57, 305659, 3, 11⟩] := by decide

theorem pairwise_of_capacities (word : nodeSize ≤ maxWord) {levels : List NodeCapacity}
    (made : capacities nodeSize recordSize depth offsetSize = .ok levels) :
    levels.Pairwise fun below above => above.maxRecords ≤ below.maxRecords := by
  obtain ⟨some, rfl⟩ := capacities_eq_ok_iff.1 made
  have wide := pos_of_mostAt (some 0 (Nat.zero_le depth))
  exact List.pairwise_map.2 ((List.pairwise_lt_range).imp fun below =>
    mostAt_anti offsetSize word wide (Nat.le_of_lt below))

end ChunkStore.Index.TreeTwo
