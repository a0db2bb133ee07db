import ChunkStore.Proofs.Index.Verified

/-!
# The bytes of a node

A node is its start, its records, its pointers and its checksum, and `nodeOf` takes records and
pointers out of the bytes at the widths that the header gives. Decoding does the same and stands
before the checksum when it compares it (`nodeParser_eq_ok_iff`): what the recurrence of the
capacities says of the width of a pointer (`pointerAt`) is what the decoder passes for one.
-/

namespace ChunkStore.Index.TreeTwo

open ChunkStore.Parser (Reads addressOf)

variable {s : Settings} {h : Header} {nodeSize depth n : Nat} {c : NodeCapacity}

/-- The record in so many bytes: an address, for a filtered chunk its size and filters, and the
coordinate. -/
def recordOf (s : Settings) (h : Header) (raw : Bytes) : Record :=
  let address := addressOf (raw.take s.offsetSize)
  let sizeLength := h.recordSize - recordBase s
  ⟨(takeChunks 8 s.chunkDims.length (raw.drop (h.recordSize - 8 * s.chunkDims.length))).map
      LittleEndian.decode,
    if s.filtered then
      Settings.stored address (LittleEndian.decode (slice raw s.offsetSize sizeLength))
        (UInt32.ofNat (LittleEndian.decode (slice raw (s.offsetSize + sizeLength) 4)))
    else s.plain address⟩

/-- The child pointer in so many bytes; those behind the count are not looked at. -/
def childOf (s : Settings) (h : Header) (raw : Bytes) : Child :=
  ⟨addressOf (raw.take s.offsetSize), LittleEndian.decode (slice raw s.offsetSize h.countSize)⟩

/-- Signature, version and record type of a node at a depth. -/
def nodeStart (h : Header) (depth : Nat) : Bytes :=
  (if depth = 0 then "BTLF" else "BTIN").toUTF8.toList ++ [0] ++ [UInt8.ofNat h.recordType]

/-- The structure that a node at a depth is. -/
def nodePart (depth : Nat) : Part :=
  if depth = 0 then .treeTwoLeafNode else .treeTwoInternalNode

/-- Pointers of a node of `records` records at a depth. -/
def childCount (records depth : Nat) : Nat := if depth = 0 then 0 else records + 1

/-- The node of `records` records in its bytes, of which each pointer has `pointer`. -/
def nodeOf (s : Settings) (h : Header) (pointer records depth : Nat) (bytes : Bytes) : Node where
  records := (takeChunks h.recordSize records
    (slice bytes 6 (records * h.recordSize))).map (recordOf s h)
  children := (takeChunks pointer (childCount records depth)
    (slice bytes (6 + records * h.recordSize) (childCount records depth * pointer))).map
      (childOf s h)

/-! ## Records and pointers -/

theorem reads_scaled {position : Nat} {raw : Bytes} {rank : Nat} (d : Descriptor)
    (whole : raw.length = 8 * rank) :
    Reads (do return ⟨← Parser.times (Parser.uint 8) rank, d⟩ : Parser Record) position raw
      ⟨(takeChunks 8 rank raw).map LittleEndian.decode, d⟩ := by
  have numbers : Reads (Parser.times (Parser.uint 8) rank) position raw
      ((takeChunks 8 rank raw).map LittleEndian.decode) :=
    .times_takeChunks (fun _ _ eight => .uint eight le_rfl) (by omega)
  exact .bind_pure (fun scaled => Record.mk scaled d) numbers

/-- Of a filtered chunk's record eight bytes at most are left for the stored size. -/
theorem reads_recordParser (accepted : h.Accepted s nodeSize) {position : Nat} {raw : Bytes}
    (whole : raw.length = h.recordSize) :
    Reads (recordParser s h) position raw (recordOf s h raw) := by
  have size := accepted.recordSize
  cases filtered : s.filtered with
  | false =>
    rw [filtered, recordBase, filtered] at size
    have size : h.recordSize = s.offsetSize + 8 * s.chunkDims.length := size
    have front : h.recordSize - 8 * s.chunkDims.length = s.offsetSize := by omega
    have read : Reads (recordParser s h) position
        (raw.take s.offsetSize ++ raw.drop s.offsetSize) (recordOf s h raw) := by
      rw [recordParser, recordOf, filtered, front]
      refine .bind (.rawAddress (List.length_take_of_le ?_)) (.bind_nil (.pure _) ?_)
      · show s.offsetSize ≤ _
        omega
      · exact reads_scaled _ (by rw [List.length_drop]; omega)
    rwa [List.take_append_drop] at read
  | true =>
    rw [if_pos filtered] at size
    have base : recordBase s = s.offsetSize + 8 * s.chunkDims.length + 4 := by
      rw [recordBase, if_pos filtered]
    -- The bytes that a record has besides the others are the stored size.
    obtain ⟨k, hk⟩ : ∃ k, h.recordSize - recordBase s = k := ⟨_, rfl⟩
    have left : Bounds.sub h.recordSize (recordBase s) = .ok k :=
      Bounds.sub_eq_ok_iff.2 (by omega)
    have front : h.recordSize - 8 * s.chunkDims.length = s.offsetSize + k + 4 := by omega
    have parts : raw.take s.offsetSize ++ (slice raw s.offsetSize k ++
        (slice raw (s.offsetSize + k) 4 ++ raw.drop (s.offsetSize + k + 4))) = raw := by
      rw [slice_append_drop, slice_append_drop, List.take_append_drop]
    have storedSize : (slice raw s.offsetSize k).length = k := length_slice (by omega)
    have mask : (slice raw (s.offsetSize + k) 4).length = 4 := length_slice (by omega)
    have read : Reads (recordParser s h) position (raw.take s.offsetSize ++
        (slice raw s.offsetSize k ++
          (slice raw (s.offsetSize + k) 4 ++ raw.drop (s.offsetSize + k + 4))))
        (recordOf s h raw) := by
      rw [recordParser, recordOf, filtered, front, hk]
      refine .bind (.rawAddress (List.length_take_of_le ?_)) (.bind_nil (.lift left) ?_)
      · show s.offsetSize ≤ _
        omega
      · refine .bind (.uint storedSize (by omega)) ?_
        refine .bind (.bind_pure UInt32.ofNat (.uint mask (by decide))) (.bind_nil (.pure _) ?_)
        exact reads_scaled _ (by rw [List.length_drop]; omega)
    rwa [parts] at read

theorem reads_childParser (accepted : h.Accepted s nodeSize) {position totalSize : Nat}
    {raw : Bytes} (whole : raw.length = s.offsetSize + h.countSize + totalSize) :
    Reads (childParser s h totalSize) position raw (childOf s h raw) := by
  have parts : raw.take s.offsetSize ++ (slice raw s.offsetSize h.countSize ++
      raw.drop (s.offsetSize + h.countSize)) = raw := by
    rw [slice_append_drop, List.take_append_drop]
  have count : (slice raw s.offsetSize h.countSize).length = h.countSize :=
    length_slice (by omega)
  have read : Reads (childParser s h totalSize) position (raw.take s.offsetSize ++
      (slice raw s.offsetSize h.countSize ++ raw.drop (s.offsetSize + h.countSize)))
      (childOf s h raw) := by
    refine .bind (.rawAddress (List.length_take_of_le ?_)) ?_
    · show s.offsetSize ≤ _
      omega
    · refine .bind (.uint count accepted.countSize_le) ?_
      exact .bind_last (.skip (by rw [List.length_drop]; omega)) (.pure _)
  rwa [parts] at read

/-- The pointers of a node have the width that its depth says, and leaves have none. -/
theorem reads_children (accepted : h.Accepted s nodeSize) (level : h.capacity[depth]? = some c)
    (n : Nat) : ∃ totalSize, totalSizeAt h depth = .ok totalSize ∧ ∀ position (raw : Bytes),
      raw.length = childCount n depth * c.pointerSize →
      Reads (Parser.times (childParser s h totalSize) (childCount n depth)) position raw
        ((takeChunks c.pointerSize (childCount n depth) raw).map (childOf s h)) := by
  cases depth with
  | zero =>
    refine ⟨0, rfl, fun position raw whole => ?_⟩
    rw [childCount, if_pos rfl, Nat.zero_mul] at whole
    rw [List.eq_nil_of_length_eq_zero whole]
    exact .pure []
  | succ depth =>
    obtain ⟨inside, rfl⟩ := (getElem?_capacities accepted.levels).1 level
    obtain ⟨totalSize, total, width⟩ := accepted.totalSizeAt_eq inside
    refine ⟨totalSize, total, fun position raw whole => ?_⟩
    refine .times_takeChunks (fun position raw whole => ?_) whole
    exact reads_childParser accepted (whole.trans width)

/-! ## The whole node -/

theorem nodeLength_eq (h : Header) (c : NodeCapacity) (n depth : Nat) :
    nodeLength h c n depth =
      6 + n * h.recordSize + childCount n depth * c.pointerSize + 4 := rfl

/-- Behind its start a node is read up to the checksum. -/
theorem nodeParser_body (accepted : h.Accepted s nodeSize) (level : h.capacity[depth]? = some c)
    {bytes : Bytes} (whole : bytes.length = nodeLength h c n depth) (address : Nat) :
    (do
      let records ← Parser.times (recordParser s h) n
      let totalSize ← totalSizeAt h depth
      let children ← Parser.times (childParser s h totalSize) (childCount n depth)
      s.check bytes (← Parser.position) (nodePart depth) address
      return ⟨records, children⟩ : Parser Node) ⟨6, bytes.drop 6⟩ =
    (s.check bytes (bytes.length - 4) (nodePart depth) address).map fun _ =>
      (nodeOf s h c.pointerSize n depth bytes,
        ⟨bytes.length - 4, bytes.drop (bytes.length - 4)⟩) := by
  rw [nodeLength_eq] at whole
  obtain ⟨totalSize, total, children⟩ := reads_children accepted level n
  have recordBytes : (slice bytes 6 (n * h.recordSize)).length = n * h.recordSize :=
    length_slice (by omega)
  have pointerBytes : (slice bytes (6 + n * h.recordSize) (childCount n depth *
      c.pointerSize)).length = childCount n depth * c.pointerSize := length_slice (by omega)
  have stop : bytes.length - 4 = 6 + n * h.recordSize + childCount n depth * c.pointerSize := by
    omega
  have parts : bytes.drop 6 = slice bytes 6 (n * h.recordSize) ++
      (slice bytes (6 + n * h.recordSize) (childCount n depth * c.pointerSize) ++
        bytes.drop (bytes.length - 4)) := by
    rw [stop, slice_append_drop, slice_append_drop]
  have records : Reads (Parser.times (recordParser s h) n) 6 (slice bytes 6 (n * h.recordSize))
      ((takeChunks h.recordSize n (slice bytes 6 (n * h.recordSize))).map (recordOf s h)) :=
    .times_takeChunks (fun _ _ whole => reads_recordParser accepted whole) recordBytes
  rw [parts, records.run_bind, Reads.run_lift_bind total, (children _ _ pointerBytes).run_bind,
    Reads.run_position_bind, recordBytes, pointerBytes, stop]
  exact Reads.run_lift_pure _ _ _

/-- A byte of another type than the tree's is refused. -/
theorem recordType_bind_eq_ok_iff {position : Nat} {b : UInt8} {rest : Bytes} {type : Nat}
    {e : Nat → Error} {f : PUnit → Parser Node} {r : Node × Cursor} (byte : type < 256) :
    (Parser.uint 1 >>= fun found => if found ≠ type then throw (e found) >>= f else f ⟨⟩)
        ⟨position, [b] ++ rest⟩ = .ok r ↔
      b = UInt8.ofNat type ∧ f ⟨⟩ ⟨position + 1, rest⟩ = .ok r := by
  have same : b = UInt8.ofNat type ↔ b.toNat = type := by
    rw [← UInt8.toNat_inj, UInt8.toNat_ofNat_of_lt' byte]
  rw [(Reads.uint_one b).run_bind, same]
  by_cases equal : b.toNat = type
  · rw [if_neg (not_not_intro equal), and_iff_right equal, List.length_singleton]
  · rw [if_pos equal]
    exact iff_of_false nofun fun both => equal both.1

theorem take_six {bytes : Bytes} (enough : 6 ≤ bytes.length) :
    ∃ front version type, front.length = 4 ∧ bytes.take 6 = front ++ [version] ++ [type] ∧
      bytes = front ++ ([version] ++ ([type] ++ bytes.drop 6)) := by
  refine ⟨bytes.take 4, bytes[4], bytes[5], List.length_take_of_le (by omega), ?_, ?_⟩
  · rw [List.take_append_getElem, List.take_append_getElem]
  · rw [← List.append_assoc, ← List.append_assoc, List.take_append_getElem,
      List.take_append_getElem, List.take_append_drop]

/-- A node that starts as nodes at its depth do and passes its checksum is decoded, and no other;
all is passed but the four bytes of the checksum. -/
theorem nodeParser_eq_ok_iff (accepted : h.Accepted s nodeSize)
    (level : h.capacity[depth]? = some c) {bytes : Bytes}
    (whole : bytes.length = nodeLength h c n depth) (address : Nat) {r : Node × Cursor} :
    nodeParser s h address n depth bytes ⟨0, bytes⟩ = .ok r ↔
      bytes.take 6 = nodeStart h depth ∧
      s.check bytes (bytes.length - 4) (nodePart depth) address = .ok () ∧
      r = (nodeOf s h c.pointerSize n depth bytes,
        ⟨bytes.length - 4, bytes.drop (bytes.length - 4)⟩) := by
  have byte : h.recordType < 256 := by
    rw [accepted.recordType, recordTypeOf]
    split
    all_goals decide
  have enough : 6 ≤ bytes.length := by
    rw [whole, nodeLength_eq]
    omega
  have body := nodeParser_body accepted level whole address
  obtain ⟨front, version, type, four, start, parts⟩ := take_six enough
  have cursor : (⟨0, bytes⟩ : Cursor) = ⟨0, front ++ ([version] ++ ([type] ++ bytes.drop 6))⟩ :=
    congrArg _ parts
  have starts : bytes.take 6 = nodeStart h depth ↔
      front = (if depth = 0 then "BTLF" else "BTIN").toUTF8.toList ∧ version = 0 ∧
        type = UInt8.ofNat h.recordType := by
    rw [start, nodeStart]
    constructor
    · intro same
      obtain ⟨same, types⟩ := List.append_inj' same rfl
      obtain ⟨fronts, versions⟩ := List.append_inj' same rfl
      exact ⟨fronts, List.singleton_inj.1 versions, List.singleton_inj.1 types⟩
    · rintro ⟨rfl, rfl, rfl⟩
      rfl
  rw [cursor, nodeParser, Parser.signature_bind_eq_ok_iff four, Parser.version_bind_eq_ok_iff]
  dsimp only
  rw [recordType_bind_eq_ok_iff byte, starts, and_assoc, and_assoc]
  refine and_congr_right fun _ => and_congr_right fun _ => and_congr_right fun _ => ?_
  refine (iff_of_eq (congrArg (· = Except.ok r) body)).trans (map_eq_ok_iff.trans ?_)
  constructor
  · rintro ⟨⟨⟩, passed, rfl⟩
    exact ⟨passed, rfl⟩
  · rintro ⟨passed, rfl⟩
    exact ⟨(), passed, rfl⟩

/-- The bytes that are decoded as a node are those that its capacity counts. -/
theorem nodeLength_eq_nodeSpan (accepted : h.Accepted s nodeSize)
    (level : h.capacity[depth]? = some c) (n : Nat) :
    nodeLength h c n depth = nodeSpan h.recordSize c.pointerSize n := by
  obtain ⟨-, rfl⟩ := (getElem?_capacities accepted.levels).1 level
  rw [nodeLength_eq, nodeSpan, nodeOverhead]
  cases depth with
  | zero =>
    have leaf : (capacityAt nodeSize h.recordSize s.offsetSize 0).pointerSize = 0 := rfl
    rw [leaf, Nat.mul_zero, Nat.mul_zero]
    omega
  | succ depth =>
    rw [childCount, if_neg depth.succ_ne_zero]
    omega

/-- A node of no more records than its depth allows is read as far as it goes. -/
theorem nodeAt_eq {image : Image} (accepted : h.Accepted s nodeSize)
    (level : h.capacity[depth]? = some c) (fits : n ≤ c.maxRecords) (address : Nat) :
    nodeAt image s h depth ⟨address, n⟩ =
      (image.read address (nodeLength h c n depth)).bind fun bytes =>
        (nodeParser s h address n depth bytes).parse bytes := by
  have limits := accepted.limited.capacity c (List.mem_of_getElem? level)
  have length : Bounds.within (nodeLength h c n depth) = .ok (nodeLength h c n depth) :=
    Bounds.within_eq_ok_iff.2 ⟨nodeLength_le accepted.limited limits fits depth, rfl⟩
  rw [nodeAt, readNode, level]
  dsimp only
  rw [if_neg (Nat.not_lt.2 fits), length]
  show ((Session.fetch address (nodeLength h c n depth) >>= _ : Session TreeTwo Node).runOn image
    _).1 = _
  rw [Session.runOn_bind, Session.runOn_fetch]
  cases image.read address (nodeLength h c n depth) with
  | error e => rfl
  | ok bytes => rfl

/-- A node of `records` records at a depth is decoded from as many bytes as its capacity counts:
records and pointers of the header's widths, and nothing is left but the checksum. -/
structure NodeDecoding (image : Image) (s : Settings) (h : Header) (depth : Nat) (c : NodeCapacity)
    (records : Nat) : Prop where
  fetched : ∀ address, nodeAt image s h depth ⟨address, records⟩ =
    (image.read address (nodeSpan h.recordSize c.pointerSize records)).bind fun bytes =>
      (nodeParser s h address records depth bytes).parse bytes
  decoded : ∀ address (bytes : Bytes),
    bytes.length = nodeSpan h.recordSize c.pointerSize records → ∀ r,
      nodeParser s h address records depth bytes ⟨0, bytes⟩ = .ok r ↔
        bytes.take 6 = nodeStart h depth ∧
        s.check bytes (bytes.length - 4) (nodePart depth) address = .ok () ∧
        r = (nodeOf s h c.pointerSize records depth bytes,
          ⟨bytes.length - 4, bytes.drop (bytes.length - 4)⟩)

theorem nodeDecoding {image : Image} (accepted : h.Accepted s nodeSize)
    (level : h.capacity[depth]? = some c) (fits : n ≤ c.maxRecords) :
    NodeDecoding image s h depth c n := by
  have length := nodeLength_eq_nodeSpan accepted level n
  constructor
  · intro address
    rw [← length]
    exact nodeAt_eq accepted level fits address
  · intro address bytes whole r
    exact nodeParser_eq_ok_iff accepted level (whole.trans length.symm) address

/-- The recurrence of the capacities is exact: it fails only where a level has no room for a record;
what it gives is the most that nodes and subtrees hold, no more higher up; and the nodes of a tree
whose header was accepted are decoded with pointers of the width that it counts. -/
theorem capacities_exact {nodeSize : Nat} (small : nodeSize < 2 ^ 32)
    (recordSize depth offsetSize : Nat) :
    (∀ e, capacities nodeSize recordSize depth offsetSize = .error e ↔
      e = .corrupt .treeTwoHeader (.nodeTooSmall nodeSize recordSize) ∧
        (recordSize = 0 ∨ ∃ d ≤ depth, nodeSize <
          nodeSpan recordSize (pointerAt nodeSize recordSize offsetSize d) 1)) ∧
    (∀ levels, capacities nodeSize recordSize depth offsetSize = .ok levels →
      levels.length = depth + 1 ∧
      (∀ d c, levels[d]? = some c → NodeCapacity.Exact nodeSize recordSize offsetSize d c) ∧
      levels.Pairwise fun below above => above.maxRecords ≤ below.maxRecords) ∧
    ∀ (image : Image) (s : Settings) (address : Nat) (h : Header),
      headerAt image s address = .ok h →
      ∃ size < 2 ^ 32, capacities size h.recordSize h.depth s.offsetSize = .ok h.capacity ∧
        h.countSize = limitSize (mostAt size h.recordSize s.offsetSize 0) ∧
        ∀ d c, h.capacity[d]? = some c → ∀ n ≤ c.maxRecords, NodeDecoding image s h d c n := by
  have word : nodeSize ≤ maxWord := small.le.trans (by decide)
  refine ⟨fun e => ?_, fun levels made => ⟨?_, ?_, ?_⟩, fun image s address h found => ?_⟩
  · rw [capacities_eq_error_iff, mostAt_eq_zero_iff]
  · rw [(capacities_eq_ok_iff.1 made).2, List.length_map, List.length_range]
  · exact fun d c level => exact_of_capacities word made level
  · exact pairwise_of_capacities word made
  · obtain ⟨size, accepted⟩ := accepted_of_headerAt found
    exact ⟨size, accepted.small, accepted.levels, accepted.count, fun d c level n fits =>
      nodeDecoding accepted level fits⟩

/-- A root over two leaves: one record, two pointers of three bytes, and the checksum is left. -/
theorem capacities_exact_of_root_over_leaves : ∃ image h bytes,
    headerAt image ⟨⟨.two, .two⟩, ⟨[9], [9], 4⟩, [1], 4, false, true⟩ 1 = .ok h ∧
    capacities 40 10 1 2 = .ok [⟨3, 3, 0, 0⟩, ⟨2, 11, 1, 3⟩] ∧
    NodeCapacity.Exact 40 10 2 1 ⟨2, 11, 1, 3⟩ ∧ bytes.length = 26 ∧
    nodeParser ⟨⟨.two, .two⟩, ⟨[9], [9], 4⟩, [1], 4, false, true⟩ h 27 1 1 bytes ⟨0, bytes⟩ =
      .ok (⟨[⟨[1], ⟨101, 4, 0⟩⟩], [⟨53, 1⟩, ⟨73, 2⟩]⟩, ⟨22, bytes.drop 22⟩) := by
  obtain ⟨-, levels, headers⟩ := capacities_exact (by decide : 40 < 2 ^ 32) 10 1 2
  have made : capacities 40 10 1 2 = .ok [⟨3, 3, 0, 0⟩, ⟨2, 11, 1, 3⟩] := by decide
  have found : headerAt
      ([7] ++
        withChecksum [66, 84, 72, 68, 0, 10, 40, 0, 0, 0, 10, 0, 1, 0, 0, 0, 27, 0, 1, 0, 4, 0])
      ⟨⟨.two, .two⟩, ⟨[9], [9], 4⟩, [1], 4, false, true⟩ 1 =
      .ok ⟨10, 10, 1, 27, 1, 1, [⟨3, 3, 0, 0⟩, ⟨2, 11, 1, 3⟩]⟩ := by decide +kernel
  obtain ⟨-, -, -, -, nodes⟩ := headers _ _ _ _ found
  refine ⟨_, _, withChecksum [66, 84, 73, 78, 0, 10, 101, 0, 1, 0, 0, 0, 0, 0, 0, 0, 53, 0, 1, 73,
    0, 2], found, made, (levels _ made).2.1 1 _ rfl, rfl, ?_⟩
  refine ((nodes 1 ⟨2, 11, 1, 3⟩ rfl 1 (by decide)).decoded 27 _ rfl _).2 ⟨?_, ?_, ?_⟩
  · decide +kernel
  · decide +kernel
  · exact Prod.ext (by decide +kernel) rfl

/-- The total of a leaf has no field: a pointer to a leaf says it by the count alone. -/
theorem total_of_leaves_without_bytes : ∃ levels c, capacities 40 10 1 2 = .ok levels ∧
    levels[0]? = some c ∧ c.totalRecords = 3 ∧ c.totalSize = 0 ∧
    ¬ c.totalRecords < 256 ^ c.totalSize :=
  ⟨[⟨3, 3, 0, 0⟩, ⟨2, 11, 1, 3⟩], _, by decide, rfl, rfl, rfl, by decide⟩

end ChunkStore.Index.TreeTwo
