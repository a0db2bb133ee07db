import ChunkStore.Proofs.Bounds
import ChunkStore.Proofs.Index.Unique
import ChunkStore.Proofs.TreeTwo.Capacity

/-!
# Decoders stay in range

Every structure of an index is decoded from bytes that may be anything. Its decoder stays in range:
what the bytes say is either refused or small enough for the sums, differences and products that
are made of it. Where a decoder goes by what another one has given, a header above all, the limits
that the other one keeps are what it needs (`FixedArray.Header.Limited`,
`ExtensibleArray.Header.Limited`, `TreeTwo.Header.Limited`).
-/

namespace ChunkStore.Index

open Session
open ChunkStore.Parser (Ensures)

variable {total : Nat}

/-! ## What arrays share -/

theorem Settings.inRange_client (s : Settings) (part : Part) :
    Parser.InRange total (s.client part) :=
  .bind (.uint 1) fun _ => .ite (fun _ => .throw (by nofun)) fun _ => .pure _

theorem Settings.inRange_owner (s : Settings) (header : Nat) (part : Part) :
    Parser.InRange total (s.owner header part) :=
  .bind (.address _) fun _ => .ite (fun _ => .throw (by nofun)) fun _ => .pure _

theorem inRange_arrayElement (s : Settings) (width : Nat) :
    Parser.InRange total (arrayElement s width) := by
  refine .bind (.address _) fun address => .ite (fun _ => .pure _) fun _ => ?_
  exact .guard (by nofun) fun _ => .bind (.uint _) fun _ => .bind .word32 fun _ => .pure _

theorem inRange_arrayElements (s : Settings) {width : Nat} (some : width ≠ 0) (raw : Bytes) :
    InRange (arrayElements s width raw) := by
  rw [arrayElements, if_neg some]
  exact .mapM fun bytes => (inRange_arrayElement s width).parse

theorem inRange_arrayElementSize (s : Settings) (width : Nat) :
    InRange (arrayElementSize s width) := by
  unfold arrayElementSize
  dsimp only
  split
  all_goals
    split
    · exact .ok _
    · exact nofun

/-- Entries have a byte or more, and at most 20. -/
theorem limits_of_arrayElementSize {s : Settings} {width n : Nat}
    (accepted : arrayElementSize s width = .ok n) : n ≠ 0 ∧ n ≤ 20 := by
  have narrow : s.offsetSize ≤ 8 := s.widths.offset.bytes_le
  have some : 0 < s.offsetSize := s.widths.offset.bytes_pos
  unfold arrayElementSize at accepted
  dsimp only at accepted
  split at accepted
  all_goals
    split at accepted
    · cases accepted
      omega
    · cases accepted

theorem inRange_byteSpan (count width : Nat) (part : Part) :
    InRange (byteSpan count width part) := by
  unfold byteSpan
  split
  · exact .ok _
  · exact nofun

/-- What follows the end of a page stays in range, since a page that is cut off is not read. -/
theorem inRange_pageEntries {σ : Type} {image : Image} {inv : σ → Prop} (s : Settings) (part : Part)
    (address count : Nat) {width : Nat} (bound : image.length + 4 ≤ maxWord) (some : width ≠ 0) :
    Session.InRange image inv (pageEntries s part address count width) := by
  refine .bind_ofExcept (inRange_byteSpan _ _ _) fun body _ => ?_
  refine .bind_fetch fun bytes length inside => ?_
  unfold saturate at length inside
  refine .ofExcept ((s.inRange_check part address (by omega)).bind fun _ _ => ?_)
  exact (InRange.run (by omega)).bind fun raw _ => inRange_arrayElements s some raw

/-! ## Fixed arrays -/

namespace FixedArray

/-- What is true of every header that was read. -/
structure Header.Limited (h : Header) : Prop where
  entrySize : h.entrySize ≠ 0
  entries : h.entries ≤ maxWord

theorem inRange_headerParser (s : Settings) (address : Nat) {bytes : Bytes}
    (fits : bytes.length + 4 ≤ maxWord) :
    Parser.InRange bytes.length (headerParser s address bytes) := by
  refine .bind (.signature ..) fun _ => .bind (.version ..) fun _ => ?_
  refine .bind (s.inRange_client _) fun _ => .bind (.uint 1) fun width => ?_
  refine .bind (.lift (inRange_arrayElementSize s width)) fun entrySize => .bind .byte fun _ => ?_
  refine .bind (.length _) fun entries => .bind (.address _) fun block => ?_
  refine .bind_position fun n inside => ?_
  exact .bind (.lift (s.inRange_check _ _ (by omega))) fun _ => .pure _

theorem ensures_headerParser (s : Settings) (address : Nat) (bytes : Bytes) :
    Ensures (headerParser s address bytes) Header.Limited := by
  refine .bind_any fun _ => .bind_any fun _ => .bind_any fun _ => .bind_any fun width => ?_
  refine (Ensures.lift fun n done => limits_of_arrayElementSize done).bind fun entrySize some => ?_
  refine .bind_any fun _ => (Ensures.uint _).bind fun entries fits => ?_
  refine .bind_any fun _ => .bind_any fun _ => .bind_any fun _ => .pure ⟨some.1, ?_⟩
  exact Nat.le_sub_one_of_lt (Nat.lt_of_lt_of_le fits (Parser.pow_lengthSize_le s.widths))

theorem inRange_blockParser (s : Settings) (address : Nat) {h : Header} (limited : h.Limited)
    {bytes : Bytes} (fits : bytes.length + 4 ≤ maxWord)
    (room : h.block + bytes.length ≤ maxWord) :
    Parser.InRange bytes.length (blockParser s address h bytes) := by
  refine .bind (.signature ..) fun _ => .bind (.version ..) fun _ => ?_
  refine .bind (s.inRange_client _) fun _ => .bind (s.inRange_owner ..) fun _ => ?_
  refine .bind (.take _) fun raw => .bind_position fun n inside => ?_
  refine .bind (.lift (s.inRange_check _ _ (by omega))) fun _ => .ite (fun _ => ?_) fun _ => ?_
  · exact .bind (.lift (.within room)) fun _ => .pure _
  · exact .bind (.lift (inRange_arrayElements s limited.entrySize raw)) fun _ => .pure _

end FixedArray

/-! ## Extensible arrays -/

namespace ExtensibleArray

/-- What is true of every header that was read, besides `Header.Accepted`. -/
structure Header.Limited (h : Header) : Prop where
  entrySize : h.entrySize ≠ 0
  narrow : h.entrySize ≤ 20
  indexElements : h.indexElements < 256
  minPointers : h.minPointers < 256

theorem inRange_groupTable (maxBits minElements : Nat) :
    InRange (groupTable maxBits minElements) := by
  unfold groupTable
  dsimp only
  split
  · exact nofun
  · exact .ok _

theorem inRange_headerParser (s : Settings) (address : Nat) {bytes : Bytes}
    (fits : bytes.length + 4 ≤ maxWord) :
    Parser.InRange bytes.length (headerParser s address bytes) := by
  refine .bind (.signature ..) fun _ => .bind (.version ..) fun _ => ?_
  refine .bind (s.inRange_client _) fun _ => .bind (.uint 1) fun width => ?_
  refine .bind (.lift (inRange_arrayElementSize s width)) fun entrySize => ?_
  refine .bind (.uint 1) fun maxBits => .bind (.uint 1) fun indexElements => ?_
  refine .bind (.uint 1) fun minElements => .bind (.uint 1) fun minPointers => ?_
  refine .bind (.uint 1) fun pageBits => .guard (by nofun) fun _ => .guard (by nofun) fun _ => ?_
  refine .bind (.times (.length _) 4) fun _ => .bind (.length _) fun _ => ?_
  refine .bind (.length _) fun _ => .bind (.address _) fun _ => .bind_position fun n inside => ?_
  refine .bind (.lift (s.inRange_check _ _ (by omega))) fun _ => ?_
  exact .bind (.lift (inRange_groupTable _ _)) fun _ => .pure _

theorem limited_of_headerParser (s : Settings) (address : Nat) (bytes : Bytes) :
    Ensures (headerParser s address bytes) Header.Limited := by
  refine .bind_any fun _ => .bind_any fun _ => .bind_any fun _ => .bind_any fun width => ?_
  refine (Ensures.lift fun n done => limits_of_arrayElementSize done).bind fun entrySize sizes => ?_
  refine .bind_any fun maxBits => (Ensures.uint 1).bind fun indexElements few => ?_
  refine .bind_any fun minElements => (Ensures.uint 1).bind fun minPointers pointers => ?_
  refine .bind_any fun pageBits => .guard fun _ => .guard fun _ => ?_
  refine .bind_any fun _ => .bind_any fun _ => .bind_any fun _ => .bind_any fun _ => ?_
  exact .bind_any fun _ => .bind_any fun _ => .bind_any fun _ =>
    .pure ⟨sizes.1, sizes.2, few, pointers⟩

theorem inRange_blockStart (s : Settings) (signature : String) (part : Part) (header : Nat) :
    Parser.InRange total (blockStart s signature part header) := by
  refine .bind (.signature ..) fun _ => .bind (.version ..) fun _ => ?_
  exact .bind (s.inRange_client _) fun _ => s.inRange_owner ..

theorem inRange_entryParser (s : Settings) (h : Header) :
    Parser.InRange total (entryParser s h) :=
  .bind (.take _) fun _ => .lift (inRange_arrayElement s h.entrySize).parse

theorem inRange_indexBlockParser (s : Settings) (address : Nat) (h : Header) {bytes : Bytes}
    (fits : bytes.length + 4 ≤ maxWord) :
    Parser.InRange bytes.length (indexBlockParser s address h bytes) := by
  refine .bind (inRange_blockStart ..) fun _ => ?_
  refine .bind (.times (inRange_entryParser s h) _) fun _ => ?_
  refine .bind (.times (.address _) _) fun _ => .bind (.times (.address _) _) fun _ => ?_
  refine .bind_position fun n inside => ?_
  exact .bind (.lift (s.inRange_check _ _ (by omega))) fun _ => .pure _

theorem inRange_bitmapLength (h : Header) (group : Group) : InRange (bitmapLength h group) := by
  unfold bitmapLength
  dsimp only
  split
  · exact .ok _
  · exact inRange_byteSpan _ _ _

theorem inRange_secondaryBlockParser (s : Settings) (address : Nat) (h : Header) (group : Group)
    (bitmap own : Nat) {bytes : Bytes} (fits : bytes.length + 4 ≤ maxWord) :
    Parser.InRange bytes.length (secondaryBlockParser s address h group bitmap own bytes) := by
  refine .bind (inRange_blockStart ..) fun _ => .bind (.skip _) fun _ => .bind (.take _) fun _ => ?_
  refine .bind (.times (.address _) _) fun _ => .bind_position fun n inside => ?_
  exact .bind (.lift (s.inRange_check _ _ (by omega))) fun _ => .pure _

theorem inRange_dataBlockParser (s : Settings) (address : Nat) {h : Header} (limited : h.Limited)
    (body own : Nat) {bytes : Bytes} (fits : bytes.length + 4 ≤ maxWord) :
    Parser.InRange bytes.length (dataBlockParser s address h body own bytes) := by
  refine .bind (inRange_blockStart ..) fun _ => .bind (.skip _) fun _ => ?_
  refine .bind (.take _) fun raw => .bind_position fun n inside => ?_
  refine .bind (.lift (s.inRange_check _ _ (by omega))) fun _ => ?_
  exact .lift (inRange_arrayElements s limited.entrySize raw)

end ExtensibleArray

/-! ## Version 1 B-trees -/

namespace TreeOne

theorem inRange_headParser : Parser.InRange total headParser := by
  refine .bind (.signature ..) fun _ => .bind (.uint 1) fun type => .guard (by nofun) fun _ => ?_
  exact .bind (.uint 1) fun _ => .bind (.uint 2) fun _ => .pure _

theorem ensures_headParser : Ensures headParser fun head => head.2 < 2 ^ 16 := by
  refine .bind_any fun _ => .bind_any fun _ => .guard fun _ => .bind_any fun _ => ?_
  exact (Ensures.uint 2).bind fun entries few => .pure few

theorem inRange_scaledOffsets {sizes : List Nat} (some : 0 ∉ sizes) :
    Parser.InRange total (scaledOffsets sizes) := by
  induction sizes with
  | nil => exact .pure []
  | cons size sizes ih =>
    obtain ⟨first, others⟩ := not_or.1 (mt List.mem_cons.2 some)
    have offset : Parser.InRange total (scaledOffset size) :=
      .bind (.uint 8) fun _ => .lift (.div (Ne.symm first))
    exact offset.bind fun _ => (ih others).bind fun _ => .pure _

variable {s : Settings}

theorem inRange_keyParser (dims : 0 ∉ s.chunkDims) : Parser.InRange total (keyParser s) := by
  have sizes : 0 ∉ s.chunkDims ++ [max s.elementSize 1] := by
    rw [List.mem_append, List.mem_singleton]
    rintro (mem | zero)
    · exact dims mem
    · omega
  exact .bind .word32 fun _ => .bind .word32 fun _ => (inRange_scaledOffsets sizes).bind fun _ =>
    .pure _

theorem inRange_bodyParser (dims : 0 ∉ s.chunkDims) (level entries : Nat) :
    Parser.InRange total (bodyParser s level entries) := by
  have entry : Parser.InRange total (entryParser s) :=
    (inRange_keyParser dims).bind fun _ => .bind (.address _) fun _ => .pure _
  exact (entry.times entries).bind fun _ => (inRange_keyParser dims).bind fun _ => .pure _

/-- A node has a number of bytes, since it has fewer than `2 ^ 16` keys. -/
theorem bodyLength_le (rank : 8 * s.chunkDims.length < 2 ^ 47) {entries : Nat}
    (few : entries < 2 ^ 16) : bodyLength s entries ≤ maxWord := by
  have narrow : s.offsetSize ≤ 8 := s.widths.offset.bytes_le
  have keys : (entries + 1) * (8 + 8 * (s.chunkDims.length + 1)) ≤ 2 ^ 16 * (2 ^ 47 + 16) :=
    Nat.mul_le_mul few (by omega)
  have children : entries * s.offsetSize ≤ 2 ^ 16 * 8 := Nat.mul_le_mul few.le narrow
  have word : 2 ^ 16 * (2 ^ 47 + 16) + 2 ^ 16 * 8 ≤ maxWord := by decide
  exact (Nat.add_le_add keys children).trans word

end TreeOne

/-! ## Version 2 B-trees -/

namespace TreeTwo

/-- A level has few records to a node and narrow pointers. -/
structure NodeCapacity.Limited (c : NodeCapacity) : Prop where
  few : c.maxRecords < 2 ^ 32
  total : c.totalSize ≤ 8
  pointers : c.pointerSize ≤ 24

/-- What is true of every header that was read. -/
structure Header.Limited (s : Settings) (h : Header) : Prop where
  narrow : h.recordSize < 2 ^ 16
  /-- Of a filtered chunk's record something is left for the stored size. -/
  room : s.filtered = true → recordBase s ≤ h.recordSize
  capacity : ∀ c ∈ h.capacity, c.Limited

variable {nodeSize recordSize offsetSize countSize depth : Nat}

theorem limited_leafCapacity (recordSize : Nat) (narrow : nodeSize < 2 ^ 32) :
    (leafCapacity nodeSize recordSize).Limited where
  few := (recordsThatFit_le ..).trans_lt narrow
  total := Nat.zero_le _
  pointers := Nat.zero_le _

theorem limited_capacityAbove (recordSize : Nat) (narrow : nodeSize < 2 ^ 32)
    (offset : offsetSize ≤ 8) (count : countSize ≤ 8) (depth : Nat) {below : NodeCapacity}
    (limited : below.Limited) :
    (capacityAbove nodeSize recordSize offsetSize countSize depth below).Limited where
  few := (recordsThatFit_le ..).trans_lt narrow
  total := limitSize_le (saturate_le _)
  pointers := by
    have total := limited.total
    unfold capacityAbove
    dsimp only
    split
    all_goals omega

theorem limited_capacityAt (recordSize : Nat) (narrow : nodeSize < 2 ^ 32)
    (offset : offsetSize ≤ 8) (depth : Nat) :
    (capacityAt nodeSize recordSize offsetSize depth).Limited := by
  induction depth with
  | zero => exact limited_leafCapacity recordSize narrow
  | succ depth ih =>
    have word : 2 ^ 32 ≤ maxWord := by decide
    have few := (limited_leafCapacity recordSize narrow).few.le.trans word
    exact limited_capacityAbove recordSize narrow offset (limitSize_le few) (depth + 1) ih

theorem inRange_capacities (nodeSize recordSize depth offsetSize : Nat) :
    InRange (capacities nodeSize recordSize depth offsetSize) := by
  intro failed
  cases (capacities_eq_error_iff.1 failed).1

/-- There are capacities at least for leaves. -/
theorem limited_of_capacities (narrow : nodeSize < 2 ^ 32) (offset : offsetSize ≤ 8)
    {levels : List NodeCapacity}
    (made : capacities nodeSize recordSize depth offsetSize = .ok levels) :
    0 < levels.length ∧ ∀ c ∈ levels, c.Limited := by
  obtain ⟨-, rfl⟩ := capacities_eq_ok_iff.1 made
  constructor
  · rw [List.length_map, List.length_range]
    exact Nat.succ_pos depth
  · intro c mem
    obtain ⟨d, -, rfl⟩ := List.mem_map.1 mem
    exact limited_capacityAt recordSize narrow offset d

/-! ### Headers and nodes -/

variable {s : Settings} {h : Header}

theorem inRange_headerParser (s : Settings) (address : Nat) {bytes : Bytes}
    (fits : bytes.length + 4 ≤ maxWord) :
    Parser.InRange bytes.length (headerParser s address bytes) := by
  refine .bind (.signature ..) fun _ => .bind (.version ..) fun _ => .bind (.uint 1) fun _ => ?_
  refine .guard (by nofun) fun _ => ?_
  refine (Parser.InRange.uint 4).bind_ensured (.uint 4) fun nodeSize narrow => ?_
  refine .bind (.uint 2) fun recordSize => .bind (.uint 2) fun depth => .bind (.skip 2) fun _ => ?_
  refine .bind (.address _) fun _ => .bind (.uint 2) fun _ => .bind (.length _) fun _ => ?_
  refine .bind_position fun n inside => .bind (.lift (s.inRange_check _ _ (by omega))) fun _ => ?_
  refine .guard (by nofun) fun _ => ?_
  refine (Parser.InRange.lift (inRange_capacities _ _ _ _)).bind_ensured
    (.lift fun capacity done => limited_of_capacities narrow s.widths.offset.bytes_le done)
    fun capacity limited => ?_
  exact .bind (.lift (.item limited.1)) fun _ => .pure _

/-- A header whose node size, record size and depth were accepted. -/
structure Header.Accepted (s : Settings) (nodeSize : Nat) (h : Header) : Prop where
  recordType : h.recordType = recordTypeOf s
  recordSize : if s.filtered then recordBase s < h.recordSize ∧ h.recordSize ≤ recordBase s + 8
    else h.recordSize = recordBase s
  narrow : h.recordSize < 2 ^ 16
  small : nodeSize < 2 ^ 32
  levels : capacities nodeSize h.recordSize h.depth s.offsetSize = .ok h.capacity
  count : h.countSize = limitSize (mostAt nodeSize h.recordSize s.offsetSize 0)

theorem accepted_of_headerParser (s : Settings) (address : Nat) (bytes : Bytes) :
    Ensures (headerParser s address bytes) fun h => ∃ nodeSize, h.Accepted s nodeSize := by
  refine .bind_any fun _ => .bind_any fun _ => .bind_any fun _ => .guard fun type => ?_
  refine (Ensures.uint 4).bind fun nodeSize small => ?_
  refine (Ensures.uint 2).bind fun recordSize narrow => ?_
  refine .bind_any fun depth => .bind_any fun _ => .bind_any fun _ => .bind_any fun _ => ?_
  refine .bind_any fun _ => .bind_any fun _ => .bind_any fun _ => .guard fun fits => ?_
  refine (Ensures.lift fun _ done => done).bind fun levels made => ?_
  refine (Ensures.lift fun _ done => done).bind fun leaf first => .pure ⟨nodeSize, ?_⟩
  obtain ⟨-, rfl⟩ := (getElem?_capacities made).1 (Bounds.item_eq_ok_iff.1 first)
  exact ⟨Classical.not_not.1 type, Classical.not_not.1 fits, narrow, small, made, rfl⟩

theorem Header.Accepted.limited {nodeSize : Nat} (accepted : h.Accepted s nodeSize) :
    h.Limited s where
  narrow := accepted.narrow
  room := by
    intro filtered
    have fits := accepted.recordSize
    rw [if_pos filtered] at fits
    exact fits.1.le
  capacity := (limited_of_capacities accepted.small s.widths.offset.bytes_le accepted.levels).2

theorem Header.Accepted.countSize_le {nodeSize : Nat} (accepted : h.Accepted s nodeSize) :
    h.countSize ≤ 8 := by
  have word : 2 ^ 32 ≤ maxWord := by decide
  have few := (limited_leafCapacity h.recordSize accepted.small).few.le.trans word
  exact accepted.count.trans_le (limitSize_le few)

theorem inRange_recordParser (limited : h.Limited s) : Parser.InRange total (recordParser s h) := by
  refine .bind (.address _) fun address => ?_
  have rest (d : Descriptor) : Parser.InRange total
      (do return ⟨← Parser.times (Parser.uint 8) s.chunkDims.length, d⟩ : Parser Record) :=
    .bind (.times (.uint 8) _) fun _ => .pure _
  refine .ite (fun filtered => ?_) fun _ => .bind (.pure _) rest
  refine .bind (.lift (.sub (limited.room filtered))) fun _ => .bind (.uint _) fun _ => ?_
  exact .bind .word32 fun _ => .bind (.pure _) rest

theorem inRange_childParser (s : Settings) (h : Header) (totalSize : Nat) :
    Parser.InRange total (childParser s h totalSize) :=
  .bind (.address _) fun _ => .bind (.uint _) fun _ => .bind (.skip _) fun _ => .pure _

/-- Below a level there is one, except below the leaves. -/
theorem inRange_totalSizeAt {depth : Nat} (inside : depth < h.capacity.length) :
    InRange (totalSizeAt h depth) := by
  unfold totalSizeAt
  split
  · exact .map _ (.item (by omega))
  · exact .ok 0

theorem inRange_nodeParser (limited : h.Limited s) (address records : Nat) {depth : Nat}
    (inside : depth < h.capacity.length) {bytes : Bytes} (fits : bytes.length + 4 ≤ maxWord) :
    Parser.InRange bytes.length (nodeParser s h address records depth bytes) := by
  refine .bind (.signature ..) fun _ => .bind (.version ..) fun _ => .bind (.uint 1) fun _ => ?_
  refine .guard (by nofun) fun _ => .bind (.times (inRange_recordParser limited) _) fun _ => ?_
  refine .bind (.lift (inRange_totalSizeAt inside)) fun totalSize => ?_
  refine .bind (.times (inRange_childParser s h totalSize) _) fun _ => ?_
  refine .bind_position fun n inside => .bind (.lift (s.inRange_check _ _ (by omega))) fun _ => ?_
  exact .pure _

/-- A node that is not too full has a number of bytes. -/
theorem nodeLength_le (limited : h.Limited s) {capacity : NodeCapacity} (level : capacity.Limited)
    {records : Nat} (fits : records ≤ capacity.maxRecords) (depth : Nat) :
    nodeLength h capacity records depth ≤ maxWord := by
  have few := level.few
  have own : records * h.recordSize ≤ 2 ^ 32 * 2 ^ 16 :=
    Nat.mul_le_mul (by omega) limited.narrow.le
  have pointers : (if depth = 0 then 0 else records + 1) * capacity.pointerSize ≤ 2 ^ 32 * 24 := by
    refine Nat.mul_le_mul ?_ level.pointers
    split
    all_goals omega
  have word : 6 + 2 ^ 32 * 2 ^ 16 + 2 ^ 32 * 24 + 4 ≤ maxWord := by decide
  rw [nodeLength]
  omega

end TreeTwo

end ChunkStore.Index
