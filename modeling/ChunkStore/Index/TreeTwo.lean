import ChunkStore.Index.Basic

/-!
# The version 2 B-tree

Nodes hold records, each a chunk's coordinate with its descriptor, in the lexicographic order of
the coordinates. An inner node has one child more than records. A child's pointer gives its
address and its number of records, in as many bytes as the number can take; `capacities` derives
these widths, level by level, from the size of a node. `lookup` goes down from the root and stops
at the record with the coordinate, in whichever node it lies.
-/

namespace ChunkStore.Index

namespace TreeTwo

/-- What a node at one depth can hold; leaves are at depth 0. -/
structure NodeCapacity where
  /-- Records of a node. -/
  maxRecords : Nat
  /-- Records of a node and all below it. -/
  totalRecords : Nat
  /-- Bytes that `totalRecords` takes in a pointer. -/
  totalSize : Nat
  /-- Bytes of a child pointer. -/
  pointerSize : Nat
  deriving DecidableEq, Repr

/-- Bytes of a node besides its records and pointers. -/
def nodeOverhead : Nat := 10

/-- Bytes that hold every count up to `limit`. -/
def limitSize (limit : Nat) : Nat := Nat.log2 (max limit 1) / 8 + 1

/-- How many records fit beside pointers of `pointer` bytes, one more than there are records. -/
def recordsThatFit (nodeSize recordSize pointer : Nat) : Nat :=
  (nodeSize - (nodeOverhead + pointer)) / (recordSize + pointer)

/-- The capacity of leaves. -/
def leafCapacity (nodeSize recordSize : Nat) : NodeCapacity :=
  let records := recordsThatFit nodeSize recordSize 0
  ⟨records, records, 0, 0⟩

/-- The capacity of nodes at depth `depth`, over nodes of capacity `below`. -/
def capacityAbove (nodeSize recordSize offsetSize countSize depth : Nat) (below : NodeCapacity) :
    NodeCapacity :=
  let pointer := offsetSize + countSize + (if 1 < depth then below.totalSize else 0)
  let records := recordsThatFit nodeSize recordSize pointer
  let total := saturate (saturate ((records + 1) * below.totalRecords) + records)
  ⟨records, total, limitSize total, pointer⟩

/-- The capacities at `count` depths from `depth` on, over nodes of capacity `below`. -/
def capacitiesAbove (nodeSize recordSize offsetSize countSize : Nat) :
    (count depth : Nat) → NodeCapacity → Except Error (List NodeCapacity)
  | 0, _, _ => .ok []
  | count + 1, depth, below =>
    let capacity := capacityAbove nodeSize recordSize offsetSize countSize depth below
    if capacity.maxRecords = 0 then
      .error (.corrupt .treeTwoHeader (.nodeTooSmall nodeSize recordSize))
    else
      (capacitiesAbove nodeSize recordSize offsetSize countSize count (depth + 1) capacity).map
        (capacity :: ·)

/-- The capacities at depths 0 to `depth`. -/
def capacities (nodeSize recordSize depth offsetSize : Nat) :
    Except Error (List NodeCapacity) :=
  let leaf := leafCapacity nodeSize recordSize
  if recordSize = 0 ∨ leaf.maxRecords = 0 then
    .error (.corrupt .treeTwoHeader (.nodeTooSmall nodeSize recordSize))
  else
    (capacitiesAbove nodeSize recordSize offsetSize (limitSize leaf.maxRecords) depth 1 leaf).map
      (leaf :: ·)

/-- A decoded header. -/
structure Header where
  recordType : Nat
  /-- Bytes of a record. -/
  recordSize : Nat
  /-- Levels below the root. -/
  depth : Nat
  /-- Address of the root. -/
  root : Nat
  /-- Records of the root. -/
  rootRecords : Nat
  /-- Bytes of a pointer's number of records. -/
  countSize : Nat
  /-- What a node can hold, by depth. -/
  capacity : List NodeCapacity
  deriving DecidableEq, Repr

/-- A record of a node. -/
structure Record where
  scaled : Coordinate
  descriptor : Descriptor
  deriving DecidableEq, Repr

/-- A pointer to a child. -/
structure Child where
  address : Nat
  /-- Records of the child. -/
  records : Nat
  deriving DecidableEq, Repr

/-- A decoded node. -/
structure Node where
  records : List Record
  children : List Child
  deriving DecidableEq, Repr

/-- Bytes of a header. -/
def headerLength (widths : FileWidths) : Nat :=
  16 + widths.offsetSize + 2 + widths.lengthSize + 4

/-- The record type of a dataset: 11 for filtered chunks and 10 for others. -/
def recordTypeOf (s : Settings) : Nat := if s.filtered then 11 else 10

/-- Bytes of a record, besides the stored size of a filtered chunk. -/
def recordBase (s : Settings) : Nat :=
  s.offsetSize + 8 * s.chunkDims.length + (if s.filtered then 4 else 0)

/-- A header at `address`. -/
def headerParser (s : Settings) (address : Nat) (image : Bytes) : Parser Header := do
  Parser.signature "BTHD".toUTF8.toList .treeTwoHeader
  Parser.version 0 .treeTwoHeader
  let recordType ← Parser.uint 1
  if recordType ≠ recordTypeOf s then
    throw (.corrupt .treeTwoHeader (.recordType recordType (recordTypeOf s)))
  let nodeSize ← Parser.uint 4
  let recordSize ← Parser.uint 2
  let depth ← Parser.uint 2
  -- Split and merge percentages.
  Parser.skip 2
  let root ← Parser.address s.widths
  let rootRecords ← Parser.uint 2
  -- Number of records.
  let _ ← Parser.length s.widths
  s.check image (← Parser.position) .treeTwoHeader address
  let base := recordBase s
  let fits :=
    if s.filtered then base < recordSize ∧ recordSize ≤ base + 8 else recordSize = base
  if ¬fits then
    throw (.corrupt .treeTwoHeader (.recordSize recordSize recordType s.chunkDims.length))
  let capacity ← capacities nodeSize recordSize depth s.offsetSize
  return {
    recordType, recordSize, depth, root, rootRecords, capacity
    countSize := limitSize (← Bounds.item capacity 0).maxRecords }

/-- One record. -/
def recordParser (s : Settings) (h : Header) : Parser Record := do
  let address ← Parser.address s.widths
  let descriptor ←
    if s.filtered then do
      let storedSize ← Parser.uint (← Bounds.sub h.recordSize (recordBase s))
      pure (Settings.stored address storedSize (← Parser.word32))
    else pure (s.plain address)
  return ⟨← Parser.times (Parser.uint 8) s.chunkDims.length, descriptor⟩

/-- One child pointer; `totalSize` bytes give the number of records below the child. -/
def childParser (s : Settings) (h : Header) (totalSize : Nat) : Parser Child := do
  let address ← Parser.address s.widths
  let records ← Parser.uint h.countSize
  Parser.skip totalSize
  return ⟨address, records⟩

/-- Bytes of a node of `records` records at a depth. -/
def nodeLength (h : Header) (capacity : NodeCapacity) (records depth : Nat) : Nat :=
  6 + records * h.recordSize + (if depth = 0 then 0 else records + 1) * capacity.pointerSize + 4

/-- Bytes of the number of records below a child, in nodes at a depth. -/
def totalSizeAt (h : Header) (depth : Nat) : Except Error Nat :=
  if 1 < depth then (Bounds.item h.capacity (depth - 1)).map NodeCapacity.totalSize else .ok 0

/-- The node at `address`, of `records` records and at depth `depth`. -/
def nodeParser (s : Settings) (h : Header) (address records depth : Nat) (image : Bytes) :
    Parser Node := do
  let part := if depth = 0 then Part.treeTwoLeafNode else .treeTwoInternalNode
  Parser.signature (if depth = 0 then "BTLF" else "BTIN").toUTF8.toList part
  Parser.version 0 part
  let recordType ← Parser.uint 1
  if recordType ≠ h.recordType then
    throw (.corrupt part (.recordTypeInTree recordType h.recordType))
  let nodeRecords ← Parser.times (recordParser s h) records
  let totalSize ← totalSizeAt h depth
  let children ← Parser.times (childParser s h totalSize) (if depth = 0 then 0 else records + 1)
  s.check image (← Parser.position) part address
  return ⟨nodeRecords, children⟩

/-- The middle of a range within the records is the slot of a record. -/
theorem middle_lt {low high size : Nat} (hlt : low < high) (h : high ≤ size) :
    (low + high) / 2 < size := by omega

/-- The slot that a binary search probes last, and the side of it on which the target lies; the
search goes on between `low` and, without it, `high`. -/
def probe (records : Array Record) (target : Coordinate) (low high : Nat)
    (h : high ≤ records.size) (last : Nat × Ordering) : Nat × Ordering :=
  if hlt : low < high then
    let middle := (low + high) / 2
    have inside : middle < records.size := middle_lt hlt h
    match Coordinate.lexCompare target records[middle].scaled with
    | .lt => probe records target low middle (Nat.le_of_lt inside) (middle, .lt)
    | .gt => probe records target (middle + 1) high h (middle, .gt)
    | .eq => (middle, .eq)
  else last
termination_by high - low

/-- The slot that a binary search among the records probes last, and the side of the target. -/
def locate (records : List Record) (target : Coordinate) : Nat × Ordering :=
  let records := records.toArray
  probe records target 0 records.size (Nat.le_refl _) (0, .lt)

end TreeTwo

/-- A version 2 B-tree and what was decoded of it. -/
structure TreeTwo where
  settings : Settings
  /-- Address of the header. -/
  address : Nat
  header : Option TreeTwo.Header
  nodes : Memo TreeTwo.Node

namespace TreeTwo

/-- The tree at an address, of which nothing was decoded. -/
def ofAddress (settings : Settings) (address : Nat) : TreeTwo :=
  ⟨settings, address, none, .empty⟩

/-- How many structures were decoded. -/
def decoded (t : TreeTwo) : Nat := t.header.isSome.toNat + t.nodes.decoded

/-- The header. -/
def recallHeader (t : TreeTwo) : Session TreeTwo Header :=
  recallOne TreeTwo.header (fun h t => { t with header := some h }) do
    let image ← Session.fetch t.address (headerLength t.settings.widths)
    Session.ofExcept ((headerParser t.settings t.address image).parse image)

/-- Decodes the node of `records` records at an address and a depth. -/
def readNode (s : Settings) (h : Header) (address records depth : Nat) :
    Session TreeTwo Node := do
  match h.capacity[depth]? with
  | none => throw (.corrupt .treeTwoNode (.nodeDepth depth))
  | some capacity =>
    if capacity.maxRecords < records then
      throw (.corrupt .treeTwoNode (.recordCount records capacity.maxRecords))
    let length ← Bounds.within (nodeLength h capacity records depth)
    let image ← Session.fetch address length
    Session.ofExcept ((nodeParser s h address records depth image).parse image)

/-- The node of `records` records at an address and a depth. -/
def recallNode (s : Settings) (h : Header) (address records depth : Nat) : Session TreeTwo Node :=
  Memo.recallAt TreeTwo.nodes (fun m t => { t with nodes := m }) address
    (readNode s h address records depth)

/-- Goes down from the node at an address to the record of the target. -/
def descend (s : Settings) (h : Header) (target : Coordinate) :
    (depth address records : Nat) → Session TreeTwo Descriptor
  | depth, address, records => do
    let node ← recallNode s h address records depth
    let (slot, side) := locate node.records target
    if side = .eq then return (← Bounds.item node.records slot).descriptor
    match depth with
    | 0 => return .undefined
    | below + 1 =>
      match node.children[if side = .gt then slot + 1 else slot]? with
      | none => return .undefined
      | some child =>
        if child.address = undefinedAddress then return .undefined
        descend s h target below child.address child.records

/-- The descriptor of the chunk at a coordinate. -/
def lookup (coordinate : Coordinate) : Session TreeTwo Descriptor := do
  let t ← get
  if t.address = undefinedAddress then return .undefined
  let h ← t.recallHeader
  if h.root = undefinedAddress ∨ h.rootRecords = 0 then return .undefined
  descend t.settings h coordinate h.depth h.root h.rootRecords

end TreeTwo

end ChunkStore.Index
