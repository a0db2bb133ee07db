import ChunkStore.Index.Basic

/-!
# The version 1 B-tree

Every node has keys and, between each two neighbours, the address of a child: the child after a
key covers the chunks from that key up to, and without, the next key. A key is a chunk's first
element, with the stored size and the filter mask of the chunk. `findChild` chooses the child that
covers a chunk; `descend` follows the choices to a leaf, one level at a time.
-/

namespace ChunkStore.Index

namespace TreeOne

/-- A key of a node. -/
structure Key where
  storedSize : UInt32
  filterMask : UInt32
  /-- The chunk's coordinate, and one component for the bytes of an element. -/
  scaled : List Nat
  deriving DecidableEq, Repr

/-- A decoded node. -/
structure Node where
  /-- 0 for a leaf, whose children are chunks. -/
  level : Nat
  /-- One more than there are children. -/
  keys : List Key
  /-- Addresses of the children. -/
  children : List Nat
  deriving DecidableEq, Repr

/-- Bytes of a node before its keys. -/
def nodePrefix (widths : FileWidths) : Nat := 8 + 2 * widths.offsetSize

/-- Bytes of the keys and children of a node. -/
def bodyLength (s : Settings) (entries : Nat) : Nat :=
  (entries + 1) * (8 + 8 * (s.chunkDims.length + 1)) + entries * s.offsetSize

/-- Level and number of children of a node. -/
def headParser : Parser (Nat × Nat) := do
  Parser.signature "TREE".toUTF8.toList .treeOneNode
  let type ← Parser.uint 1
  if type ≠ 1 then throw (.corrupt .treeOneNode (.nodeType type))
  let level ← Parser.uint 1
  return (level, ← Parser.uint 2)

/-- An element offset as a chunk coordinate, for chunks of `size`. -/
def scaledOffset (size : Nat) : Parser Nat := do
  let offset ← Parser.uint 8
  Bounds.div offset size

/-- The components of a key, for chunks of the given sizes. -/
def scaledOffsets : List Nat → Parser (List Nat)
  | [] => return []
  | size :: sizes => return (← scaledOffset size) :: (← scaledOffsets sizes)

/-- One key. -/
def keyParser (s : Settings) : Parser Key := do
  let storedSize ← Parser.word32
  let filterMask ← Parser.word32
  return ⟨storedSize, filterMask, ← scaledOffsets (s.chunkDims ++ [max s.elementSize 1])⟩

/-- A key and the child after it. -/
def entryParser (s : Settings) : Parser (Key × Nat) := do
  return (← keyParser s, ← Parser.address s.widths)

/-- The keys and children of a node. -/
def bodyParser (s : Settings) (level entries : Nat) : Parser Node := do
  let pairs ← Parser.times (entryParser s) entries
  let last ← keyParser s
  return ⟨level, pairs.map Prod.fst ++ [last], pairs.map Prod.snd⟩

/-- The side of the span from `left` up to, and without, `right` on which a coordinate lies. -/
def compareLex (left target right : List Nat) : Ordering :=
  if Coordinate.lexCompare target right ≠ .lt then .gt
  else if Coordinate.lexCompare target left = .lt then .lt
  else .eq

/-- `compareLex`. With one dimension, which makes two components, of the left key only the chunk's
own component counts. -/
def compareSpan (left target right : List Nat) : Except Error Ordering :=
  match target with
  | [t, u] =>
    match left, right with
    | l :: _, r :: s :: _ =>
      .ok (if r < t ∨ t = r ∧ s ≤ u then .gt else if t < l then .lt else .eq)
    | _, _ => .error .outOfRange
  | _ => .ok (compareLex left target right)

/-- The child, among those from `low` up to, and without, `high`, whose span has the target. -/
def findBetween (keys : Array Key) (target : List Nat) (low high : Nat) (h : high < keys.size) :
    Except Error (Option Nat) := do
  if hlt : low < high then
    let middle := (low + high) / 2
    match ← compareSpan keys[middle].scaled target keys[middle + 1].scaled with
    | .lt => findBetween keys target low middle (by omega)
    | .gt => findBetween keys target (middle + 1) high h
    | .eq => return some middle
  else return none
termination_by high - low

/-- The child whose span has the target. -/
def findChild (keys : List Key) (target : List Nat) : Except Error (Option Nat) :=
  let keys := keys.toArray
  if h : 0 < keys.size then findBetween keys target 0 (keys.size - 1) (by omega) else .ok none

end TreeOne

/-- A version 1 B-tree and what was decoded of it. -/
structure TreeOne where
  settings : Settings
  /-- Address of the root. -/
  root : Nat
  nodes : Memo TreeOne.Node

namespace TreeOne

/-- The tree with its root at an address, of which nothing was decoded. -/
def ofRoot (settings : Settings) (root : Nat) : TreeOne := ⟨settings, root, .empty⟩

/-- How many structures were decoded. -/
def decoded (t : TreeOne) : Nat := t.nodes.decoded

/-- Decodes the node at an address. -/
def readNode (s : Settings) (address : Nat) : Session TreeOne Node := do
  let head ← Session.fetch address (nodePrefix s.widths)
  let (level, entries) ← Session.ofExcept (headParser.parse head)
  let start ← Bounds.within (address + nodePrefix s.widths)
  let body ← Session.fetch start (← Bounds.within (bodyLength s entries))
  Session.ofExcept ((bodyParser s level entries).parse body)

/-- The node at an address. -/
def recallNode (s : Settings) (address : Nat) : Session TreeOne Node :=
  Memo.recallAt TreeOne.nodes (fun m t => { t with nodes := m }) address (readNode s address)

/-- The descriptor that the leaf entry at `slot` gives, if it is the target's. -/
def leafEntry (n : Node) (target : List Nat) (slot : Nat) : Except Error Descriptor := do
  let key ← Bounds.item n.keys slot
  if key.scaled ≠ target then return .undefined
  return ⟨← Bounds.item n.children slot, key.storedSize.toNat, key.filterMask⟩

/-- Follows the children that cover the target, from node `n` of level `level` down. -/
def descend (s : Settings) (target : List Nat) :
    (level : Nat) → (n : Node) → Session TreeOne Descriptor
  | 0, n => do
    match ← findChild n.keys target with
    | none => return .undefined
    | some slot => leafEntry n target slot
  | level + 1, n => do
    match ← findChild n.keys target with
    | none => return .undefined
    | some slot =>
      let child ← recallNode s (← Bounds.item n.children slot)
      if child.level ≠ level then
        throw (.corrupt .treeOneNode (.nodeLevel child.level (level + 1)))
      descend s target level child

/-- The descriptor of the chunk at a coordinate. -/
def lookup (coordinate : Coordinate) : Session TreeOne Descriptor := do
  let t ← get
  if t.root = undefinedAddress then return .undefined
  let root ← recallNode t.settings t.root
  descend t.settings (coordinate ++ [0]) root.level root

end TreeOne

end ChunkStore.Index
