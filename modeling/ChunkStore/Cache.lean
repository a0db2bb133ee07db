import ChunkStore.Grid.Coordinate

/-!
# The cache of decoded chunks

A cache keeps decoded chunks by coordinate, at most `maxSlots` of them and at most `maxBytes`
bytes. Every access takes the next tick of a clock; to make room, the entry with the oldest tick
is evicted first. A chunk larger than the whole cache passes by it. The entries stand in places,
and `slots` says in which place a coordinate is; an evicted entry's place goes to the last one.
`Cache.request` and `Cache.retain` are the two halves of `Cache.get`, before and after the chunk is
produced.
-/

namespace ChunkStore

/-- What a cache may hold. -/
structure CacheLimits where
  maxSlots : Nat
  maxBytes : Nat
  deriving DecidableEq, Repr

namespace CacheLimits

/-- 521 chunks and one mebibyte. -/
def default : CacheLimits := ⟨521, 1048576⟩

/-- Room for nothing. -/
def disabled : CacheLimits := ⟨0, 0⟩

/-- Whether there is room for anything. -/
def isEnabled (l : CacheLimits) : Bool := 0 < l.maxSlots && 0 < l.maxBytes

end CacheLimits

/-- What has happened since the cache was last empty. -/
structure CacheStats where
  /-- Requests served from the cache. -/
  hits : Nat
  /-- Requests for which the chunk had to be produced. -/
  misses : Nat
  /-- Entries removed to make room. -/
  evictions : Nat
  /-- Chunks that passed by the cache. -/
  bypassed : Nat
  deriving DecidableEq, Repr

/-- A cached chunk. -/
structure CacheEntry where
  coordinate : Coordinate
  buffer : Bytes
  lastAccess : Nat
  deriving DecidableEq, Repr

/-- Chunks in their places, and what is needed to find and to evict them. -/
structure Cache where
  limits : CacheLimits
  entries : List CacheEntry
  /-- The place of each cached coordinate. -/
  slots : List (Coordinate × Nat)
  bytesUsed : Nat
  tick : Nat
  stats : CacheStats
  deriving Repr

namespace Cache

/-- A cache without entries. -/
def ofLimits (limits : CacheLimits) : Cache := ⟨limits, [], [], 0, 0, ⟨0, 0, 0, 0⟩⟩

/-- Number of cached chunks. -/
def size (c : Cache) : Nat := c.entries.length

/-- The place of a coordinate. -/
def slot? (c : Cache) (coordinate : Coordinate) : Option Nat := c.slots.lookup coordinate

/-- Whether a coordinate is cached; asking is no access. -/
def contains (c : Cache) (coordinate : Coordinate) : Bool := (c.slot? coordinate).isSome

/-- The cache without its entries and with a new account. -/
def clear (c : Cache) : Cache := ofLimits c.limits

/-- The place of each coordinate after `coordinate` is put in `slot`. -/
def assign (slots : List (Coordinate × Nat)) (coordinate : Coordinate) (slot : Nat) :
    List (Coordinate × Nat) :=
  (coordinate, slot) :: slots.filter fun (other, _) => other ≠ coordinate

/-- The place of the entry with the oldest tick. -/
def oldest? (entries : List CacheEntry) : Option Nat := do
  let tick ← (entries.map CacheEntry.lastAccess).min?
  entries.findIdx? fun e => e.lastAccess = tick

/-- The entries without the one in `slot`, whose place goes to the last one. -/
def swapRemove (entries : List CacheEntry) (slot : Nat) : List CacheEntry :=
  match entries.getLast? with
  | none => []
  | some last => (entries.set slot last).dropLast

/-- Evicts the entry with the oldest tick. -/
def evict (c : Cache) : Cache :=
  match oldest? c.entries with
  | none => c
  | some slot =>
    match c.entries[slot]? with
    | none => c
    | some victim =>
      let entries := swapRemove c.entries slot
      let kept := c.slots.filter fun (other, _) => other ≠ victim.coordinate
      { c with
        entries
        slots := match entries[slot]? with
          | some moved => assign kept moved.coordinate slot
          | none => kept
        bytesUsed := c.bytesUsed - victim.buffer.length
        stats := { c.stats with evictions := c.stats.evictions + 1 } }

/-- Whether one more chunk of `length` bytes fits. -/
def hasRoom (c : Cache) (length : Nat) : Bool :=
  c.entries.length < c.limits.maxSlots && c.bytesUsed + length ≤ c.limits.maxBytes

/-- Evicts until a chunk of `length` bytes fits or nothing is left; each of `fuel` steps evicts
one entry. -/
def makeRoom (length : Nat) : (fuel : Nat) → Cache → Cache
  | 0, c => c
  | fuel + 1, c => if c.entries.isEmpty || c.hasRoom length then c else makeRoom length fuel c.evict

/-- A request for a coordinate: the cached chunk, if there is one. -/
def request (c : Cache) (coordinate : Coordinate) : Option Bytes × Cache :=
  let tick := c.tick + 1
  match (c.slot? coordinate).bind fun slot => (c.entries[slot]?).map fun e => (slot, e) with
  | some (slot, entry) =>
    (some entry.buffer,
      { c with
        tick
        entries := c.entries.set slot { entry with lastAccess := tick }
        stats := { c.stats with hits := c.stats.hits + 1 } })
  | none => (none, { c with tick, stats := { c.stats with misses := c.stats.misses + 1 } })

/-- Keeps a chunk that had to be produced, unless it passes by the cache. -/
def retain (c : Cache) (coordinate : Coordinate) (buffer : Bytes) : Cache :=
  if !c.limits.isEnabled || c.limits.maxBytes < buffer.length then
    { c with stats := { c.stats with bypassed := c.stats.bypassed + 1 } }
  else
    let c := makeRoom buffer.length c.entries.length c
    { c with
      bytesUsed := c.bytesUsed + buffer.length
      slots := assign c.slots coordinate c.entries.length
      entries := c.entries ++ [⟨coordinate, buffer, c.tick⟩] }

/-- The chunk at a coordinate, produced by `miss` when it is not cached. -/
def get {ε : Type} (c : Cache) (coordinate : Coordinate) (miss : Unit → Except ε Bytes) :
    Except ε Bytes × Cache :=
  match c.request coordinate with
  | (some buffer, c) => (.ok buffer, c)
  | (none, c) =>
    match miss () with
    | .error e => (.error e, c)
    | .ok buffer => (.ok buffer, c.retain coordinate buffer)

end Cache

end ChunkStore
