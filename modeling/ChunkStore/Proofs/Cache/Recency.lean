import ChunkStore.Proofs.Cache
import Mathlib.Algebra.Ring.Nat
import Mathlib.Data.List.Nodup
import Mathlib.Data.List.Perm.Basic
import Mathlib.Order.Bounds.Defs

/-!
# A cache as a list of chunks by age

The ticks put the entries of a cache into the order of their last use (`byAge`), and the places
are only a way to find them. `Cache.Consistent` is what the parts of a cache have to do with each
other; every operation keeps it. In the order of age a hit moves one chunk to the end
(`Consistent.aged_request`), an eviction removes the first one (`Consistent.aged_evict`), and
making room removes the shortest run of chunks from the front that leaves room
(`Consistent.makeRoom`).
-/

namespace ChunkStore

/-- Whether there is room for one more chunk of `length` bytes beside the given ones. -/
def CacheLimits.HasRoom (limits : CacheLimits) (chunks : List (Coordinate × Bytes))
    (length : Nat) : Prop :=
  chunks.length + 1 ≤ limits.maxSlots ∧
    (chunks.map fun chunk => chunk.2.length).sum + length ≤ limits.maxBytes

namespace Cache

/-- The entries, the one used longest ago first. -/
def aged (c : Cache) : List CacheEntry :=
  c.entries.mergeSort fun a b => a.lastAccess ≤ b.lastAccess

/-- A cached chunk with its coordinate. -/
def chunkOf (e : CacheEntry) : Coordinate × Bytes := (e.coordinate, e.buffer)

/-- The cached chunks with their coordinates, the one used longest ago first. -/
def byAge (c : Cache) : List (Coordinate × Bytes) := c.aged.map chunkOf

/-- What the parts of a cache have to do with each other. -/
structure Consistent (c : Cache) : Prop where
  /-- A coordinate has at most one place. -/
  keys : (c.slots.map Prod.fst).Nodup
  /-- The place of a coordinate is the one where its entry is. -/
  places : ∀ coordinate slot, c.slot? coordinate = some slot ↔
    ∃ e, c.entries[slot]? = some e ∧ e.coordinate = coordinate
  distinct : (c.entries.map CacheEntry.coordinate).Nodup
  ticks : (c.entries.map CacheEntry.lastAccess).Nodup
  clock : ∀ e ∈ c.entries, e.lastAccess ≤ c.tick
  bytes : c.bytesUsed = (c.entries.map fun e => e.buffer.length).sum
  slots_le : c.size ≤ c.limits.maxSlots
  bytes_le : c.bytesUsed ≤ c.limits.maxBytes

theorem consistent_ofLimits (limits : CacheLimits) : (ofLimits limits).Consistent where
  keys := List.nodup_nil
  places coordinate slot := by
    constructor
    · intro found
      cases found
    · rintro ⟨e, there, -⟩
      cases there
  distinct := List.nodup_nil
  ticks := List.nodup_nil
  clock _ mem := by cases mem
  bytes := rfl
  slots_le := Nat.zero_le _
  bytes_le := Nat.zero_le _

/-! ## The order of age -/

variable {c : Cache}

theorem aged_perm (c : Cache) : c.aged.Perm c.entries := List.mergeSort_perm ..

theorem mem_aged {e : CacheEntry} : e ∈ c.aged ↔ e ∈ c.entries := c.aged_perm.mem_iff

theorem Consistent.pairwise_aged (ok : c.Consistent) :
    c.aged.Pairwise fun a b => a.lastAccess < b.lastAccess := by
  have sorted : c.aged.Pairwise fun a b => a.lastAccess ≤ b.lastAccess := by
    have sorted : c.aged.Pairwise fun a b => decide (a.lastAccess ≤ b.lastAccess) = true :=
      List.pairwise_mergeSort
        (fun a b d ab bd => by
          rw [decide_eq_true_eq] at ab bd ⊢
          exact Nat.le_trans ab bd)
        (fun a b => by
          rw [Bool.or_eq_true, decide_eq_true_eq, decide_eq_true_eq]
          exact Nat.le_total _ _) c.entries
    exact sorted.imp of_decide_eq_true
  have apart : (c.aged.map CacheEntry.lastAccess).Nodup :=
    (c.aged_perm.map CacheEntry.lastAccess).nodup_iff.2 ok.ticks
  exact sorted.imp₂ (fun a b le differ => Nat.lt_of_le_of_ne le differ) (List.pairwise_map.1 apart)

/-- A list with the entries of a cache in the order of their ticks is the order of age. -/
theorem Consistent.aged_eq (ok : c.Consistent) {entries : List CacheEntry}
    (perm : entries.Perm c.entries)
    (sorted : entries.Pairwise fun a b => a.lastAccess < b.lastAccess) : c.aged = entries :=
  (c.aged_perm.trans perm.symm).eq_of_pairwise
    (fun _ _ _ _ less greater => absurd greater (Nat.lt_asymm less)) ok.pairwise_aged sorted

theorem Consistent.contains_iff (ok : c.Consistent) {coordinate : Coordinate} :
    c.contains coordinate = true ↔ ∃ e ∈ c.entries, e.coordinate = coordinate := by
  rw [contains, Option.isSome_iff_exists]
  constructor
  · rintro ⟨slot, found⟩
    obtain ⟨e, there, own⟩ := (ok.places coordinate slot).1 found
    exact ⟨e, List.mem_of_getElem? there, own⟩
  · rintro ⟨e, mem, own⟩
    obtain ⟨slot, there⟩ := List.mem_iff_getElem?.1 mem
    exact ⟨slot, (ok.places coordinate slot).2 ⟨e, there, own⟩⟩

theorem Consistent.contains_iff_mem_byAge (ok : c.Consistent) {coordinate : Coordinate} :
    c.contains coordinate = true ↔ coordinate ∈ c.byAge.map Prod.fst := by
  rw [ok.contains_iff, byAge, List.map_map, List.mem_map]
  simp only [mem_aged]
  rfl

theorem Consistent.hasRoom_iff (ok : c.Consistent) {length : Nat} :
    c.hasRoom length = true ↔ c.limits.HasRoom c.byAge length := by
  have sum : (c.byAge.map fun chunk => chunk.2.length).sum = c.bytesUsed := by
    rw [ok.bytes, byAge, List.map_map]
    exact (c.aged_perm.map _).sum_nat
  have count : c.byAge.length = c.entries.length := by
    rw [byAge, List.length_map, c.aged_perm.length_eq]
  rw [hasRoom, CacheLimits.HasRoom, sum, count, Bool.and_eq_true, decide_eq_true_eq,
    decide_eq_true_eq]
  exact Iff.rfl

/-! ## Hits -/

open scoped List in
theorem perm_set {α : Type} {xs : List α} {i : Nat} {x : α} (y : α) (there : xs[i]? = some x) :
    x :: xs.set i y ~ y :: xs := by
  obtain ⟨lt, rfl⟩ := List.getElem?_eq_some_iff.1 there
  rw [List.set_eq_take_append_cons_drop, if_pos lt]
  calc xs[i] :: (xs.take i ++ y :: xs.drop (i + 1))
    _ ~ xs[i] :: y :: (xs.take i ++ xs.drop (i + 1)) := List.perm_middle.cons _
    _ ~ y :: xs[i] :: (xs.take i ++ xs.drop (i + 1)) := .swap ..
    _ = y :: xs[i] :: xs.eraseIdx i := by rw [List.eraseIdx_eq_take_drop_succ]
    _ ~ y :: xs := (List.getElem_cons_eraseIdx_perm lt).cons _

/-- The cache after a request for the coordinate of the entry in `slot`. -/
def touch (c : Cache) (slot : Nat) (e : CacheEntry) : Cache :=
  { c with
    tick := c.tick + 1
    entries := c.entries.set slot { e with lastAccess := c.tick + 1 }
    stats := { c.stats with hits := c.stats.hits + 1 } }

/-- The cache after a request for a coordinate that is not cached. -/
def missed (c : Cache) : Cache :=
  { c with tick := c.tick + 1, stats := { c.stats with misses := c.stats.misses + 1 } }

theorem request_of_slot {coordinate : Coordinate} {slot : Nat} {e : CacheEntry}
    (place : c.slot? coordinate = some slot) (there : c.entries[slot]? = some e) :
    c.request coordinate = (some e.buffer, c.touch slot e) := by
  simp only [request, place, Option.bind_some, there, Option.map_some]
  rfl

theorem request_of_not_contains {coordinate : Coordinate}
    (absent : c.contains coordinate = false) : c.request coordinate = (none, c.missed) := by
  have nowhere : c.slot? coordinate = none := by
    rw [contains] at absent
    exact Option.not_isSome_iff_eq_none.1 (by rw [absent]; decide)
  simp only [request, nowhere, Option.bind_none]
  rfl

/-- A hit gives one entry the next tick, which no other entry has. -/
theorem Consistent.touch (ok : c.Consistent) {slot : Nat} {e : CacheEntry}
    (there : c.entries[slot]? = some e) : (c.touch slot e).Consistent := by
  obtain ⟨lt, -⟩ := List.getElem?_eq_some_iff.1 there
  have perm := perm_set { e with lastAccess := c.tick + 1 } there
  -- Up to its tick the touched entry is the old one.
  have same : ∀ {β : Type} (f : CacheEntry → β), f { e with lastAccess := c.tick + 1 } = f e →
      ((c.entries.set slot { e with lastAccess := c.tick + 1 }).map f).Perm (c.entries.map f) := by
    intro β f eq
    have mapped := perm.map f
    rw [List.map_cons, List.map_cons, eq] at mapped
    exact mapped.cons_inv
  refine ⟨ok.keys, ?_, ?_, ?_, ?_, ?_, ?_, ok.bytes_le⟩
  · intro coordinate place
    show c.slot? coordinate = some place ↔ _
    rw [ok.places coordinate place, Cache.touch]
    dsimp only
    rw [List.getElem?_set]
    split
    next here =>
      subst here
      rw [there]
      simp
    next => exact Iff.rfl
  · exact (same CacheEntry.coordinate rfl).nodup_iff.2 ok.distinct
  · have mapped := perm.map CacheEntry.lastAccess
    have fresh : ((c.tick + 1) :: c.entries.map CacheEntry.lastAccess).Nodup := by
      refine List.nodup_cons.2 ⟨fun mem => ?_, ok.ticks⟩
      obtain ⟨e', mem', tick⟩ := List.mem_map.1 mem
      have := ok.clock e' mem'
      omega
    exact (List.nodup_cons.1 (mapped.nodup_iff.2 fresh)).2
  · intro e' mem
    rcases List.mem_or_eq_of_mem_set mem with old | rfl
    · exact Nat.le_succ_of_le (ok.clock e' old)
    · exact Nat.le_refl _
  · exact ok.bytes.trans (same (fun e => e.buffer.length) rfl).sum_nat.symm
  · show (c.entries.set slot _).length ≤ _
    rw [List.length_set]
    exact ok.slots_le

/-- A hit makes a chunk the one used last. -/
theorem Consistent.aged_touch (ok : c.Consistent) {slot : Nat} {e : CacheEntry}
    (there : c.entries[slot]? = some e) {older newer : List CacheEntry}
    (order : c.aged = older ++ e :: newer) :
    (c.touch slot e).aged = older ++ newer ++ [{ e with lastAccess := c.tick + 1 }] := by
  have sorted := ok.pairwise_aged
  rw [order] at sorted
  apply (ok.touch there).aged_eq
  · have front : (e :: (older ++ newer)).Perm c.entries := by
      have perm := c.aged_perm
      rw [order] at perm
      exact List.perm_middle.symm.trans perm
    have both : (e :: (older ++ newer ++ [{ e with lastAccess := c.tick + 1 }])).Perm
        (e :: c.entries.set slot { e with lastAccess := c.tick + 1 }) :=
      (List.perm_append_singleton _ (e :: (older ++ newer))).trans
        ((front.cons _).trans (perm_set _ there).symm)
    exact both.cons_inv
  · have kept : (older ++ newer).Sublist (older ++ e :: newer) :=
      (List.sublist_cons_self e newer).append_left older
    refine List.pairwise_append.2 ⟨sorted.sublist kept, List.pairwise_singleton _ _, ?_⟩
    intro a mem b last
    rw [List.mem_singleton.1 last]
    have old : a ∈ c.entries := by
      rw [← mem_aged, order]
      exact kept.mem mem
    exact Nat.lt_succ_of_le (ok.clock a old)

/-! ## Evictions -/

/-- The entry in the place that is evicted first is the first one in the order of age. -/
theorem Consistent.oldest?_eq (ok : c.Consistent) {oldest : CacheEntry} {newer : List CacheEntry}
    (order : c.aged = oldest :: newer) :
    ∃ slot, oldest? c.entries = some slot ∧ c.entries[slot]? = some oldest := by
  have sorted := ok.pairwise_aged
  rw [order] at sorted
  have mem : oldest ∈ c.entries := mem_aged.1 (by rw [order]; exact List.mem_cons_self)
  have least : ∀ e ∈ c.entries, oldest.lastAccess ≤ e.lastAccess := by
    intro e among
    rw [← mem_aged, order] at among
    rcases List.mem_cons.1 among with rfl | later
    · exact Nat.le_refl _
    · exact Nat.le_of_lt ((List.pairwise_cons.1 sorted).1 e later)
  have tick : (c.entries.map CacheEntry.lastAccess).min? = some oldest.lastAccess := by
    rw [List.min?_eq_some_iff]
    exact ⟨List.mem_map_of_mem mem, List.forall_mem_map.2 least⟩
  obtain ⟨slot, found⟩ : ∃ slot,
      c.entries.findIdx? (fun e => e.lastAccess = oldest.lastAccess) = some slot := by
    rw [← Option.isSome_iff_exists, List.findIdx?_isSome, List.any_eq_true]
    exact ⟨oldest, mem, decide_eq_true rfl⟩
  refine ⟨slot, by rw [oldest?, tick]; exact found, ?_⟩
  obtain ⟨lt, same, -⟩ := List.findIdx?_eq_some_iff_getElem.1 found
  rw [List.getElem?_eq_getElem lt]
  exact congrArg some
    (List.inj_on_of_nodup_map ok.ticks (List.getElem_mem lt) mem (of_decide_eq_true same))

theorem swapRemove_perm {entries : List CacheEntry} {slot : Nat} {victim : CacheEntry}
    (there : entries[slot]? = some victim) :
    (victim :: swapRemove entries slot).Perm entries := by
  obtain ⟨lt, -⟩ := List.getElem?_eq_some_iff.1 there
  rcases List.eq_nil_or_concat entries with rfl | ⟨front, last, rfl⟩
  · cases there
  rw [List.concat_eq_append] at *
  rw [swapRemove, List.getLast?_concat]
  dsimp only
  rcases Nat.lt_or_ge slot front.length with inside | atEnd
  · rw [List.getElem?_append_left inside] at there
    rw [List.set_append_left slot last inside, List.dropLast_concat]
    exact (perm_set last there).trans (List.perm_append_singleton last front).symm
  · obtain rfl : slot = front.length := by
      rw [List.length_append, List.length_singleton] at lt
      omega
    rw [List.getElem?_concat_length] at there
    cases there
    rw [List.set_append_right _ _ (Nat.le_refl _), Nat.sub_self, List.set_cons_zero,
      List.dropLast_concat]
    exact (List.perm_append_singleton _ front).symm

theorem keys_filter {slots : List (Coordinate × Nat)} (keys : (slots.map Prod.fst).Nodup)
    (p : Coordinate × Nat → Bool) : ((slots.filter p).map Prod.fst).Nodup :=
  keys.sublist (List.filter_sublist.map Prod.fst)

theorem keys_assign {slots : List (Coordinate × Nat)} (keys : (slots.map Prod.fst).Nodup)
    (coordinate : Coordinate) (slot : Nat) :
    ((assign slots coordinate slot).map Prod.fst).Nodup := by
  rw [assign, List.map_cons, List.nodup_cons]
  refine ⟨fun mem => ?_, keys_filter keys _⟩
  obtain ⟨p, among, same⟩ := List.mem_map.1 mem
  exact of_decide_eq_true (List.mem_filter.1 among).2 same

/-- The cache without the entry in `slot`. -/
def without (c : Cache) (slot : Nat) (victim : CacheEntry) : Cache :=
  let entries := swapRemove c.entries slot
  let kept := c.slots.filter fun (other, _) => other ≠ victim.coordinate
  { c with
    entries
    slots := match entries[slot]? with
      | some moved => assign kept moved.coordinate slot
      | none => kept
    bytesUsed := c.bytesUsed - victim.buffer.length
    stats := { c.stats with evictions := c.stats.evictions + 1 } }

theorem Consistent.holds (ok : c.Consistent) : c.Holds fun _ _ => True where
  buffers _ _ := trivial
  places coordinate slot := (ok.places coordinate slot).1

/-- Entries in two places have two coordinates. -/
theorem Consistent.place_inj (ok : c.Consistent) {i j : Nat} {a b : CacheEntry}
    (first : c.entries[i]? = some a) (second : c.entries[j]? = some b)
    (same : a.coordinate = b.coordinate) : i = j := by
  have left := (ok.places a.coordinate i).2 ⟨a, first, rfl⟩
  have right := (ok.places a.coordinate j).2 ⟨b, second, same.symm⟩
  exact Option.some.inj (left.symm.trans right)

/-- Places after an eviction: the last entry has the place of the evicted one. -/
theorem Consistent.slot?_without (ok : c.Consistent) {slot place : Nat} {victim e : CacheEntry}
    (there : c.entries[slot]? = some victim)
    (here : (swapRemove c.entries slot)[place]? = some e) :
    (c.without slot victim).slot? e.coordinate = some place := by
  obtain ⟨lt, -⟩ := List.getElem?_eq_some_iff.1 there
  obtain ⟨last, ends⟩ : ∃ last, c.entries.getLast? = some last := by
    rw [← Option.isSome_iff_exists, List.getLast?_isSome]
    exact List.ne_nil_of_length_pos (by omega)
  have lastPlace : c.entries[c.entries.length - 1]? = some last := by
    rw [← List.getLast?_eq_getElem?, ends]
  rw [getElem?_swapRemove ends lt] at here
  split at here
  next inside =>
    rw [slot?, without]
    dsimp only
    rw [getElem?_swapRemove ends lt]
    split at here
    next same =>
      cases here
      rw [if_pos (by omega), if_pos rfl]
      dsimp only
      rw [lookup_assign, if_pos rfl, same]
    next other =>
      have stays : (c.slots.filter fun (other, _) => other ≠ victim.coordinate).lookup
          e.coordinate = some place := by
        rw [lookup_filter_ne, if_neg fun same => other (ok.place_inj here there same)]
        exact (ok.places e.coordinate place).2 ⟨e, here, rfl⟩
      by_cases moved : slot + 1 < c.entries.length
      · rw [if_pos moved, if_pos rfl]
        dsimp only
        have differs : e.coordinate ≠ last.coordinate := fun same => by
          have := ok.place_inj here lastPlace same
          omega
        rw [lookup_assign, if_neg differs, stays]
      · rw [if_neg moved]
        exact stays
  next => cases here

/-- An eviction takes the chunk used longest ago, and nothing else. -/
theorem Consistent.evict (ok : c.Consistent) {oldest : CacheEntry} {newer : List CacheEntry}
    (order : c.aged = oldest :: newer) :
    c.evict.Consistent ∧ c.evict.aged = newer ∧ c.evict.limits = c.limits ∧
      c.evict.tick = c.tick ∧
      c.evict.stats = { c.stats with evictions := c.stats.evictions + 1 } := by
  obtain ⟨slot, chosen, there⟩ := ok.oldest?_eq order
  have taken : c.evict = c.without slot oldest := by
    simp only [Cache.evict, chosen, there]
    rfl
  have perm := swapRemove_perm there
  have sum : oldest.buffer.length +
      ((swapRemove c.entries slot).map fun e => e.buffer.length).sum = c.bytesUsed := by
    rw [ok.bytes, ← List.sum_cons, ← List.map_cons (f := fun e : CacheEntry => e.buffer.length)]
    exact (perm.map _).sum_nat
  have places := ok.holds.evict.places
  rw [taken] at places ⊢
  have still : (c.without slot oldest).Consistent := by
    refine ⟨?_, fun coordinate place => ⟨places coordinate place, ?_⟩, ?_, ?_, ?_, ?_, ?_, ?_⟩
    · rw [without]
      dsimp only
      split
      · exact keys_assign (keys_filter ok.keys _) _ _
      · exact keys_filter ok.keys _
    · rintro ⟨e, here, rfl⟩
      exact ok.slot?_without there here
    · exact (List.nodup_cons.1 ((perm.map CacheEntry.coordinate).nodup_iff.2 ok.distinct)).2
    · exact (List.nodup_cons.1 ((perm.map CacheEntry.lastAccess).nodup_iff.2 ok.ticks)).2
    · exact fun e mem => ok.clock e (perm.mem_iff.1 (List.mem_cons_of_mem _ mem))
    · show c.bytesUsed - oldest.buffer.length = ((swapRemove c.entries slot).map _).sum
      omega
    · have size := perm.length_eq
      have most : c.entries.length ≤ c.limits.maxSlots := ok.slots_le
      rw [List.length_cons] at size
      show (swapRemove c.entries slot).length ≤ c.limits.maxSlots
      omega
    · exact Nat.le_trans (Nat.sub_le _ _) ok.bytes_le
  refine ⟨still, ?_, rfl, rfl, rfl⟩
  have sorted := ok.pairwise_aged
  have all := c.aged_perm
  rw [order] at sorted all
  exact still.aged_eq (all.trans perm.symm).cons_inv (List.pairwise_cons.1 sorted).2

/-- Making room takes the shortest run of chunks, from the one used longest ago on, without which
there is room. -/
theorem Consistent.makeRoom (ok : c.Consistent) {length fuel : Nat}
    (enough : c.entries.length ≤ fuel) (slots : 0 < c.limits.maxSlots)
    (fits : length ≤ c.limits.maxBytes) :
    ∃ n, IsLeast {n | c.limits.HasRoom (c.byAge.drop n) length} n ∧
      (Cache.makeRoom length fuel c).Consistent ∧
      (Cache.makeRoom length fuel c).aged = c.aged.drop n ∧
      (Cache.makeRoom length fuel c).limits = c.limits ∧
      (Cache.makeRoom length fuel c).tick = c.tick ∧
      (Cache.makeRoom length fuel c).stats =
        { c.stats with evictions := c.stats.evictions + n } := by
  have atOnce : c.limits.HasRoom c.byAge length →
      IsLeast {n | c.limits.HasRoom (c.byAge.drop n) length} 0 :=
    fun room => ⟨room, fun _ _ => Nat.zero_le _⟩
  induction fuel generalizing c with
  | zero =>
    have nothing : c.byAge = [] := by
      rw [byAge, List.map_eq_nil_iff, ← List.length_eq_zero_iff, c.aged_perm.length_eq]
      omega
    refine ⟨0, atOnce ?_, ok, rfl, rfl, rfl, rfl⟩
    rw [nothing]
    exact ⟨slots, by simpa using fits⟩
  | succ fuel ih =>
    rw [Cache.makeRoom]
    cases order : c.aged with
    | nil =>
      have nothing : c.entries = [] := by
        rw [← List.length_eq_zero_iff, ← c.aged_perm.length_eq, order]
        rfl
      rw [if_pos (by rw [nothing]; rfl)]
      refine ⟨0, atOnce ?_, ok, order, rfl, rfl, rfl⟩
      rw [byAge, order]
      exact ⟨slots, by simpa using fits⟩
    | cons oldest newer =>
      have listed : c.byAge = chunkOf oldest :: newer.map chunkOf := by rw [byAge, order]; rfl
      have size : c.entries.length = newer.length + 1 := by
        rw [← c.aged_perm.length_eq, order]
        rfl
      have some : c.entries.isEmpty = false := by
        rw [List.isEmpty_eq_false_iff_exists_mem]
        exact ⟨oldest, mem_aged.1 (by rw [order]; exact List.mem_cons_self)⟩
      rw [some, Bool.false_or]
      by_cases room : c.limits.HasRoom c.byAge length
      · rw [if_pos (ok.hasRoom_iff.2 room)]
        exact ⟨0, atOnce room, ok, order, rfl, rfl, rfl⟩
      · rw [if_neg (mt ok.hasRoom_iff.1 room)]
        obtain ⟨ok', aged, limits, tick, stats⟩ := ok.evict order
        have rest : c.evict.byAge = newer.map chunkOf := by rw [byAge, aged]
        have size' : c.evict.entries.length = newer.length := by
          rw [← c.evict.aged_perm.length_eq, aged]
        obtain ⟨n, ⟨here, least⟩, still, order', limits', tick', stats'⟩ :=
          ih ok' (by omega) (by rwa [limits]) (by rwa [limits])
            fun room => ⟨room, fun _ _ => Nat.zero_le _⟩
        rw [limits, rest] at here least
        refine ⟨n + 1, ⟨?_, fun m enough => ?_⟩, still, ?_, ?_, ?_, ?_⟩
        · rw [listed]
          exact here
        · cases m with
          | zero => exact absurd enough room
          | succ m =>
            rw [listed] at enough
            exact Nat.succ_le_succ (least enough)
        · rw [order', aged]
          rfl
        · rw [limits', limits]
        · rw [tick', tick]
        · rw [stats', stats, Nat.add_assoc, Nat.add_comm n 1]

/-! ## New chunks -/

theorem getElem?_concat_iff {α : Type} {xs : List α} {x a : α} {i : Nat} :
    (xs ++ [x])[i]? = some a ↔ xs[i]? = some a ∨ i = xs.length ∧ x = a := by
  rcases Nat.lt_trichotomy i xs.length with inside | rfl | beyond
  · rw [List.getElem?_append_left inside]
    exact ⟨.inl, fun either => either.elim id fun last => absurd last.1 (Nat.ne_of_lt inside)⟩
  · rw [List.getElem?_concat_length, List.getElem?_eq_none (Nat.le_refl _)]
    simp
  · rw [List.getElem?_eq_none (by simp; omega), List.getElem?_eq_none (Nat.le_of_lt beyond)]
    simp
    omega

/-- The cache with a new entry behind the others. -/
def push (c : Cache) (coordinate : Coordinate) (buffer : Bytes) : Cache :=
  { c with
    bytesUsed := c.bytesUsed + buffer.length
    slots := assign c.slots coordinate c.entries.length
    entries := c.entries ++ [⟨coordinate, buffer, c.tick⟩] }

theorem Consistent.push (ok : c.Consistent) {coordinate : Coordinate} {buffer : Bytes}
    (absent : c.contains coordinate = false) (fresh : ∀ e ∈ c.entries, e.lastAccess < c.tick)
    (room : c.limits.HasRoom c.byAge buffer.length) :
    (c.push coordinate buffer).Consistent ∧
      (c.push coordinate buffer).byAge = c.byAge ++ [(coordinate, buffer)] := by
  have new : ∀ e ∈ c.entries, e.coordinate ≠ coordinate := by
    intro e mem own
    rw [ok.contains_iff.2 ⟨e, mem, own⟩] at absent
    cases absent
  have room' := ok.hasRoom_iff.2 room
  rw [hasRoom, Bool.and_eq_true, decide_eq_true_eq, decide_eq_true_eq] at room'
  have still : (c.push coordinate buffer).Consistent := by
    refine ⟨keys_assign ok.keys _ _, ?_, ?_, ?_, ?_, ?_, ?_, room'.2⟩
    · intro other place
      have place_iff : (c.push coordinate buffer).slot? other = some place ↔
          if other = coordinate then c.entries.length = place else c.slot? other = some place := by
        show (assign c.slots coordinate c.entries.length).lookup other = some place ↔ _
        rw [lookup_assign]
        split
        · exact Option.some_inj
        · exact Iff.rfl
      show _ ↔ ∃ e, (c.entries ++ [_])[place]? = some e ∧ _
      simp only [place_iff, getElem?_concat_iff]
      split
      next same =>
        subst same
        constructor
        · rintro rfl
          exact ⟨_, .inr ⟨rfl, rfl⟩, rfl⟩
        · rintro ⟨e, old | ⟨here, -⟩, own⟩
          · exact absurd own (new e (List.mem_of_getElem? old))
          · exact here.symm
      next different =>
        rw [ok.places other place]
        constructor
        · rintro ⟨e, there, own⟩
          exact ⟨e, .inl there, own⟩
        · rintro ⟨e, old | ⟨-, rfl⟩, own⟩
          · exact ⟨e, old, own⟩
          · exact absurd own.symm different
    · show ((c.entries ++ [_]).map CacheEntry.coordinate).Nodup
      rw [List.map_append]
      refine ok.distinct.append (List.nodup_singleton _) (List.disjoint_singleton.2 fun mem => ?_)
      obtain ⟨e, among, own⟩ := List.mem_map.1 mem
      exact new e among own
    · show ((c.entries ++ [_]).map CacheEntry.lastAccess).Nodup
      rw [List.map_append]
      refine ok.ticks.append (List.nodup_singleton _) (List.disjoint_singleton.2 fun mem => ?_)
      obtain ⟨e, among, own⟩ := List.mem_map.1 mem
      exact Nat.ne_of_lt (fresh e among) own
    · intro e mem
      rcases List.mem_append.1 mem with old | own
      · exact ok.clock e old
      · rw [List.mem_singleton.1 own]
        exact Nat.le_refl _
    · show _ = ((c.entries ++ [_]).map fun e : CacheEntry => e.buffer.length).sum
      rw [List.map_append, List.sum_append, ← ok.bytes]
      rfl
    · show (c.entries ++ [_]).length ≤ _
      rw [List.length_append]
      exact room'.1
  refine ⟨still, ?_⟩
  have order : (c.push coordinate buffer).aged = c.aged ++ [⟨coordinate, buffer, c.tick⟩] := by
    apply still.aged_eq (c.aged_perm.append_right _)
    refine List.pairwise_append.2 ⟨ok.pairwise_aged, List.pairwise_singleton _ _, ?_⟩
    intro a mem b last
    rw [List.mem_singleton.1 last]
    exact fresh a (mem_aged.1 mem)
  rw [byAge, order, List.map_append]
  rfl

end Cache

end ChunkStore
