import ChunkStore.Proofs.Cache.Recency

/-!
# A cache after any history

`Cache.Serves` says how a request is served from a list of chunks by age under two limits: a cached
chunk moves to the end of the list, an error leaves the list alone, a chunk that is too long passes
by, and any other chunk is put at the end after the shortest run from the front has been evicted.
Every consistent cache serves requests so (`Consistent.serves`), and a cache stays consistent and
keeps its account whatever is asked of it (`Sound.perform`).
-/

namespace ChunkStore.Cache

/-- What is asked of a cache; `miss` produces a chunk that is not cached. -/
inductive Operation (ε : Type) where
  | get (coordinate : Coordinate) (miss : Unit → Except ε Bytes)
  | contains (coordinate : Coordinate)
  | clear

/-- A cache with the number of requests since it was last cleared, and of those of them that were
answered with an error. -/
structure Tallied where
  cache : Cache
  requests : Nat
  failures : Nat

namespace Tallied

variable {ε : Type}

/-- A new cache. -/
def ofLimits (limits : CacheLimits) : Tallied := ⟨.ofLimits limits, 0, 0⟩

/-- Carries out an operation. -/
def perform (t : Tallied) : Operation ε → Tallied
  | .get coordinate miss =>
    match t.cache.get coordinate miss with
    | (.ok _, cache) => ⟨cache, t.requests + 1, t.failures⟩
    | (.error _, cache) => ⟨cache, t.requests + 1, t.failures + 1⟩
  | .contains _ => t
  | .clear => ⟨t.cache.clear, 0, 0⟩

/-- The cache after operations, one after another. -/
def after (t : Tallied) (operations : List (Operation ε)) : Tallied := operations.foldl perform t

end Tallied

/-- A request is served from the list of the chunks by age. -/
structure Serves {ε : Type} (c : Cache) (coordinate : Coordinate) (miss : Unit → Except ε Bytes) :
    Prop where
  /-- A cached chunk is the answer and becomes the one used last. Nothing depends on `miss`. -/
  hit : ∀ older buffer newer, c.byAge = older ++ (coordinate, buffer) :: newer →
    (∀ miss', c.get coordinate miss' = c.get coordinate miss) ∧
      (c.get coordinate miss).1 = .ok buffer ∧
      (c.get coordinate miss).2.byAge = older ++ newer ++ [(coordinate, buffer)]
  /-- An error of `miss` is the answer, and the entries stay. -/
  failed : c.contains coordinate = false → ∀ e, miss () = .error e →
    (c.get coordinate miss).1 = .error e ∧
      (c.get coordinate miss).2.entries = c.entries ∧
      (c.get coordinate miss).2.bytesUsed = c.bytesUsed ∧
      (c.get coordinate miss).2.stats.evictions = c.stats.evictions
  /-- A chunk longer than the limit, or any where nothing may be kept, is the answer and passes by
  the entries. -/
  bypassed : c.contains coordinate = false → ∀ buffer, miss () = .ok buffer →
    c.limits.maxSlots = 0 ∨ c.limits.maxBytes = 0 ∨ c.limits.maxBytes < buffer.length →
    (c.get coordinate miss).1 = .ok buffer ∧
      (c.get coordinate miss).2.entries = c.entries ∧
      (c.get coordinate miss).2.bytesUsed = c.bytesUsed ∧
      (c.get coordinate miss).2.stats.evictions = c.stats.evictions
  /-- Any other chunk is the answer and becomes the one used last. The chunks evicted for it are
  the shortest run, from the one used longest ago on, without which both limits hold. -/
  kept : c.contains coordinate = false → ∀ buffer, miss () = .ok buffer →
    0 < c.limits.maxSlots → 0 < c.limits.maxBytes → buffer.length ≤ c.limits.maxBytes →
    ∃ n, IsLeast {n | c.limits.HasRoom (c.byAge.drop n) buffer.length} n ∧
      (c.get coordinate miss).1 = .ok buffer ∧
      (c.get coordinate miss).2.byAge = c.byAge.drop n ++ [(coordinate, buffer)] ∧
      (c.get coordinate miss).2.stats.evictions = c.stats.evictions + n

variable {ε : Type} {c : Cache} {coordinate : Coordinate} {miss : Unit → Except ε Bytes}

/-! ## What a request comes to -/

/-- The cache after a chunk has passed by. -/
def passedBy (c : Cache) : Cache :=
  { c with stats := { c.stats with bypassed := c.stats.bypassed + 1 } }

theorem get_of_slot {slot : Nat} {e : CacheEntry} (place : c.slot? coordinate = some slot)
    (there : c.entries[slot]? = some e) (miss : Unit → Except ε Bytes) :
    c.get coordinate miss = (.ok e.buffer, c.touch slot e) := by
  rw [get, request_of_slot place there]

theorem get_of_error {e : ε} (absent : c.contains coordinate = false)
    (fails : miss () = .error e) : c.get coordinate miss = (.error e, c.missed) := by
  rw [get, request_of_not_contains absent]
  dsimp only
  rw [fails]

theorem get_of_ok {buffer : Bytes} (absent : c.contains coordinate = false)
    (produces : miss () = .ok buffer) :
    c.get coordinate miss = (.ok buffer, c.missed.retain coordinate buffer) := by
  rw [get, request_of_not_contains absent]
  dsimp only
  rw [produces]

theorem retain_of_passes {buffer : Bytes}
    (passes : c.limits.maxSlots = 0 ∨ c.limits.maxBytes = 0 ∨ c.limits.maxBytes < buffer.length) :
    c.retain coordinate buffer = c.passedBy := by
  have either : (!c.limits.isEnabled || decide (c.limits.maxBytes < buffer.length)) = true := by
    rw [CacheLimits.isEnabled, Bool.or_eq_true, Bool.not_eq_true', Bool.and_eq_false_iff,
      decide_eq_false_iff_not, decide_eq_false_iff_not, decide_eq_true_eq]
    omega
  rw [retain, if_pos either]
  rfl

theorem retain_of_fits {buffer : Bytes} (slots : 0 < c.limits.maxSlots)
    (bytes : 0 < c.limits.maxBytes) (fits : buffer.length ≤ c.limits.maxBytes) :
    c.retain coordinate buffer =
      (Cache.makeRoom buffer.length c.entries.length c).push coordinate buffer := by
  have enabled : c.limits.isEnabled = true := by
    rw [CacheLimits.isEnabled, decide_eq_true slots, decide_eq_true bytes]
    rfl
  rw [retain, enabled, if_neg (by simpa using fits)]
  rfl

theorem Consistent.missed (ok : c.Consistent) : c.missed.Consistent :=
  { ok with clock := fun e mem => Nat.le_succ_of_le (ok.clock e mem) }

theorem Consistent.passedBy (ok : c.Consistent) : c.passedBy.Consistent := { ok with }

/-- A new chunk is kept behind those that are left when there is room for it. -/
theorem Consistent.retain (ok : c.Consistent) {buffer : Bytes}
    (absent : c.contains coordinate = false) (slots : 0 < c.limits.maxSlots)
    (bytes : 0 < c.limits.maxBytes) (fits : buffer.length ≤ c.limits.maxBytes) :
    ∃ n, IsLeast {n | c.limits.HasRoom (c.byAge.drop n) buffer.length} n ∧
      (c.missed.retain coordinate buffer).Consistent ∧
      (c.missed.retain coordinate buffer).byAge = c.byAge.drop n ++ [(coordinate, buffer)] ∧
      (c.missed.retain coordinate buffer).limits = c.limits ∧
      (c.missed.retain coordinate buffer).stats =
        { c.stats with
          misses := c.stats.misses + 1
          evictions := c.stats.evictions + n } := by
  rw [retain_of_fits (c := c.missed) slots bytes fits]
  obtain ⟨n, least, still, order, limits, tick, stats⟩ :=
    ok.missed.makeRoom (Nat.le_refl _) slots fits
  generalize Cache.makeRoom buffer.length c.missed.entries.length c.missed = d at *
  have order : d.aged = c.aged.drop n := order
  have rest : d.byAge = c.byAge.drop n := by rw [byAge, byAge, order, List.map_drop]
  have old : ∀ e ∈ d.entries, e ∈ c.entries := by
    intro e mem
    rw [← mem_aged, order] at mem
    exact mem_aged.1 (List.mem_of_mem_drop mem)
  have new : d.contains coordinate = false := by
    rw [← Bool.not_eq_true, still.contains_iff]
    rintro ⟨e, mem, own⟩
    rw [ok.contains_iff.2 ⟨e, old e mem, own⟩] at absent
    cases absent
  have fresh : ∀ e ∈ d.entries, e.lastAccess < d.tick := by
    intro e mem
    rw [tick]
    exact Nat.lt_succ_of_le (ok.clock e (old e mem))
  have room : d.limits.HasRoom d.byAge buffer.length := by
    rw [limits, rest]
    exact least.1
  obtain ⟨kept, order'⟩ := still.push new fresh room
  exact ⟨n, least, kept, by rw [order', rest], limits, stats⟩

/-- A consistent cache serves every request from the list of its chunks by age. -/
theorem Consistent.serves (ok : c.Consistent) (coordinate : Coordinate)
    (miss : Unit → Except ε Bytes) : c.Serves coordinate miss where
  hit older buffer newer order := by
    obtain ⟨older', rest, split, rfl, listed⟩ := List.map_eq_append_iff.1 order
    obtain ⟨e, newer', rfl, here, rfl⟩ := List.map_eq_cons_iff.1 listed
    obtain ⟨rfl, rfl⟩ : e.coordinate = coordinate ∧ e.buffer = buffer := Prod.ext_iff.1 here
    have mem : e ∈ c.entries := by
      rw [← mem_aged, split]
      exact List.mem_append_right _ List.mem_cons_self
    obtain ⟨slot, there⟩ := List.mem_iff_getElem?.1 mem
    have place := (ok.places e.coordinate slot).2 ⟨e, there, rfl⟩
    refine ⟨fun miss' => ?_, ?_, ?_⟩
    · rw [get_of_slot place there, get_of_slot place there]
    · rw [get_of_slot place there]
    · rw [get_of_slot place there, byAge, ok.aged_touch there split, List.map_append,
        List.map_append]
      rfl
  failed absent e fails := by
    rw [get_of_error absent fails]
    exact ⟨rfl, rfl, rfl, rfl⟩
  bypassed absent buffer produces passes := by
    rw [get_of_ok absent produces, retain_of_passes (c := c.missed) passes]
    exact ⟨rfl, rfl, rfl, rfl⟩
  kept absent buffer produces slots bytes fits := by
    obtain ⟨n, least, -, order, -, stats⟩ := ok.retain absent slots bytes fits
    rw [get_of_ok absent produces]
    exact ⟨n, least, rfl, order, by rw [stats]⟩

/-! ## Histories -/

/-- The cache is consistent and within its limits, and its account is that of the tally. -/
structure Sound (limits : CacheLimits) (t : Tallied) : Prop where
  limits : t.cache.limits = limits
  consistent : t.cache.Consistent
  requests : t.cache.stats.hits + t.cache.stats.misses = t.requests
  misses : t.cache.stats.misses =
    t.cache.size + t.cache.stats.evictions + t.cache.stats.bypassed + t.failures

theorem sound_ofLimits (limits : CacheLimits) : Sound limits (.ofLimits limits) :=
  ⟨rfl, consistent_ofLimits limits, rfl, rfl⟩

theorem size_eq_length_byAge (c : Cache) : c.size = c.byAge.length := by
  rw [size, byAge, List.length_map, c.aged_perm.length_eq]

/-- Whatever is asked of it, a cache stays sound. -/
theorem Sound.perform {limits : CacheLimits} {t : Tallied} (sound : Sound limits t)
    (operation : Operation ε) : Sound limits (t.perform operation) := by
  obtain ⟨rfl, ok, requests, misses⟩ := sound
  cases operation with
  | contains coordinate => exact ⟨rfl, ok, requests, misses⟩
  | clear => exact sound_ofLimits _
  | get coordinate miss =>
    rw [Tallied.perform]
    cases found : t.cache.contains coordinate with
    | true =>
      obtain ⟨e, mem, rfl⟩ := ok.contains_iff.1 found
      obtain ⟨slot, there⟩ := List.mem_iff_getElem?.1 mem
      rw [get_of_slot ((ok.places e.coordinate slot).2 ⟨e, there, rfl⟩) there]
      refine ⟨rfl, ok.touch there, ?_, ?_⟩
      · show t.cache.stats.hits + 1 + t.cache.stats.misses = t.requests + 1
        omega
      · show t.cache.stats.misses = (t.cache.entries.set slot _).length + _ + _ + _
        rw [List.length_set]
        exact misses
    | false =>
      cases produced : miss () with
      | error e =>
        rw [get_of_error found produced]
        refine ⟨rfl, ok.missed, ?_, ?_⟩
        · show t.cache.stats.hits + (t.cache.stats.misses + 1) = t.requests + 1
          omega
        · show t.cache.stats.misses + 1 = t.cache.size + t.cache.stats.evictions +
            t.cache.stats.bypassed + (t.failures + 1)
          omega
      | ok buffer =>
        rw [get_of_ok found produced]
        by_cases passes : t.cache.limits.maxSlots = 0 ∨ t.cache.limits.maxBytes = 0 ∨
            t.cache.limits.maxBytes < buffer.length
        · rw [retain_of_passes (c := t.cache.missed) passes]
          refine ⟨rfl, ok.missed.passedBy, ?_, ?_⟩
          · show t.cache.stats.hits + (t.cache.stats.misses + 1) = t.requests + 1
            omega
          · show t.cache.stats.misses + 1 = t.cache.size + t.cache.stats.evictions +
              (t.cache.stats.bypassed + 1) + t.failures
            omega
        · obtain ⟨n, least, still, order, limits, stats⟩ :=
            ok.retain found (by omega) (by omega) (by omega : buffer.length ≤ _)
          have fewer : n ≤ t.cache.byAge.length := by
            refine least.2 ⟨?_, ?_⟩
            · rw [List.drop_length]
              show 0 + 1 ≤ _
              omega
            · rw [List.drop_length]
              show 0 + buffer.length ≤ _
              omega
          refine ⟨limits, still, ?_, ?_⟩
          · rw [stats]
            dsimp only
            omega
          · rw [stats, size_eq_length_byAge, order, List.length_append, List.length_drop,
              List.length_singleton]
            rw [size_eq_length_byAge] at misses
            dsimp only
            omega

theorem Sound.after {limits : CacheLimits} {t : Tallied} (sound : Sound limits t)
    (operations : List (Operation ε)) : Sound limits (t.after operations) := by
  induction operations generalizing t with
  | nil => exact sound
  | cons operation operations ih => exact ih (sound.perform operation)

/-- A cache under two limits is a list of chunks by age, whatever has been asked of it: its parts
agree with each other and stay within the limits, the next request is served from the list, and the
account since it was last cleared is complete. -/
theorem least_recently_used (limits : CacheLimits) (history : List (Operation ε)) :
    ∃ c requests failures, (Tallied.ofLimits limits).after history = ⟨c, requests, failures⟩ ∧
      c.limits = limits ∧ c.Consistent ∧
      (∀ coordinate, c.contains coordinate = true ↔ coordinate ∈ c.byAge.map Prod.fst) ∧
      (∀ coordinate (miss : Unit → Except ε Bytes), c.Serves coordinate miss) ∧
      c.stats.hits + c.stats.misses = requests ∧
      c.stats.misses = c.size + c.stats.evictions + c.stats.bypassed + failures := by
  have sound := (sound_ofLimits limits).after history
  exact ⟨_, _, _, rfl, sound.limits, sound.consistent,
    fun _ => sound.consistent.contains_iff_mem_byAge, sound.consistent.serves, sound.requests,
    sound.misses⟩

end ChunkStore.Cache
