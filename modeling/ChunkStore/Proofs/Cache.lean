import ChunkStore.Cache

/-!
# What a cache answers with

`Cache.Holds P`: every buffer in the cache has the property `P` for its coordinate, and the place
of a coordinate is the place of its own entry. Requests, evictions and new chunks keep it
(`Holds.request`, `Holds.evict`, `Holds.retain`), so a request is answered only with what was kept
for the same coordinate.
-/

namespace ChunkStore.Cache

/-- Every buffer is right for its coordinate, and every place is that of the coordinate's entry. -/
structure Holds (P : Coordinate → Bytes → Prop) (c : Cache) : Prop where
  buffers : ∀ e ∈ c.entries, P e.coordinate e.buffer
  places : ∀ coordinate slot, c.slot? coordinate = some slot →
    ∃ e, c.entries[slot]? = some e ∧ e.coordinate = coordinate

variable {P : Coordinate → Bytes → Prop} {c : Cache}

theorem holds_ofLimits (limits : CacheLimits) : Holds P (ofLimits limits) where
  buffers := by
    intro e mem
    cases mem
  places := by
    intro coordinate slot found
    cases found

/-! ## Places -/

theorem lookup_filter_ne {slots : List (Coordinate × Nat)} {removed coordinate : Coordinate} :
    (slots.filter fun (other, _) => other ≠ removed).lookup coordinate =
      if coordinate = removed then none else slots.lookup coordinate := by
  induction slots with
  | nil => simp
  | cons p slots ih =>
    obtain ⟨other, slot⟩ := p
    by_cases gone : other = removed
    · subst gone
      rw [List.filter_cons_of_neg (by simp), ih, List.lookup_cons]
      by_cases same : coordinate = other
      · simp [same]
      · simp [same, beq_eq_false_iff_ne.2 same]
    · rw [List.filter_cons_of_pos (by simpa using gone), List.lookup_cons, List.lookup_cons, ih]
      by_cases same : coordinate = other
      · subst same
        simp [gone]
      · simp [beq_eq_false_iff_ne.2 same]

theorem lookup_assign {slots : List (Coordinate × Nat)} {coordinate other : Coordinate}
    {slot : Nat} :
    (assign slots coordinate slot).lookup other =
      if other = coordinate then some slot else slots.lookup other := by
  rw [assign, List.lookup_cons, lookup_filter_ne]
  by_cases same : other = coordinate
  · simp [same]
  · simp [same, beq_eq_false_iff_ne.2 same]

theorem getElem?_swapRemove {entries : List CacheEntry} {last : CacheEntry} {slot i : Nat}
    (ends : entries.getLast? = some last) (lt : slot < entries.length) :
    (swapRemove entries slot)[i]? =
      if i + 1 < entries.length then (if i = slot then some last else entries[i]?) else none := by
  rw [swapRemove, ends]
  dsimp only
  rw [List.getElem?_dropLast, List.length_set]
  by_cases inside : i + 1 < entries.length
  · rw [if_pos (by omega), if_pos inside, List.getElem?_set]
    by_cases same : slot = i
    · simp [same, show i < entries.length by omega]
    · simp [same, Ne.symm same]
  · rw [if_neg (by omega), if_neg inside]

/-! ## What the steps of a cache keep -/

theorem Holds.evict (holds : c.Holds P) : c.evict.Holds P := by
  unfold Cache.evict
  split
  · exact holds
  split
  · exact holds
  next slot _ _ victim found =>
  obtain ⟨lt, -⟩ := List.getElem?_eq_some_iff.1 found
  obtain ⟨last, ends⟩ : ∃ last, c.entries.getLast? = some last := by
    rw [← Option.isSome_iff_exists, List.getLast?_isSome]
    exact List.ne_nil_of_length_pos (by omega)
  have lastPlace : c.entries[c.entries.length - 1]? = some last := by
    rw [← List.getLast?_eq_getElem?, ends]
  constructor
  · intro e mem
    obtain ⟨i, there⟩ := List.mem_iff_getElem?.1 mem
    rw [getElem?_swapRemove ends lt] at there
    split at there
    · split at there
      · cases there
        exact holds.buffers last (List.mem_of_getLast? ends)
      · exact holds.buffers e (List.mem_of_getElem? there)
    · cases there
  · intro coordinate place assigned
    rw [slot?] at assigned
    dsimp only at assigned ⊢
    rw [getElem?_swapRemove ends lt] at assigned
    -- An entry other than the victim and the last one is still in its place.
    have stays : ∀ place, coordinate ≠ victim.coordinate →
        c.slots.lookup coordinate = some place →
        (slot + 1 < c.entries.length → coordinate ≠ last.coordinate) →
        ∃ e, (swapRemove c.entries slot)[place]? = some e ∧ e.coordinate = coordinate := by
      intro place different kept moved
      obtain ⟨e, there, own⟩ := holds.places coordinate place kept
      obtain ⟨inside, -⟩ := List.getElem?_eq_some_iff.1 there
      have other : place ≠ slot := by
        rintro rfl
        rw [found] at there
        cases there
        exact different own.symm
      have notLast : place + 1 < c.entries.length := by
        rcases Nat.lt_or_ge (place + 1) c.entries.length with less | beyond
        · exact less
        · obtain rfl : place = c.entries.length - 1 := by omega
          rw [lastPlace] at there
          cases there
          exact absurd own.symm (moved (by omega))
      exact ⟨e, by rw [getElem?_swapRemove ends lt, if_pos notLast, if_neg other, there], own⟩
    by_cases more : slot + 1 < c.entries.length
    · rw [if_pos more, if_pos rfl] at assigned
      dsimp only at assigned
      rw [lookup_assign] at assigned
      split at assigned
      · next same =>
          cases assigned
          exact ⟨last, by rw [getElem?_swapRemove ends lt, if_pos more, if_pos rfl], same.symm⟩
      · next moved =>
          rw [lookup_filter_ne] at assigned
          split at assigned
          · cases assigned
          · next different => exact stays place different assigned fun _ => moved
    · rw [if_neg more] at assigned
      dsimp only at assigned
      rw [lookup_filter_ne] at assigned
      split at assigned
      · cases assigned
      · next different => exact stays place different assigned fun lt => absurd lt more

theorem Holds.makeRoom (holds : c.Holds P) (length fuel : Nat) :
    (Cache.makeRoom length fuel c).Holds P := by
  induction fuel generalizing c with
  | zero => exact holds
  | succ fuel ih =>
    rw [Cache.makeRoom]
    split
    · exact holds
    · exact ih holds.evict

/-- A request is answered with what was kept for the same coordinate, and keeps the rest. -/
theorem Holds.request (holds : c.Holds P) (coordinate : Coordinate) :
    (c.request coordinate).2.Holds P ∧
      ∀ buffer, (c.request coordinate).1 = some buffer → P coordinate buffer := by
  unfold Cache.request
  cases place : c.slot? coordinate with
  | none =>
    exact ⟨⟨holds.buffers, holds.places⟩, fun _ answer => by cases answer⟩
  | some slot =>
    obtain ⟨e, there, own⟩ := holds.places coordinate slot place
    have right := holds.buffers e (List.mem_of_getElem? there)
    simp only [Option.bind_some, there, Option.map_some]
    refine ⟨⟨?_, ?_⟩, ?_⟩
    · intro e' mem
      rcases List.mem_or_eq_of_mem_set mem with old | rfl
      · exact holds.buffers e' old
      · exact right
    · intro other slot' found
      obtain ⟨e', there', own'⟩ := holds.places other slot' found
      dsimp only
      rw [List.getElem?_set]
      split
      · next same =>
          subst same
          rw [there] at there'
          cases there'
          obtain ⟨lt, -⟩ := List.getElem?_eq_some_iff.1 there
          exact ⟨{ e with lastAccess := c.tick + 1 }, if_pos lt, own'⟩
      · exact ⟨e', there', own'⟩
    · intro buffer answer
      cases answer
      exact own ▸ right

/-- A cache keeps a new chunk for its own coordinate. -/
theorem Holds.retain (holds : c.Holds P) {coordinate : Coordinate} {buffer : Bytes}
    (right : P coordinate buffer) : (c.retain coordinate buffer).Holds P := by
  unfold Cache.retain
  split
  · exact ⟨holds.buffers, holds.places⟩
  have room := holds.makeRoom buffer.length c.entries.length
  generalize Cache.makeRoom buffer.length c.entries.length c = d at room
  constructor
  · intro e mem
    rcases List.mem_append.1 mem with old | new
    · exact room.buffers e old
    · rw [List.mem_singleton.1 new]
      exact right
  · intro other slot assigned
    rw [slot?] at assigned
    dsimp only at assigned ⊢
    rw [lookup_assign] at assigned
    split at assigned
    · next same =>
        cases assigned
        exact ⟨_, List.getElem?_concat_length, same.symm⟩
    · obtain ⟨e, there, own⟩ := room.places other slot assigned
      obtain ⟨lt, -⟩ := List.getElem?_eq_some_iff.1 there
      exact ⟨e, (List.getElem?_append_left lt).trans there, own⟩

end ChunkStore.Cache
