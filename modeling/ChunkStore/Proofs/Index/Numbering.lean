import ChunkStore.Proofs.Grid.RowMajor
import ChunkStore.Proofs.Index.Handle

/-!
# Indexes that find a chunk by its number

Implicit indexes and arrays turn a coordinate into a number (`ChunkIndex.number`) and look at
nothing else of it (`runOn_lookup_eq_answer`). The numbers tell the chunks of the largest extent
apart exactly when there are at most `2 ^ 64` of them (`number_injective_iff`), and then the
chunks of an implicit index lie apart in the file (`implicitChunk_apart`). No layout is refused
for having more chunks; `numbered_apart_iff` puts this together for an index as it is opened.
-/

namespace ChunkStore

open Index

/-- Whether the index finds a chunk by its number. -/
def IndexParameters.isLinear : IndexParameters → Bool
  | .implicit | .fixedArray _ | .extensibleArray .. => true
  | .treeOne | .single _ | .treeTwo .. => false

namespace ChunkIndex

/-- Whether the index finds a chunk by its number. -/
def isLinear : ChunkIndex → Bool
  | implicit .. | fixedArray _ | extensibleArray _ => true
  | single .. | treeOne _ | treeTwo _ => false

/-- The number of the chunk at a coordinate. -/
def number : ChunkIndex → Coordinate → Nat
  | extensibleArray a, c => ExtensibleArray.linearIndex a.settings.geometry c
  | ix, c => Coordinate.linearIndex c ix.geometry.downMaxCounts

/-- The descriptor of chunk `i` among chunks back to back. -/
def implicitChunk (s : Settings) (base i : Nat) : Descriptor :=
  if base = undefinedAddress then .undefined
  else match checked (i * s.geometry.chunkBytes + base) with
    | some address => s.plain address
    | none => .undefined

/-- What an index that goes by numbers answers for number `i`, and the index afterwards. -/
def answer (image : Image) (ix : ChunkIndex) (i : Nat) : Except Error Descriptor × ChunkIndex :=
  match ix with
  | implicit s base => (.ok (implicitChunk s base i), ix)
  | fixedArray a =>
    if a.address = undefinedAddress then (.ok .undefined, ix)
    else
      let (result, a) := (FixedArray.entry i).runOn image a
      (result, fixedArray a)
  | extensibleArray a =>
    if a.address = undefinedAddress then (.ok .undefined, ix)
    else
      let (result, a) := (ExtensibleArray.entry i).runOn image a
      (result, extensibleArray a)
  | single .. | treeOne _ | treeTwo _ => (.ok .undefined, ix)

theorem isLinear_of_ofLayout {layout : ChunkedLayout} {g : Geometry} {widths : FileWidths}
    {filtered verify : Bool} {ix : ChunkIndex}
    (opened : ofLayout layout g widths filtered verify = .ok ix) (linear : layout.index.isLinear) :
    ix.isLinear := by
  unfold ofLayout at opened
  split at opened
  · cases opened
  cases kind : layout.index with
  | single info => rw [kind] at linear; cases linear
  | treeOne => rw [kind] at linear; cases linear
  | treeTwo => rw [kind] at linear; cases linear
  | fixedArray pageBits => simp only [kind] at opened; cases opened; rfl
  | extensibleArray => simp only [kind] at opened; cases opened; rfl
  | implicit =>
    simp only [kind] at opened
    split at opened
    · cases opened
    split at opened
    · cases opened
    cases opened
    rfl

theorem implicit_of_ofLayout {layout : ChunkedLayout} {g : Geometry} {widths : FileWidths}
    {filtered verify : Bool} {ix : ChunkIndex}
    (opened : ofLayout layout g widths filtered verify = .ok ix) (kind : layout.index = .implicit) :
    ∃ s base, ix = implicit s base := by
  unfold ofLayout at opened
  split at opened
  · cases opened
  simp only [kind] at opened
  split at opened
  · cases opened
  split at opened
  · cases opened
  cases opened
  exact ⟨_, _, rfl⟩

@[simp] theorem isLinear_fresh (ix : ChunkIndex) : ix.fresh.isLinear = ix.isLinear := by
  cases ix <;> rfl

@[simp] theorem number_fresh (ix : ChunkIndex) : ix.fresh.number = ix.number := by
  cases ix <;> rfl

@[simp] theorem isLinear_after (image : Image) (ix : ChunkIndex) (earlier : List Coordinate) :
    (ix.after image earlier).isLinear = ix.isLinear := by
  rw [← isLinear_fresh, fresh_after, isLinear_fresh]

@[simp] theorem number_after (image : Image) (ix : ChunkIndex) (earlier : List Coordinate) :
    (ix.after image earlier).number = ix.number := by
  rw [← number_fresh, fresh_after, number_fresh]

@[simp] theorem after_implicit (image : Image) (s : Settings) (base : Nat)
    (earlier : List Coordinate) : (implicit s base).after image earlier = implicit s base := by
  have kept := fresh_after image (implicit s base) earlier
  cases reached : (implicit s base).after image earlier with
  | implicit s' base' => rw [reached] at kept; exact kept
  | _ => rw [reached] at kept; cases kept

/-- A lookup within the largest extent answers for the number of the coordinate. -/
theorem runOn_lookup_eq_answer (image : Image) {ix : ChunkIndex} {c : Coordinate}
    (linear : ix.isLinear) (holds : ix.geometry.Holds c) :
    (lookup c).runOn image ix = ix.answer image (ix.number c) := by
  have inside : ix.geometry.withinMax c = true := holds.2
  rw [runOn_lookup image holds.checkRank]
  cases ix with
  | single s d => cases linear
  | treeOne t => cases linear
  | treeTwo t => cases linear
  | implicit s base =>
    have inside : s.geometry.withinMax c = true := inside
    simp only [answer, lookupImplicit, implicitChunk, inside, Bool.not_true, Bool.false_eq_true,
      or_false]
    rfl
  | fixedArray a =>
    have inside : a.settings.geometry.withinMax c = true := inside
    simp only [FixedArray.lookup, answer, inside, Bool.not_true, Bool.false_eq_true, or_false,
      Session.runOn_get_bind]
    split <;> rfl
  | extensibleArray a =>
    have inside : a.settings.geometry.withinMax c = true := inside
    simp only [ExtensibleArray.lookup, answer, inside, Bool.not_true, Bool.false_eq_true, or_false,
      Session.runOn_get_bind]
    split <;> rfl

theorem number_lt (ix : ChunkIndex) (c : Coordinate) : ix.number c < UInt64.size := by
  cases ix with
  | extensibleArray a =>
    rw [number, ExtensibleArray.linearIndex_eq]
    exact Coordinate.linearIndex_lt _ _
  | _ => exact Coordinate.linearIndex_lt _ _

/-- The numbers tell the chunks apart exactly when there are at most `2 ^ 64` of them. -/
theorem number_injective_iff (ix : ChunkIndex) :
    (∀ c d, Coordinate.Within c ix.geometry.scaledMaxDims →
      Coordinate.Within d ix.geometry.scaledMaxDims → ix.number c = ix.number d → c = d) ↔
    ix.geometry.scaledMaxDims.prod ≤ UInt64.size := by
  cases ix with
  | extensibleArray a =>
    refine ⟨Coordinate.prod_le_of_injective _ (number_lt _), fun fits c d hc hd same => ?_⟩
    generalize growth : ExtensibleArray.growthDimension a.settings.geometry = k
    have moved : (Coordinate.moveToFront k a.settings.geometry.scaledMaxDims).prod ≤
        UInt64.size := by
      rw [(Coordinate.moveToFront_perm k _).prod_nat]
      exact fits
    have ck : Coordinate.Within _ (Coordinate.moveToFront k a.settings.geometry.scaledMaxDims) :=
      Coordinate.within_moveToFront k hc
    have dk : Coordinate.Within _ (Coordinate.moveToFront k a.settings.geometry.scaledMaxDims) :=
      Coordinate.within_moveToFront k hd
    simp only [number, ExtensibleArray.linearIndex_eq, growth] at same
    rw [Coordinate.linearIndex_downCounts ck moved, Coordinate.linearIndex_downCounts dk moved]
      at same
    exact Coordinate.moveToFront_inj (hc.length_eq.trans hd.length_eq.symm)
      (Coordinate.rowMajor_inj ck dk same)
  | _ => exact Coordinate.linearIndex_injective_iff

theorem geometry_implicit (s : Settings) (base : Nat) :
    (implicit s base).geometry = s.geometry := rfl

theorem address_implicitChunk {s : Settings} {base i : Nat}
    (allocated : (implicitChunk s base i).isAllocated) :
    (implicitChunk s base i).address = i * s.geometry.chunkBytes + base := by
  unfold implicitChunk at allocated ⊢
  split
  · simp_all [Descriptor.isAllocated, Descriptor.undefined]
  · next defined =>
      rw [if_neg defined] at allocated
      split
      · next address found =>
          obtain ⟨_, rfl⟩ := checked_eq_some_iff.1 found
          rw [found] at allocated
          unfold Settings.plain at allocated ⊢
          split
          · simp_all [Descriptor.isAllocated, Descriptor.undefined]
          · rfl
      · next none =>
          rw [none] at allocated
          simp [Descriptor.isAllocated, Descriptor.undefined] at allocated

/-- Allocated chunks with different numbers lie one after the other. -/
theorem implicitChunk_apart {s : Settings} {base i j : Nat} (differ : i ≠ j)
    (first : (implicitChunk s base i).isAllocated) (second : (implicitChunk s base j).isAllocated) :
    (implicitChunk s base i).address + s.geometry.chunkBytes ≤ (implicitChunk s base j).address ∨
      (implicitChunk s base j).address + s.geometry.chunkBytes ≤
        (implicitChunk s base i).address := by
  rw [address_implicitChunk first, address_implicitChunk second]
  rcases Nat.lt_or_gt_of_ne differ with less | greater
  · have next := Nat.mul_le_mul_right s.geometry.chunkBytes less
    rw [Nat.succ_mul] at next
    omega
  · have next := Nat.mul_le_mul_right s.geometry.chunkBytes greater
    rw [Nat.succ_mul] at next
    omega

/-- For every index that goes by numbers: a lookup within the largest extent, at any time,
answers for the number of its coordinate. The numbers are distinct exactly when the extent has at
most `2 ^ 64` chunks; then implicit chunks do not overlap. With more chunks, two of them share a
number and with it every answer. -/
theorem numbered_apart_iff {layout : ChunkedLayout} {dims maxDims chunkDims : List Nat}
    {elementSize : Nat} {g : Geometry} {widths : FileWidths} {filtered verify : Bool}
    {ix : ChunkIndex} (made : Geometry.ofExtents dims maxDims chunkDims elementSize = .ok g)
    (opened : ofLayout layout g widths filtered verify = .ok ix)
    (linear : layout.index.isLinear) :
    (∀ image earlier c, g.Holds c →
      (lookup c).runOn image (ix.after image earlier) =
        (ix.after image earlier).answer image (ix.number c)) ∧
    ((∀ c d, g.Holds c → g.Holds d → ix.number c = ix.number d → c = d) ↔
      g.scaledMaxDims.prod ≤ UInt64.size) ∧
    (g.scaledMaxDims.prod ≤ UInt64.size → layout.index = .implicit →
      ∀ image earlier₁ earlier₂ c d a b, g.Holds c → g.Holds d → c ≠ d →
        ((lookup c).runOn image (ix.after image earlier₁)).1 = .ok a →
        ((lookup d).runOn image (ix.after image earlier₂)).1 = .ok b →
        a.isAllocated → b.isAllocated →
        a.address + g.chunkBytes ≤ b.address ∨ b.address + g.chunkBytes ≤ a.address) ∧
    (UInt64.size < g.scaledMaxDims.prod → ∃ c d, g.Holds c ∧ g.Holds d ∧ c ≠ d ∧
      ∀ image earlier, (lookup c).runOn image (ix.after image earlier) =
        (lookup d).runOn image (ix.after image earlier)) := by
  obtain ⟨-, ranks⟩ := Geometry.ranks_of_ofExtents made
  obtain ⟨-, -, settings⟩ := fresh_of_ofLayout opened
  have grid : ix.geometry = g := by rw [geometry, settings]
  have goes : ∀ image earlier c, g.Holds c →
      (lookup c).runOn image (ix.after image earlier) =
        (ix.after image earlier).answer image (ix.number c) := by
    intro image earlier c holds
    have linear : (ix.after image earlier).isLinear := by
      rw [isLinear_after]
      exact isLinear_of_ofLayout opened linear
    have holds : (ix.after image earlier).geometry.Holds c := by
      rw [geometry, settings_after, ← geometry, grid]
      exact holds
    rw [runOn_lookup_eq_answer image linear holds, number_after]
  have injective : (∀ c d, g.Holds c → g.Holds d → ix.number c = ix.number d → c = d) ↔
      g.scaledMaxDims.prod ≤ UInt64.size := by
    simp only [Geometry.holds_iff_within ranks]
    exact grid ▸ number_injective_iff ix
  refine ⟨goes, injective, ?_, ?_⟩
  · intro fits kind image earlier₁ earlier₂ c d a b hc hd differ first second alloc₁ alloc₂
    rw [goes _ _ _ hc] at first
    rw [goes _ _ _ hd] at second
    have numbers : ix.number c ≠ ix.number d :=
      fun same => differ (injective.2 fits c d hc hd same)
    obtain ⟨s, base, rfl⟩ := implicit_of_ofLayout opened kind
    rw [after_implicit] at first second
    cases first
    cases second
    have apart := implicitChunk_apart numbers alloc₁ alloc₂
    rwa [← geometry_implicit, grid] at apart
  · intro many
    by_contra none
    push Not at none
    apply Nat.not_le_of_gt many
    refine injective.1 fun c d hc hd same => ?_
    by_contra differ
    obtain ⟨image, earlier, apart⟩ := none c d hc hd differ
    exact apart (by rw [goes _ _ _ hc, goes _ _ _ hd, same])

/-- A grid of `2 ^ 33` by `2 ^ 32` chunks is accepted, and the lookup of a chunk far from the
first one answers with the first one's place. -/
theorem implicit_chunks_alias : ∃ ix,
    Geometry.ofExtents [2 ^ 33, 2 ^ 32] [2 ^ 33, 2 ^ 32] [1, 1] 1 =
      .ok ⟨[2 ^ 33, 2 ^ 32], [2 ^ 33, 2 ^ 32], 1⟩ ∧
    ofLayout ⟨4, 0, [1, 1], 1, .implicit, 4096⟩ ⟨[2 ^ 33, 2 ^ 32], [2 ^ 33, 2 ^ 32], 1⟩ .default
      false true = .ok ix ∧
    ix.geometry.Holds [0, 0] ∧ ix.geometry.Holds [2 ^ 32, 0] ∧
    ∀ image earlier, (lookup [2 ^ 32, 0]).runOn image (ix.after image earlier) =
      (lookup [0, 0]).runOn image (ix.after image earlier) := by
  have made : Geometry.ofExtents [2 ^ 33, 2 ^ 32] [2 ^ 33, 2 ^ 32] [1, 1] 1 =
      .ok ⟨[2 ^ 33, 2 ^ 32], [2 ^ 33, 2 ^ 32], 1⟩ := by decide
  have opened : ofLayout ⟨4, 0, [1, 1], 1, .implicit, 4096⟩
      ⟨[2 ^ 33, 2 ^ 32], [2 ^ 33, 2 ^ 32], 1⟩ .default false true = .ok _ := rfl
  have first : Geometry.Holds ⟨[2 ^ 33, 2 ^ 32], [2 ^ 33, 2 ^ 32], 1⟩ [0, 0] := by decide
  have far : Geometry.Holds ⟨[2 ^ 33, 2 ^ 32], [2 ^ 33, 2 ^ 32], 1⟩ [2 ^ 32, 0] := by decide
  obtain ⟨goes, -⟩ := numbered_apart_iff made opened rfl
  refine ⟨_, made, opened, first, far, fun image earlier => ?_⟩
  exact (goes image earlier _ far).trans (goes image earlier _ first).symm

end ChunkIndex

end ChunkStore
